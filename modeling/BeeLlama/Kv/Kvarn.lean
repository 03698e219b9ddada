import BeeLlama.Kv.Plain

/-!
# The KVarN cache (`llama_kv_cache_kvarn`)

A KVarN cache keeps its cells in a metadata cache without tensors (`KvarnCache.metadata`) and the
content in quantized records of 128 cells. The cells of a group that is not complete yet, and group
`0`, are F16 rows of the stage; the newest rows of a sequence are also in the exact tail.

The stage tensors have the shape `[128, n_head, n_stage_tokens]`: a stage is a function of the flat
row `token * n_head + head`. The content of a row is one number, `0` for a zeroed row. The copies of
whole streams and of tail rows are queued by `seq_cp` and made before the next change
(`apply_pending_stream_copies`).
-/

namespace BeeLlama

/-- `KVAR_N_GROUP`. -/
def KVAR_N_GROUP : Nat := 128

/-! ## Ranges -/

/-- `llama_kvarn_can_remove_range`. -/
def llamaKvarnCanRemoveRange (posMax p0 p1 : Int) (group : Nat) : Bool :=
  if posMax < 0 then true
  else
    let begin_ := max p0 0
    let end_ := KvCache.rangeEnd p1
    if begin_ = 0 ∧ end_ > posMax then true
    else if end_ ≤ posMax then false
    else
      let liveGroup := posMax / group
      let earliestExact := max 0 (liveGroup - 1) * group
      decide (begin_ ≥ earliestExact)

/-- `llama_kvarn_plan_remove_range`: the planned range, or nothing. -/
def llamaKvarnPlanRemoveRange (posMax p0 p1 : Int) (group : Nat) (streamOwned : Bool) :
    Option (Int × Int) :=
  if llamaKvarnCanRemoveRange posMax p0 p1 group then some (p0, p1)
  else if !streamOwned || decide (p0 ≤ 0) || decide (p1 ≥ 0) then none
  else some (p0 / group * group, -1)

/-- `llama_kvarn_stream_is_exclusive_for`. -/
def llamaKvarnStreamIsExclusiveFor (nStream nSeqMax : Nat) (seqId : Int) (seqPosMax : Nat → Int) :
    Bool :=
  if nStream = 0 ∨ seqId < 0 ∨ nSeqMax ≤ seqId.toNat then false
  else if nStream > 1 then true
  else (List.range nSeqMax).all fun other => other == seqId.toNat || decide (seqPosMax other < 0)

/-! ## Tensors -/

/-- `count` rows of a tensor from `first` on are zeroed. -/
def zeroRows (first count : Nat) (r : Nat → Nat) : Nat → Nat :=
  fun i => if first ≤ i ∧ i < first + count then 0 else r i

/-- Block `src` of `n` rows goes to block `dst`. -/
def copyBlock (n src dst : Nat) (r : Nat → Nat) : Nat → Nat :=
  fun i => if i / n = dst then r (src * n + i % n) else r i

/-- The rows `src` go to the rows `dst`: all are read before the first one is written. -/
def copySlots (src dst : List Int) (r : Nat → Nat) : Nat → Nat :=
  (dst.zip (src.map fun slot => r slot.toNat)).foldl
    (fun f p => Function.update f p.1.toNat p.2) r

/-- The tensors of a layer. -/
structure KvarnLayer where
  /-- `k_stage->ne[1]`. -/
  nHeadK : Nat
  /-- `v_stage->ne[1]`. -/
  nHeadV : Nat
  kRecords : Nat → Nat := fun _ => 0
  vRecords : Nat → Nat := fun _ => 0
  kStage : Nat → Nat := fun _ => 0
  vStage : Nat → Nat := fun _ => 0
  kTail : Nat → Nat := fun _ => 0
  vTail : Nat → Nat := fun _ => 0

/-- `llama_kv_cache_kvarn`. -/
structure KvarnCache where
  metadata : KvCache
  layers : List KvarnLayer
  stageGroups : Nat
  nGroupsPerStream : Nat
  swa : Bool := false
  pendingStreamCopies : StreamCopyInfo := {}

/-- The cache that a call leaves and what it returns or throws. -/
abbrev KOut (α : Type) := KvarnCache × Except KvError α

namespace KvCache

/-- `get_tail_slots`. -/
def getTailSlots (st : KvCache) : Nat := (st.tail.map (·.cfg.nSlots)).getD 0

/-- `get_tail_arena_stride`. -/
def getTailArenaStride (st : KvCache) : Nat := (st.tail.map (·.cfg.arenaStride)).getD 0

/-- `seq_pos_max`, for a sequence that the cache has. -/
def seqPosMax (st : KvCache) (s : Nat) : Int := (st.cells (st.cfg.seqToStream s)).seqPosMax s

/-- `get_seq_rm_capability().suffix_rollback_tokens`. -/
def suffixRollbackTokens (st : KvCache) : Nat :=
  if st.hasCompactTail then
    if st.cfg.tailMetadataOnly || st.cfg.tailHasBody then UINT32_MAX
    else st.cfg.tailRollbackTokens
  else UINT32_MAX

/-- `take_pending_tail_copies`: the cache without them, and the copies. -/
def takePendingTailCopies (st : KvCache) : KvCache × StreamCopyInfo :=
  ({ st with scInfo := { ssrc := st.scInfo.ssrc, sdst := st.scInfo.sdst } },
    { tailSrcSlots := st.scInfo.tailSrcSlots
      tailDstSlots := st.scInfo.tailDstSlots
      tailTransaction := st.scInfo.tailTransaction })

/-- `reset_tail_write_cursor`. -/
def resetTailWriteCursor (st : KvCache) (seqId : Int) : COut Unit :=
  if seqId < 0 then
    (List.range st.cfg.nSeqMax).foldl
      (fun o (s : Nat) => andThen o fun st _ => st.onTail fun t => t.resetWriteCursor s)
      (st, .ok ())
  else if seqId.toNat < st.cfg.nSeqMax then st.onTail fun t => t.resetWriteCursor seqId
  else (st, .ok ())

end KvCache

namespace KvarnCache

/-- A call of the metadata cache. -/
def onMetadata {α : Type} (k : KvarnCache) (o : COut α) : KOut α :=
  ({ k with metadata := o.1 }, o.2)

/-- Go on if the call returned. -/
def andThen {α β : Type} (o : KOut α) (f : KvarnCache → α → KOut β) : KOut β :=
  match o with
  | (k, .error e) => (k, .error e)
  | (k, .ok a) => f k a

/-- `stream_is_exclusive_for`. -/
def streamIsExclusiveFor (k : KvarnCache) (seqId : Int) : Bool :=
  llamaKvarnStreamIsExclusiveFor k.metadata.cfg.nStream k.metadata.cfg.nSeqMax seqId
    k.metadata.seqPosMax

/-! ## Pending copies -/

/-- The assertions of `apply_pending_stream_copies` and `copy_kvarn_stream`. -/
def pendingAsserts (k : KvarnCache) : Bool :=
  let p := k.pendingStreamCopies
  decide (p.ssrc.length = p.sdst.length) &&
    (p.ssrc.zip p.sdst).all (fun q => decide (q.1 < k.metadata.cfg.nStream) &&
      decide (q.2 < k.metadata.cfg.nStream) && decide (q.1 ≠ q.2)) &&
    decide (p.tailSrcSlots.length = p.tailDstSlots.length) &&
    (k.metadata.tail.isNone || k.layers.isEmpty ||
      (p.tailSrcSlots ++ p.tailDstSlots).all fun slot =>
        decide (0 ≤ slot ∧ slot < k.metadata.getTailSlots))

/-- `copy_kvarn_stream` for the tensors of a layer. -/
def copyKvarnStream (k : KvarnCache) (src dst : Nat) (l : KvarnLayer) : KvarnLayer :=
  let tokens := KVAR_N_GROUP * k.stageGroups
  { l with
    kRecords := copyBlock k.nGroupsPerStream src dst l.kRecords
    vRecords := copyBlock k.nGroupsPerStream src dst l.vRecords
    kStage := copyBlock (tokens * l.nHeadK) src dst l.kStage
    vStage := copyBlock (tokens * l.nHeadV) src dst l.vStage }

/-- The copies of `apply_pending_stream_copies` in a layer. -/
def copyLayer (k : KvarnCache) (l : KvarnLayer) : KvarnLayer :=
  let p := k.pendingStreamCopies
  let l := (p.ssrc.zip p.sdst).foldl (fun l q => k.copyKvarnStream q.1 q.2 l) l
  { l with
    kTail := copySlots p.tailSrcSlots p.tailDstSlots l.kTail
    vTail := copySlots p.tailSrcSlots p.tailDstSlots l.vTail }

/-- `apply_pending_stream_copies`. -/
def applyPendingStreamCopies (k : KvarnCache) : KOut Unit :=
  if k.pendingStreamCopies.isEmpty then (k, .ok ())
  else if !k.pendingAsserts then (k, .error .abort)
  else
    let k := { k with layers := k.layers.map k.copyLayer }
    let o := if k.pendingStreamCopies.tailTransaction then
        k.onMetadata (k.metadata.onTail fun t => t.commitSeqCp)
      else (k, .ok ())
    andThen o fun k _ => ({ k with pendingStreamCopies := {} }, .ok ())

/-! ## The rows of the tail and of the stage -/

/-- The tail slots `[begin, begin + count)` that `clear_tail_storage` zeroes, if it does not return
before. -/
def tailBlock (k : KvarnCache) (seqId : Int) : Option (Nat × Nat) :=
  let slots := k.metadata.getTailSlots
  if slots = 0 ∨ k.layers = [] then none
  else if seqId < 0 then some (0, slots)
  else
    let stride := k.metadata.getTailArenaStride
    if stride = 0 ∨ stride > slots then none
    else
      let first := k.metadata.cfg.seqToStream seqId.toNat * stride
      if first ≥ slots then none
      else
        let count := min stride (slots - first)
        -- the slots after the last stream belong to no stream, and are zeroed with it
        let assigned := k.metadata.cfg.nStream * stride
        some (first, if assigned < slots ∧ first + count = assigned then slots - first else count)

/-- The rows of a stage tensor that `clear_tail_storage` zeroes: `ne[1]`, the number of heads, is
taken for the number of rows. -/
def stageBlock (k : KvarnCache) (seqId : Int) (rows : Nat) : Option (Nat × Nat) :=
  if rows = 0 then none
  else if seqId < 0 then some (0, rows)
  else
    let streams := max 1 k.metadata.cfg.nStream
    if rows % streams ≠ 0 then none
    else
      let per := rows / streams
      let first := k.metadata.cfg.seqToStream seqId.toNat * per
      if first ≥ rows then none else some (first, min per (rows - first))

/-- The rows of a block are zeroed, if there is one. -/
def zeroBlock (b : Option (Nat × Nat)) (r : Nat → Nat) : Nat → Nat :=
  match b with
  | none => r
  | some (first, count) => zeroRows first count r

/-- The loop of `clear_tail_storage` for one layer. -/
def clearLayer (k : KvarnCache) (seqId : Int) (b : Nat × Nat) (l : KvarnLayer) : KvarnLayer :=
  { l with
    kTail := zeroRows b.1 b.2 l.kTail
    vTail := zeroRows b.1 b.2 l.vTail
    kStage := zeroBlock (k.stageBlock seqId l.nHeadK) l.kStage
    vStage := zeroBlock (k.stageBlock seqId l.nHeadV) l.vStage }

/-- `clear_tail_storage`. -/
def clearTailStorage (k : KvarnCache) (seqId : Int) : KOut Unit :=
  match k.tailBlock seqId with
  | none => (k, .ok ())
  | some b =>
    andThen (k.onMetadata (k.metadata.resetTailWriteCursor seqId)) fun k _ =>
      ({ k with layers := k.layers.map (k.clearLayer seqId b) }, .ok ())

/-! ## Calls -/

/-- `clear(data)`. -/
def clear (k : KvarnCache) (data : Bool) : KOut Unit :=
  let k := { k with pendingStreamCopies := {}, metadata := k.metadata.clear false }
  andThen (k.clearTailStorage (-1)) fun k _ =>
    ({ k with layers :=
        if data then k.layers.map fun l => { nHeadK := l.nHeadK, nHeadV := l.nHeadV }
        else k.layers }, .ok ())

/-- `can_remove`. -/
def canRemove (k : KvarnCache) (seqId p0 p1 : Int) : Bool :=
  if seqId < 0 then decide (p0 ≤ 0 ∧ p1 < 0)
  else if !k.metadata.canSeqRm seqId p0 p1 then false
  else
    let posMax := k.metadata.seqPosMax seqId.toNat
    if llamaKvarnCanRemoveRange posMax p0 p1 KVAR_N_GROUP then true
    else if p0 ≤ 0 ∨ p1 ≥ 0 then false
    else
      llamaKvarnPlanRemoveRange posMax p0 p1 KVAR_N_GROUP (k.streamIsExclusiveFor seqId) ==
        some (p0, p1)

/-- `can_seq_rm`. -/
def canSeqRm (k : KvarnCache) (seqId p0 p1 : Int) : Bool := k.canRemove seqId p0 p1

/-- `seq_rm_plan`: the planned range, or nothing. -/
def seqRmPlan (k : KvarnCache) (seqId p0 p1 : Int) : Option (Int × Int) :=
  if seqId < 0 then if p0 > 0 ∨ p1 ≥ 0 then none else some (p0, p1)
  else if k.metadata.cfg.nSeqMax ≤ seqId.toNat then none
  else if llamaKvarnCanRemoveRange (k.metadata.seqPosMax seqId.toNat) p0 p1 KVAR_N_GROUP then
    if !k.metadata.canSeqRm seqId p0 p1 then none else some (p0, p1)
  else if p0 ≤ 0 ∨ p1 ≥ 0 then none
  else
    (llamaKvarnPlanRemoveRange (k.metadata.seqPosMax seqId.toNat) p0 p1 KVAR_N_GROUP
      (k.streamIsExclusiveFor seqId)).filter fun q => k.metadata.canSeqRm seqId q.1 q.2

/-- `get_seq_rm_capability().suffix_rollback_tokens`. -/
def suffixRollbackTokens (k : KvarnCache) : Nat :=
  min k.metadata.suffixRollbackTokens KVAR_N_GROUP

/-- `seq_rm`. -/
def seqRm (k : KvarnCache) (seqId p0 p1 : Int) : KOut Bool :=
  andThen k.applyPendingStreamCopies fun k _ =>
    if !k.canSeqRm seqId p0 p1 then (k, .ok false)
    else
      andThen (k.onMetadata (k.metadata.seqRm seqId p0 p1)) fun k removed =>
        if !removed then (k, .ok false)
        else
          let o := if seqId < 0 then k.clearTailStorage (-1)
            else if k.metadata.seqPosMax seqId.toNat < 0 then k.clearTailStorage seqId
            else (k, .ok ())
          andThen o fun k _ => (k, .ok true)

/-- `seq_rm_cell`. -/
def seqRmCell (k : KvarnCache) (s cellIdx : Nat) : KOut Unit :=
  andThen k.applyPendingStreamCopies fun k _ =>
    let posMax := k.metadata.seqPosMax s
    let earliestExact := max 0 (posMax / KVAR_N_GROUP - 1) * KVAR_N_GROUP
    if !k.swa ∧ 0 ≤ posMax ∧ cellIdx < earliestExact then (k, .ok ())
    else k.onMetadata (k.metadata.seqRmCell s cellIdx)

/-- `seq_cp`: the metadata cache copies the cells, the copies of the rows are queued here. -/
def seqCp (k : KvarnCache) (src dst : Nat) (p0 p1 : Int) : KOut Unit :=
  andThen k.applyPendingStreamCopies fun k _ =>
    let x := k.metadata.cfg.seqToStream src
    let y := k.metadata.cfg.seqToStream dst
    if x ≠ y ∧ !k.metadata.isFullRange p0 p1 then (k, .error .abort)
    else
      let p := k.pendingStreamCopies
      let k := { k with pendingStreamCopies :=
        if x ≠ y then { p with ssrc := p.ssrc ++ [x], sdst := p.sdst ++ [y] } else p }
      andThen (k.onMetadata (k.metadata.seqCp src dst p0 p1)) fun k _ =>
        let r := k.metadata.takePendingTailCopies
        let p := k.pendingStreamCopies
        ({ k with
            metadata := r.1
            pendingStreamCopies := { p with
              tailSrcSlots := p.tailSrcSlots ++ r.2.tailSrcSlots
              tailDstSlots := p.tailDstSlots ++ r.2.tailDstSlots
              tailTransaction := p.tailTransaction || r.2.tailTransaction } }, .ok ())

/-- `seq_keep`. -/
def seqKeep (k : KvarnCache) (s : Nat) : KOut Unit :=
  andThen k.applyPendingStreamCopies fun k _ => k.onMetadata (k.metadata.seqKeep s)

/-- The sequences that have a token at position `0`, each one once. -/
def startedSeqs (u : Ubatch) : List Nat :=
  ((u.tokens.filter fun t => t.pos == 0).flatMap (·.seqIds)).eraseDups

/-- `llama_kv_cache_kvarn_context::apply` of a ubatch: a sequence that starts again loses its tail
before the ubatch is placed. -/
def apply (k : KvarnCache) (i : SlotInfo) (u : Ubatch) : KOut Unit :=
  let o := (startedSeqs u).foldl
    (fun o (s : Nat) => andThen o fun k _ => k.clearTailStorage s) (k, .ok ())
  andThen o fun k _ => k.onMetadata (k.metadata.applyUbatch i u)

/-- `llama_kv_cache_kvarn_context::apply` of an update. -/
def update (k : KvarnCache) : KOut Unit :=
  andThen (k.onMetadata k.metadata.update) fun k _ => k.applyPendingStreamCopies

end KvarnCache
end BeeLlama
