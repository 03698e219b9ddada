import BeeLlama.Kv.TailSeq

/-!
# The exact tail store (`llama_kv_tail_store`)

`TailStore` keeps a `SeqTail` for each sequence, at most one pending sequence copy
(`prepare_seq_cp` ... `commit_seq_cp`), and in the compact store the transaction of the present
batch (`begin_batch` ... `finish_batch`).

A loop over the sequences is `forSeqs`: it stops at the first sequence that throws. An operation
that can throw returns the store that it leaves together with its result (`Out`).
-/

namespace BeeLlama

/-- `LLAMA_KV_TAIL_DEGRADED_BODY_ONLY_STATE`. -/
def LLAMA_KV_TAIL_DEGRADED_BODY_ONLY_STATE : Nat := 1
/-- `LLAMA_KV_TAIL_DEGRADED_HISTORICAL_OP`. -/
def LLAMA_KV_TAIL_DEGRADED_HISTORICAL_OP : Nat := 2
/-- `LLAMA_KV_TAIL_DEGRADED_STATE_RESTORE`. -/
def LLAMA_KV_TAIL_DEGRADED_STATE_RESTORE : Nat := 4
/-- `LLAMA_KV_TAIL_DEGRADED_PAYLOAD_INVALID`. -/
def LLAMA_KV_TAIL_DEGRADED_PAYLOAD_INVALID : Nat := 8

/-- `llama_kv_tail_slot_copy`. -/
structure TailSlotCopy where
  srcSlot : Int
  dstSlot : Int
  deriving DecidableEq, Repr

/-- `pending_seq_cp_state`. -/
structure PendingCp where
  src : Nat
  dst : Nat
  destination : List TailEntry := []
  copies : List TailSlotCopy := []
  acquiredSlots : List Int := []
  degradationFlags : Nat := 0
  recoveryCommits : Nat := 0

/-- `batch_transaction_state`. -/
structure TailBatch where
  /-- The saved entries, used slots, cursor, flags and counter of each sequence. -/
  saved : Nat → SeqState
  /-- The rows of the current batch. -/
  current : Nat → List TailEntry := fun _ => []
  affected : Nat → Bool := fun _ => false

/-- `llama_kv_tail_store`. -/
structure TailStore where
  cfg : TailCfg
  seqs : Nat → SeqTail := fun _ => {}
  pendingSeqCp : Option PendingCp := none
  batchTransaction : Option TailBatch := none
  inBatch : Bool := false

/-- The store that a call leaves and what it returns or throws. -/
abbrev Out (α : Type) := TailStore × Except TailError α

namespace TailStore

/-! ## Construction -/

/-- `checked_tail_slot_count`. -/
def checkedTailSlotCount (arenaStride nSeqMax sinkSlots : Nat) : Except TailError Nat :=
  let total := arenaStride * nSeqMax + sinkSlots
  if total > INT32_MAX then .error .slotCountOverflow else .ok total

/-- `checked_tail_history_limit`. -/
def checkedTailHistoryLimit (nTokens rollbackTokens : Nat) : Except TailError Nat :=
  let total := nTokens + rollbackTokens
  if total > UINT32_MAX then .error .historyOverflow else .ok total

/-- `llama_kv_tail_store(n_tokens, n_seq_max, arena_stride, sink_slots)`. -/
def create (nTokens nSeqMax arenaStride sinkSlots : Nat) : Except TailError TailStore := do
  let nSlots ← checkedTailSlotCount arenaStride nSeqMax sinkSlots
  if nTokens > 0 ∧ arenaStride < nTokens then throw .arenaTooSmall
  return { cfg := ⟨nTokens, 0, nTokens, arenaStride, nSlots, false, nSeqMax⟩ }

/-- `llama_kv_tail_store(n_tokens, rollback_tokens, n_seq_max, history_stride, sink_slots)`. -/
def createCompact (nTokens rollbackTokens nSeqMax historyStride sinkSlots : Nat) :
    Except TailError TailStore := do
  let historyLimit ← checkedTailHistoryLimit nTokens rollbackTokens
  let nSlots ← checkedTailSlotCount historyStride nSeqMax sinkSlots
  if historyStride < historyLimit then throw .compactArenaTooSmall
  return { cfg := ⟨nTokens, rollbackTokens, historyLimit, historyStride, nSlots, true, nSeqMax⟩ }

/-! ## Access to the sequences -/

/-- `valid_seq(seq_id)`. -/
def validSeq (st : TailStore) (seqId : Int) : Bool := decide (0 ≤ seqId ∧ seqId < st.cfg.nSeqMax)

/-- The store with another tail for sequence `s`. -/
def setSeq (st : TailStore) (s : Nat) (t : SeqTail) : TailStore :=
  { st with seqs := Function.update st.seqs s t }

/-- One sequence is changed by an operation that can throw. -/
def onSeq {α : Type} (st : TailStore) (s : Nat) (r : SeqTail × Except TailError α) : Out α :=
  (st.setSeq s r.1, r.2)

/-- A loop over sequences that stops at the first one that throws. -/
def forList (f : Nat → SeqTail → SeqTail × Except TailError Unit) :
    List Nat → TailStore → Out Unit
  | [], st => (st, .ok ())
  | s :: l, st =>
    match f s (st.seqs s) with
    | (t, .error e) => (st.setSeq s t, .error e)
    | (t, .ok ()) => forList f l (st.setSeq s t)

/-- The loop over all sequences. -/
def forSeqs (st : TailStore) (f : Nat → SeqTail → SeqTail × Except TailError Unit) : Out Unit :=
  forList f (List.range st.cfg.nSeqMax) st

/-- A loop over all sequences that does not throw. -/
def mapSeqs (st : TailStore) (f : Nat → SeqTail → SeqTail) : TailStore :=
  { st with seqs := fun s => if s < st.cfg.nSeqMax then f s (st.seqs s) else st.seqs s }

/-! ## Sequence copies -/

/-- `retained_candidate`. -/
structure Candidate where
  entry : TailEntry
  srcSlot : Int
  copied : Bool
  deriving DecidableEq, Repr

/-- The candidates of a copy: the entries of the destination outside the range, then the copied
entries of the source, sorted. -/
def candidates (src dst : List TailNode) (srcStream dstStream : Nat) (p0 p1 : Int) :
    List Candidate :=
  let kept := (dst.filter fun n => decide (¬ n.toTailEntry.InRange p0 p1)).map fun n =>
    (⟨n.toTailEntry, n.slot, false⟩ : Candidate)
  let source := src.filter fun n =>
    decide (n.identity.stream = srcStream ∧ n.toTailEntry.InRange p0 p1)
  let copied := source.map fun n =>
    (⟨{ n.toTailEntry with
        identity := { n.identity with stream := dstStream }
        slot := LLAMA_KV_TAIL_BODY_SLOT }, n.slot, true⟩ : Candidate)
  (kept ++ copied).insertionSort fun a b => a.entry.Le b.entry

/-- What the loop of `prepare_seq_cp` has collected. -/
structure Assigned where
  destination : List TailEntry := []
  copies : List TailSlotCopy := []
  acquired : List Int := []

/-- `retained.entry.slot = slot; result.push_back(...); pending.destination.push_back(...)`. -/
def Assigned.copy (a : Assigned) (c : Candidate) (slot : Int) : Assigned :=
  { a with
    destination := a.destination ++ [{ c.entry with slot := slot }]
    copies := a.copies ++ [⟨c.srcSlot, slot⟩] }

/-- The loop of `prepare_seq_cp`: a copied entry takes the last reusable slot, or a free one. If
there is none, the slots acquired so far are released. -/
def assignSlots (cfg : TailCfg) (dst : Nat) :
    List Candidate → List Int → Assigned → SeqTail → SeqTail × Except TailError Assigned
  | [], _, a, t => (t, .ok a)
  | c :: cs, reusable, a, t =>
    if c.copied then
      match reusable.getLast? with
      | some slot => assignSlots cfg dst cs reusable.dropLast (a.copy c slot) t
      | none =>
        match t.acquire cfg dst with
        | (t, .ok slot) =>
          assignSlots cfg dst cs reusable { a.copy c slot with acquired := a.acquired ++ [slot] } t
        | (t, .error e) => (t.releaseAll cfg dst a.acquired, .error e)
    else assignSlots cfg dst cs reusable { a with destination := a.destination ++ [c.entry] } t

/-- The retained candidates and the slots of the destination that they leave free. -/
def retainedCandidates (st : TailStore) (src dst srcStream dstStream : Nat) (p0 p1 : Int) :
    List Candidate × List Int :=
  let cs := candidates (st.seqs src).entries (st.seqs dst).entries srcStream dstStream p0 p1
  let kept := cs.drop (cs.length - st.cfg.limit)
  let survivors := (kept.filter fun c => !c.copied).map fun c => c.entry.slot
  (kept, ((st.seqs dst).entries.map (·.slot)).filter fun x => decide (x ∉ survivors))

/-- `prepare_seq_cp`. -/
def prepareSeqCp (st : TailStore) (src dst : Int) (srcStream dstStream : Nat) (p0 p1 : Int) :
    Out (List TailSlotCopy) :=
  if !st.validSeq src || !st.validSeq dst || src == dst then (st, .ok [])
  else if st.pendingSeqCp.isSome then (st, .error .copyPending)
  else
    let s := src.toNat
    let d := dst.toNat
    let r := st.retainedCandidates s d srcStream dstStream p0 p1
    match assignSlots st.cfg d r.1 r.2 {} (st.seqs d) with
    | (t, .error e) => (st.setSeq d t, .error e)
    | (t, .ok a) =>
      let flags := (st.seqs d).degradation ||| (st.seqs s).degradation
      ({ st.setSeq d t with
          pendingSeqCp := some
            { src := s
              dst := d
              destination := a.destination
              copies := a.copies
              acquiredSlots := a.acquired
              degradationFlags := flags
              recoveryCommits :=
                if flags = 0 then min (st.seqs d).recovery (st.seqs s).recovery else 0 } },
        .ok a.copies)

/-- The destination takes the entries of the pending copy; the slots that they do not retain are
released. -/
def installCp (cfg : TailCfg) (p : PendingCp) (t : SeqTail) : SeqTail :=
  let slots := p.destination.map (·.slot)
  let t := t.releaseAll cfg p.dst ((t.entries.map (·.slot)).filter fun x => decide (x ∉ slots))
  { t with entries := TailNode.ofEntries p.destination }

/-- `commit_seq_cp`. -/
def commitSeqCp (st : TailStore) : Out Unit :=
  match st.pendingSeqCp with
  | none => (st, .ok ())
  | some p =>
    let st := { st with pendingSeqCp := none }
    match (installCp st.cfg p (st.seqs p.dst)).rebuildIndex with
    | (t, .error e) => (st.setSeq p.dst t, .error e)
    | (t, .ok ()) =>
      (st.setSeq p.dst { t with degradation := p.degradationFlags, recovery := p.recoveryCommits },
        .ok ())

/-- `cancel_seq_cp`. -/
def cancelSeqCp (st : TailStore) : TailStore :=
  match st.pendingSeqCp with
  | none => st
  | some p =>
    { st.setSeq p.dst ((st.seqs p.dst).releaseAll st.cfg p.dst p.acquiredSlots) with
      pendingSeqCp := none }

/-- `pending_seq_cp_destination`. -/
def pendingSeqCpDestination (st : TailStore) : Int :=
  match st.pendingSeqCp with
  | none => -1
  | some p => p.dst

/-- `seq_cp_remap`. -/
def seqCpRemap (st : TailStore) (src dst : Int) (srcStream dstStream : Nat) (p0 p1 : Int) :
    Out (List TailSlotCopy) :=
  match st.prepareSeqCp src dst srcStream dstStream p0 p1 with
  | (st, .error e) => (st, .error e)
  | (st, .ok copies) =>
    match st.commitSeqCp with
    | (st, .error e) => (st, .error e)
    | (st, .ok ()) => (st, .ok copies)

/-- `seq_cp`. -/
def seqCp (st : TailStore) (src dst : Int) (p0 p1 : Int) : Out Unit :=
  if !st.validSeq src || !st.validSeq dst || src == dst then (st, .ok ())
  else
    let stream := ((st.seqs src.toNat).entries.head?.map (·.identity.stream)).getD 0
    match st.seqCpRemap src dst stream stream p0 p1 with
    | (st, .error e) => (st, .error e)
    | (st, .ok _) => (st, .ok ())

/-! ## Batches -/

/-- `clear`: also drops the pending copy and the transaction. -/
def clear (st : TailStore) : TailStore :=
  { cfg := st.cfg, seqs := fun s => if s < st.cfg.nSeqMax then {} else st.seqs s }

/-- `begin_batch`. -/
def beginBatch (st : TailStore) : Out Unit :=
  if st.cfg.compactStorage && st.batchTransaction.isSome then (st, .error .batchPending)
  else
    let batch := if st.cfg.compactStorage then
        some { saved := fun s => (st.seqs s).toSeqState : TailBatch }
      else st.batchTransaction
    let st := st.mapSeqs fun s t => t.trim st.cfg s st.cfg.limit
    ({ st with batchTransaction := batch, inBatch := true }, .ok ())

/-- One iteration of the rollback in `finish_batch`. -/
def rollbackSeq (cfg : TailCfg) (b : TailBatch) (payloadMayBeModified : Bool) (s : Nat)
    (t : SeqTail) : SeqTail × Except TailError Unit :=
  match t.rebuildIndex with
  | (t, .error e) => (t, .error e)
  | (t, .ok ()) =>
    if !payloadMayBeModified || !b.affected s then (t, .ok ())
    else ((t.dropAll cfg s).degrade LLAMA_KV_TAIL_DEGRADED_PAYLOAD_INVALID, .ok ())

/-- `finish_batch`. -/
def finishBatch (st : TailStore) (success payloadMayBeModified : Bool) : Out Unit :=
  if !st.cfg.compactStorage then ({ st with inBatch := false }, .ok ())
  else
    match st.batchTransaction with
    | none => (st, .ok ())
    | some b =>
      let done := fun st : TailStore => { st with batchTransaction := none, inBatch := false }
      if success then (done st, .ok ())
      else
        let back := st.mapSeqs fun s t => t.load (b.saved s)
        match back.forSeqs (rollbackSeq st.cfg b payloadMayBeModified) with
        | (st, .error e) => (st, .error e)
        | (st, .ok ()) => (done st, .ok ())

/-- The last part of `commit`: the row of the batch that the entry comes from. -/
def noteCurrent (st : TailStore) (s : Nat) (e : TailEntry) (currentRow : Nat) : Out Int :=
  match st.batchTransaction with
  | none => (st, .ok e.slot)
  | some b =>
    if currentRow ≠ UINT32_MAX ∧ e.slot ≥ 0 then
      if st.cfg.nSlots + currentRow > INT32_MAX then (st, .error .currentSourceOverflow)
      else
        let row := { e with slot := (st.cfg.nSlots + currentRow : Nat) }
        ({ st with
            batchTransaction := some
              { b with
                current := Function.update b.current s (b.current s ++ [row])
                affected := Function.update b.affected s true } }, .ok e.slot)
    else (st, .ok e.slot)

/-- `commit`. -/
def commit (st : TailStore) (seqId : Int) (identity : TailIdentity) (position : Int)
    (ordinal : Nat) (currentRow : Nat) : Out Int :=
  if !st.validSeq seqId || st.cfg.nTokens == 0 then (st, .ok LLAMA_KV_TAIL_BODY_SLOT)
  else
    let s := seqId.toNat
    match (st.seqs s).commit st.cfg s st.inBatch identity position ordinal with
    | (t, .error e) => (st.setSeq s t, .error e)
    | (t, .ok ()) =>
      (st.setSeq s t).noteCurrent s ⟨identity, position, ordinal, t.retained identity⟩ currentRow

/-- `recycle`. -/
def recycle (st : TailStore) (stream cell nextGeneration : Nat) : TailStore :=
  { st.mapSeqs fun s t => (t.recycle st.cfg s stream cell nextGeneration).1 with
    batchTransaction := st.batchTransaction.map fun b =>
      { b with
        affected := fun s => b.affected s || (decide (s < st.cfg.nSeqMax) &&
          ((st.seqs s).recycle st.cfg s stream cell nextGeneration).2) } }

/-! ## Sequence operations -/

/-- `mark_degraded`. -/
def markDegraded (st : TailStore) (seqId : Int) (flags : Nat) : TailStore :=
  let pending := st.pendingSeqCp.map fun p =>
    { p with degradationFlags := p.degradationFlags ||| flags, recoveryCommits := 0 }
  if seqId < 0 then
    { st.mapSeqs fun _ t => t.degrade flags with pendingSeqCp := pending }
  else if st.validSeq seqId then
    if st.pendingSeqCp.any fun p => decide ((p.dst : Int) = seqId) then
      { st with pendingSeqCp := pending }
    else st.setSeq seqId.toNat ((st.seqs seqId.toNat).degrade flags)
  else st

/-- `invalidate_slots`. -/
def invalidateSlots (st : TailStore) (slots : List Int) (flags : Nat) : Out Unit :=
  st.forSeqs fun s t => t.invalidateSlots st.cfg s slots flags

/-- `seq_rm`. -/
def seqRm (st : TailStore) (seqId p0 p1 : Int) : Out Unit :=
  if st.validSeq seqId then
    st.onSeq seqId.toNat ((st.seqs seqId.toNat).seqRm st.cfg seqId.toNat p0 p1)
  else (st, .ok ())

/-- `seq_rm_cell`. -/
def seqRmCell (st : TailStore) (seqId : Int) (stream cell : Nat) : Out Unit :=
  if st.validSeq seqId then
    st.onSeq seqId.toNat ((st.seqs seqId.toNat).seqRmCell st.cfg seqId.toNat stream cell)
  else (st, .ok ())

/-- `seq_keep`. -/
def seqKeep (st : TailStore) (seqId : Int) : Out Unit :=
  st.forSeqs fun s t => if (s : Int) = seqId then (t, .ok ()) else t.seqRm st.cfg s 0 (-1)

/-- `seq_add`. -/
def seqAdd (st : TailStore) (seqId p0 p1 shift : Int) : Out Unit :=
  if st.validSeq seqId then
    let ids := (st.seqs seqId.toNat).identitiesIn p0 p1
    let degraded := decide (shift ≠ 0 ∧ ¬ (p0 ≤ 0 ∧ p1 < 0))
    st.forSeqs fun s t => t.seqAdd st.cfg s ids shift degraded
  else (st, .ok ())

/-- `seq_div`. -/
def seqDiv (st : TailStore) (seqId p0 p1 divisor : Int) : Out Unit :=
  if st.validSeq seqId && divisor != 0 then
    let ids := (st.seqs seqId.toNat).identitiesIn p0 p1
    let degraded := decide (divisor ≠ 1 ∧ ¬ (p0 ≤ 0 ∧ p1 < 0))
    st.forSeqs fun s t => t.seqDiv st.cfg s ids divisor degraded
  else (st, .ok ())

/-! ## Restore and clone -/

/-- `restore`. -/
def restore (st : TailStore) (seqId : Int) (identity : TailIdentity) (position : Int)
    (ordinal localSlot : Nat) : Out Int :=
  if !st.validSeq seqId || decide (localSlot ≥ st.cfg.arenaStride) || st.inBatch ||
      st.pendingSeqCp.isSome || st.batchTransaction.isSome then (st, .error .badRestore)
  else
    st.onSeq seqId.toNat
      ((st.seqs seqId.toNat).restore st.cfg seqId.toNat identity position ordinal localSlot)

/-- `restore_write_cursor`. -/
def restoreWriteCursor (st : TailStore) (seqId : Int) (cursor : Nat) : Out Unit :=
  if !st.validSeq seqId || decide (cursor ≥ st.cfg.arenaStride) || st.inBatch ||
      st.pendingSeqCp.isSome || st.batchTransaction.isSome then (st, .error .badCursor)
  else (st.setSeq seqId.toNat { st.seqs seqId.toNat with cursor := cursor }, .ok ())

/-- `reset_write_cursor`: refused during a transaction, but not by `in_batch`. -/
def resetWriteCursor (st : TailStore) (seqId : Int) : Out Unit :=
  if !st.validSeq seqId || st.pendingSeqCp.isSome || st.batchTransaction.isSome then (st, .ok ())
  else
    match st.seqRm seqId (-1) (-1) with
    | (st, .error e) => (st, .error e)
    | (st, .ok ()) =>
      (st.setSeq seqId.toNat { st.seqs seqId.toNat with cursor := 0 }, .ok ())

/-- `llama_kv_tail_provenance`. -/
structure Provenance where
  seqId : Int
  degradationFlags : Nat
  recoveryCommits : Nat
  deriving DecidableEq, Repr

/-- The assignments of `clone_logical_state_from`: the sequences of `source`, no transaction. -/
def copyFrom (st source : TailStore) : TailStore :=
  { cfg := st.cfg
    seqs := fun s =>
      if s < st.cfg.nSeqMax then (st.seqs s).load (source.seqs s).toSeqState else st.seqs s }

/-- `clone_logical_state_from`. -/
def cloneLogicalStateFrom (st source : TailStore) : Out Unit :=
  if st.cfg ≠ source.cfg then (st, .error .cloneIncompatible)
  else if source.inBatch || source.pendingSeqCp.isSome || source.batchTransaction.isSome then
    (st, .error .cloneInTransaction)
  else (st.copyFrom source).forSeqs fun _ t => t.rebuildIndex

end TailStore
end BeeLlama
