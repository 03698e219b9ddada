import BeeLlama.Kv.Cells
import BeeLlama.Kv.Tail

/-!
# The KV cache (`llama_kv_cache`)

`KvCache` keeps the cells of each stream, the head of each stream, the exact tail, the generation
of each cell, and for a structured cache (`allocation_group_size > 1`) an allocation head for each
sequence and the sealed groups. This module has the sequence operations; the search for cells is
in `BeeLlama/Kv/FindSlot.lean` and the placement of a ubatch in `BeeLlama/Kv/Ubatch.lean`.

A vector over streams, cells or sequences is a function of the index, which the code accesses in
range only. The content of a K/V row over all layers is one number, `0` for a zeroed row. A cache
that shares the cells of another one (`other`) returns at once from every function here; it is not
modelled. `GGML_ASSERT` is the error `abort`, `assert` is not executed.
-/

namespace BeeLlama

/-- `llama_swa_type`. -/
inductive SwaType where
  | none
  | standard
  | chunked
  | symmetric
  deriving DecidableEq, Repr

/-- `llama_hparams::is_masked_swa`, for positions that are not negative. -/
def isMaskedSwa (nSwa : Nat) (swaType : SwaType) (p0 p1 : Int) : Bool :=
  match swaType with
  | .none => false
  | .standard => decide (p1 - p0 ≥ nSwa)
  | .chunked => decide (p0 < (p1.toNat / nSwa * nSwa : Nat))
  | .symmetric => decide (p1 - p0 < -((nSwa / 2 : Nat) : Int) ∨ p1 - p0 > (nSwa / 2 : Nat))

/-- What the cache throws, and `abort` for a failed `GGML_ASSERT`. -/
inductive KvError where
  | tail (e : TailError)
  | noOwner
  | invalidOwner
  | stageAlias
  | abort
  deriving DecidableEq, Repr

/-- The text of the exceptions of the search for cells. -/
def KvError.what : KvError → String
  | .tail e => e.what
  | .noOwner => "structured KV allocation token has no sequence owner"
  | .invalidOwner => "structured KV allocation token has an invalid sequence owner"
  | .stageAlias => "structured KV live groups alias one F16 stage slot"
  | .abort => ""

/-- The constants of a cache. -/
structure CacheCfg where
  nSeqMax : Nat
  nStream : Nat
  kvSize : Nat
  nSwa : Nat := 0
  swaType : SwaType := .none
  allocationGroupSize : Nat := 1
  allocationStageGroups : Nat := 1
  stateRemapGroupSize : Nat := 1
  tailRollbackTokens : Nat := 0
  tailMetadataOnly : Bool := false
  /-- `tail_plan.has_owned_body || tail_plan.has_shared_body`. -/
  tailHasBody : Bool := true
  deriving DecidableEq, Repr

/-- The cache is structured and unified: it allocates whole groups. -/
def CacheCfg.structured (cfg : CacheCfg) : Bool :=
  decide (cfg.allocationGroupSize > 1 ∧ cfg.nStream = 1)

/-- `cells.size()/allocation_group_size`. -/
def CacheCfg.nGroups (cfg : CacheCfg) : Nat := cfg.kvSize / cfg.allocationGroupSize

/-- The F16 stage slot of a group. -/
def CacheCfg.stageSlot (cfg : CacheCfg) (group : Nat) : Nat :=
  if group = 0 then 0 else 1 + (group - 1) % cfg.allocationStageGroups

/-- `seq_to_stream[seq_id]`: all sequences in stream `0`, or a stream for each sequence. -/
def CacheCfg.seqToStream (cfg : CacheCfg) (s : Nat) : Nat := if cfg.nStream > 1 then s else 0

/-- `seq_to_stream.size()`. -/
def CacheCfg.seqToStreamSize (cfg : CacheCfg) : Nat :=
  if cfg.nStream > 1 then cfg.nStream else LLAMA_MAX_SEQ

/-- `stream_copy_info`. -/
structure StreamCopyInfo where
  ssrc : List Nat := []
  sdst : List Nat := []
  tailSrcSlots : List Int := []
  tailDstSlots : List Int := []
  tailTransaction : Bool := false
  deriving DecidableEq, Repr

/-- `stream_copy_info::empty`. -/
def StreamCopyInfo.isEmpty (i : StreamCopyInfo) : Bool :=
  i.ssrc.isEmpty && i.tailSrcSlots.isEmpty && !i.tailTransaction

/-- The content of the K/V rows: of the body by stream and cell, of the tail by slot. -/
structure KvRows where
  body : Nat → Nat → Nat := fun _ _ => 0
  tail : Int → Nat := fun _ => 0

/-- `llama_kv_cache`. -/
structure KvCache where
  cfg : CacheCfg
  /-- `v_cells`, by stream. -/
  cells : Nat → KvCells
  /-- `v_heads`, by stream. -/
  heads : Nat → Nat := fun _ => 0
  /-- `allocation_seq_heads`, by sequence. -/
  allocationSeqHeads : Nat → Nat := fun _ => 0
  /-- `allocation_group_sealed`, by group. -/
  allocationGroupSealed : List Bool := []
  tail : Option TailStore := none
  /-- `tail_generations`, by stream and cell. -/
  tailGenerations : Nat → Nat → Nat := fun _ _ => 0
  /-- `tail_generations_before_batch`, if it is not empty. -/
  tailGenerationsBeforeBatch : Option (Nat → Nat → Nat) := none
  tailOrdinal : Nat := 0
  tailPreparing : Bool := false
  scInfo : StreamCopyInfo := {}
  rows : KvRows := {}

/-- The cache that a call leaves and what it returns or throws. -/
abbrev COut (α : Type) := KvCache × Except KvError α

namespace KvCache

/-- The constructor, with the tail store that `finalize_tail_overlay_metadata` creates. -/
def create (cfg : CacheCfg) (tail : Option TailStore) : KvCache :=
  { cfg := cfg, cells := fun _ => KvCells.empty.resize cfg.kvSize, tail := tail }

/-- `has_compact_tail`. -/
def hasCompactTail (st : KvCache) : Bool := st.tail.any fun t => t.cfg.compactStorage

/-- The cache with other cells for stream `x`. -/
def setCells (st : KvCache) (x : Nat) (c : KvCells) : KvCache :=
  { st with cells := Function.update st.cells x c }

/-- The cache with another head for stream `x`. -/
def setHead (st : KvCache) (x head : Nat) : KvCache :=
  { st with heads := Function.update st.heads x head }

/-- A call of the tail store, if there is one. -/
def onTail {α : Type} (st : KvCache) (f : TailStore → TailStore × Except TailError α) :
    COut Unit :=
  match st.tail with
  | none => (st, .ok ())
  | some t =>
    match f t with
    | (t, .error e) => ({ st with tail := some t }, .error (.tail e))
    | (t, .ok _) => ({ st with tail := some t }, .ok ())

/-- Go on if the call returned. -/
def andThen {α β : Type} (o : COut α) (f : KvCache → α → COut β) : COut β :=
  match o with
  | (st, .error e) => (st, .error e)
  | (st, .ok a) => f st a

/-! ## Allocation heads and sealed groups -/

/-- The cell of sequence `s` with the greatest position, the first one of equals. -/
def newestCell (c : KvCells) (s : Nat) : Option Nat :=
  ((List.range c.size).foldl
    (fun (a : Int × Option Nat) i =>
      if c.seqHas i s && decide (c.pos i > a.1) then (c.pos i, some i) else a) (-1, none)).2

/-- `rebuild_allocation_head`: after the newest cell of the sequence, `0` if it has none. -/
def rebuildAllocationHead (st : KvCache) (s : Nat) : KvCache :=
  if s < st.cfg.nSeqMax ∧ st.cfg.structured = true then
    { st with
      allocationSeqHeads := Function.update st.allocationSeqHeads s
        (((newestCell (st.cells 0) s).map (· + 1)).getD 0) }
  else st

/-- `rebuild_allocation_head` for every sequence. -/
def rebuildAllocationHeads (st : KvCache) : KvCache :=
  (List.range st.cfg.nSeqMax).foldl (fun st s => st.rebuildAllocationHead s) st

/-- The allocation head points into the interior of the group. -/
def headInGroup (cfg : CacheCfg) (head group : Nat) : Bool :=
  decide (head ≠ 0 ∧ head % cfg.allocationGroupSize ≠ 0 ∧
    (head - 1) / cfg.allocationGroupSize = group)

/-- `allocation_cell_uses_stage`. -/
def allocationCellUsesStage (st : KvCache) (cell : Nat) : Bool :=
  if st.cfg.structured = true ∧ cell < st.cfg.kvSize then
    let group := cell / st.cfg.allocationGroupSize
    decide (group = 0) ||
      (List.range st.cfg.nSeqMax).any fun s => headInGroup st.cfg (st.allocationSeqHeads s) group
  else false

/-- The cells of a group. -/
def groupCells (cfg : CacheCfg) (group : Nat) : List Nat :=
  (List.range cfg.allocationGroupSize).map (group * cfg.allocationGroupSize + ·)

/-- How many cells of a group are occupied. -/
def groupUsed (cfg : CacheCfg) (c : KvCells) (group : Nat) : Nat :=
  (groupCells cfg group).countP fun i => !c.isEmpty i

/-- `rebuild_allocation_group_sealed`. -/
def rebuildAllocationGroupSealed (st : KvCache) : KvCache :=
  if st.cfg.structured then
    { st with
      allocationGroupSealed := (List.range st.cfg.nGroups).map fun group =>
        let used := groupUsed st.cfg (st.cells 0) group
        if group = 0 ∨ used = 0 then false
        else if used ≥ st.cfg.allocationGroupSize then true
        else !st.allocationCellUsesStage (group * st.cfg.allocationGroupSize) }
  else st

/-! ## Sweeps over the cells of a stream -/

/-- A loop over the cells. The number is the first cell that became free, `size` if none did. -/
def sweep (f : KvCells → Nat → KvCells × Bool) (c : KvCells) : KvCells × Nat :=
  (List.range c.size).foldl
    (fun (a : KvCells × Nat) i =>
      let r := f a.1 i
      (r.1, if r.2 && a.2 == c.size then i else a.2)) (c, c.size)

/-- A loop over the cells of stream `x`; a cell that became free moves the head back to it. -/
def sweepStream (st : KvCache) (x : Nat) (f : KvCells → Nat → KvCells × Bool) : KvCache :=
  let r := sweep f (st.cells x)
  (st.setCells x r.1).setHead x
    (if r.2 ≠ (st.cells x).size ∧ r.2 < st.heads x then r.2 else st.heads x)

/-- The lower end of a range of positions. -/
def rangeBegin (p0 : Int) : Int := if p0 < 0 then 0 else p0

/-- The upper end of a range of positions: `std::numeric_limits<llama_pos>::max()` for `p1 < 0`. -/
def rangeEnd (p1 : Int) : Int := if p1 < 0 then INT32_MAX else p1

/-- The body of the loop of `seq_rm` for one sequence. -/
def rmCell (s : Nat) (p0 p1 : Int) (c : KvCells) (i : Nat) : KvCells × Bool :=
  if c.posIn i p0 p1 && c.seqHas i s then c.seqRm i s else (c, false)

/-- The body of the loop of `seq_rm` for any sequence. -/
def rmAnyCell (p0 p1 : Int) (c : KvCells) (i : Nat) : KvCells × Bool :=
  if c.posIn i p0 p1 then (c.rm i, true) else (c, false)

/-- The body of the loop of `seq_cp` in one stream. -/
def cpCell (src dst : Nat) (p0 p1 : Int) (c : KvCells) (i : Nat) : KvCells × Bool :=
  if c.posIn i p0 p1 && c.seqHas i src then (c.seqAdd i dst, false) else (c, false)

/-- The body of the loop of `seq_add`. -/
def addCell (s : Nat) (p0 p1 shift : Int) (c : KvCells) (i : Nat) : KvCells × Bool :=
  if c.posIn i p0 p1 && c.seqHas i s then c.posAdd i shift else (c, false)

/-- The body of the loop of `seq_div`. -/
def divCell (s : Nat) (p0 p1 d : Int) (c : KvCells) (i : Nat) : KvCells × Bool :=
  if c.posIn i p0 p1 && c.seqHas i s then (c.posDiv i d, false) else (c, false)

/-! ## The tail beside the cells -/

/-- `tail->coverage(seq_id, available)`: less is exact than requested. -/
def incomplete (t : TailStore) (s available : Nat) : Bool :=
  let exact :=
    if t.validSeq s then
      match t.pendingSeqCp with
      | some p => if p.dst = s then p.destination.length else (t.seqs s).entries.length
      | none => (t.seqs s).entries.length
    else 0
  let requested := min t.cfg.nTokens available
  decide (min exact requested < requested)

/-- `mark_if_incomplete`. -/
def markIfIncomplete (st : KvCache) (s : Nat) : KvCache :=
  match st.tail with
  | none => st
  | some t =>
    if incomplete t s ((st.cells (st.cfg.seqToStream s)).seqSize s) then
      { st with tail := some (t.markDegraded s LLAMA_KV_TAIL_DEGRADED_HISTORICAL_OP) }
    else st

/-- The row copies of `materialize_pending_copies`. -/
def copyRows (i : StreamCopyInfo) (r : KvRows) : KvRows :=
  { body := (i.ssrc.zip i.sdst).foldl (fun b p => Function.update b p.2 (b p.1)) r.body
    tail := (i.tailSrcSlots.zip i.tailDstSlots).foldl
      (fun b p => Function.update b p.2 (b p.1)) r.tail }

/-- `materialize_pending_copies`. -/
def materializePendingCopies (st : KvCache) : COut Unit :=
  if st.scInfo.isEmpty then (st, .ok ())
  else
    let st := { st with rows := copyRows st.scInfo st.rows }
    let o := if st.scInfo.tailTransaction then st.onTail fun t => t.commitSeqCp else (st, .ok ())
    andThen o fun st _ => ({ st with scInfo := {} }, .ok ())

/-! ## Sequence operations -/

/-- `can_seq_rm`. -/
def canSeqRm (st : KvCache) (seqId p0 p1 : Int) : Bool :=
  if !st.hasCompactTail then true
  else if seqId < 0 ∨ st.cfg.seqToStreamSize ≤ seqId.toNat then decide (p0 ≤ 0 ∧ p1 < 0)
  else if p0 ≤ 0 ∧ p1 < 0 then true
  else if p0 ≤ 0 ∨ p1 ≥ 0 then false
  else if st.cfg.tailMetadataOnly || st.cfg.tailHasBody then true
  else
    let s := seqId.toNat
    let posMax := (st.cells (st.cfg.seqToStream s)).seqPosMax s
    -- `llama_kv_tail_can_remove_suffix`
    decide (posMax < p0) ||
      decide (posMax - (p0 - 1) ≥ 1 ∧ posMax - (p0 - 1) ≤ st.cfg.tailRollbackTokens)

/-- The calls `tail->seq_rm(current, p0, p1)` of `seq_rm`. -/
def tailSeqRm (st : KvCache) (seqs : List Nat) (p0 p1 : Int) : COut Unit :=
  seqs.foldl (fun o s => andThen o fun st _ => st.onTail fun t => t.seqRm s p0 p1) (st, .ok ())

/-- `seq_rm_unchecked(seq_id, p0, p1)` with a sequence. -/
def seqRmUnchecked (st : KvCache) (s : Nat) (p0 p1 : Int) : COut Unit :=
  andThen st.materializePendingCopies fun st _ =>
    if s < st.cfg.seqToStreamSize then
      andThen (st.tailSeqRm [s] p0 p1) fun st _ =>
        let st := st.sweepStream (st.cfg.seqToStream s) (rmCell s (rangeBegin p0) (rangeEnd p1))
        ((st.markIfIncomplete s).rebuildAllocationHead s, .ok ())
    else (st, .error .abort)

/-- `seq_rm_unchecked(-1, p0, p1)`. -/
def seqRmAllUnchecked (st : KvCache) (p0 p1 : Int) : COut Unit :=
  andThen st.materializePendingCopies fun st _ =>
    andThen (st.tailSeqRm (List.range st.cfg.nSeqMax) p0 p1) fun st _ =>
      let st := (List.range st.cfg.nStream).foldl
        (fun st x => st.sweepStream x (rmAnyCell (rangeBegin p0) (rangeEnd p1))) st
      let st := (List.range st.cfg.nSeqMax).foldl (fun st s => st.markIfIncomplete s) st
      (st.rebuildAllocationHeads, .ok ())

/-- `seq_rm`. -/
def seqRm (st : KvCache) (seqId p0 p1 : Int) : COut Bool :=
  if !st.canSeqRm seqId p0 p1 then (st, .ok false)
  else
    let o := if seqId = -1 then st.seqRmAllUnchecked p0 p1
      else if 0 ≤ seqId then st.seqRmUnchecked seqId.toNat p0 p1
      else andThen st.materializePendingCopies fun st _ => (st, .error .abort)
    andThen o fun st _ => (st, .ok true)

/-- `seq_rm_cell`. -/
def seqRmCell (st : KvCache) (s cellIdx : Nat) : COut Unit :=
  if s < st.cfg.seqToStreamSize then
    let x := st.cfg.seqToStream s
    let r := (st.cells x).seqRmCell cellIdx s
    let st := st.setCells x r.1
    if r.2 then
      andThen (st.onTail fun t => t.seqRmCell s x cellIdx) fun st _ =>
        let st := st.markIfIncomplete s
        let st := st.setHead x (if cellIdx < st.heads x then cellIdx else st.heads x)
        (st.rebuildAllocationHead s, .ok ())
    else (st, .ok ())
  else (st, .error .abort)

/-- `queue_tail_copies` of `seq_cp`. -/
def queueTailCopies (st : KvCache) (src dst : Nat) (p0 p1 : Int) : COut Unit :=
  match st.tail with
  | none => (st, .ok ())
  | some t =>
    match t.prepareSeqCp src dst (st.cfg.seqToStream src) (st.cfg.seqToStream dst) p0 p1 with
    | (t, .error e) => ({ st with tail := some t }, .error (.tail e))
    | (t, .ok copies) =>
      ({ st with
          tail := some t
          scInfo := { st.scInfo with
            tailSrcSlots := st.scInfo.tailSrcSlots ++ copies.map (·.srcSlot)
            tailDstSlots := st.scInfo.tailDstSlots ++ copies.map (·.dstSlot)
            tailTransaction := t.pendingSeqCp.isSome } }, .ok ())

/-- The body of the loop of `seq_cp` across streams: cell `i` of `src` goes to cell `i`. -/
def copyCell (source : KvCells) (dst : Nat) (c : KvCells) (i : Nat) : KvCells :=
  let shift := source.shift i
  let c := (c.posSet i (source.pos i - shift)).seqAdd i dst
  let c := if shift ≠ 0 then (c.posAdd i shift).1 else c
  c.extSet i (source.ext i)

/-- The cells of `seq_cp` across streams: those of `src`, in an empty stream. -/
def copyCells (source dest : KvCells) (src dst : Nat) : KvCells :=
  (List.range source.size).foldl
    (fun c i => if source.seqHas i src then copyCell source dst c i else c) dest.reset

/-- `seq_cp` in one stream. -/
def seqCpStream (st : KvCache) (src dst : Nat) (p0 p1 : Int) : COut Unit :=
  andThen (st.queueTailCopies src dst p0 p1) fun st _ =>
    if src = dst then (st, .ok ())
    else
      let x := st.cfg.seqToStream src
      let st := st.setCells x
        (sweep (cpCell src dst (rangeBegin p0) (rangeEnd p1)) (st.cells x)).1
      ((st.markIfIncomplete dst).rebuildAllocationHead dst, .ok ())

/-- The metadata part of `seq_cp` across streams. -/
def copyStream (st : KvCache) (src dst : Nat) : KvCache :=
  let x := st.cfg.seqToStream src
  let y := st.cfg.seqToStream dst
  { st.setCells y (copyCells (st.cells x) (st.cells y) src dst) with
    tailGenerations := Function.update st.tailGenerations y fun i =>
      if (st.cells x).seqHas i src then st.tailGenerations x i else 0
    scInfo := { st.scInfo with
      ssrc := st.scInfo.ssrc ++ [x]
      sdst := st.scInfo.sdst ++ [y] } }

/-- `is_full` of `seq_cp`. -/
def isFullRange (st : KvCache) (p0 p1 : Int) : Bool :=
  decide (¬ (p0 > 0 ∧ p0 + 1 < st.cfg.kvSize) ∧ ¬ (p1 > 0 ∧ p1 + 1 < st.cfg.kvSize))

/-- `seq_cp`. -/
def seqCp (st : KvCache) (src dst : Nat) (p0 p1 : Int) : COut Unit :=
  andThen st.materializePendingCopies fun st _ =>
    if src < st.cfg.seqToStreamSize ∧ dst < st.cfg.seqToStreamSize then
      if st.cfg.seqToStream src = st.cfg.seqToStream dst then st.seqCpStream src dst p0 p1
      else if st.isFullRange p0 p1 then
        andThen ((st.copyStream src dst).queueTailCopies src dst p0 p1) fun st _ =>
          let st := st.markIfIncomplete dst
          let st := st.setHead (st.cfg.seqToStream dst) (st.heads (st.cfg.seqToStream src))
          (st.rebuildAllocationHead dst, .ok ())
      else (st, .error .abort)
    else (st, .error .abort)

/-- `seq_keep`. -/
def seqKeep (st : KvCache) (s : Nat) : COut Unit :=
  andThen st.materializePendingCopies fun st _ =>
    if s < st.cfg.seqToStreamSize then
      andThen (st.onTail fun t => t.seqKeep s) fun st _ =>
        let st := st.sweepStream (st.cfg.seqToStream s) fun c i => c.seqKeep i s
        (st.rebuildAllocationHeads, .ok ())
    else (st, .error .abort)

/-- `tail->mark_degraded(seq_id, HISTORICAL_OP)` of `seq_add` and `seq_div`. -/
def markMoved (st : KvCache) (s : Nat) (moved : Bool) (p0 p1 : Int) : KvCache :=
  if moved && !decide (p0 ≤ 0 ∧ p1 < 0) then
    { st with tail := st.tail.map fun t =>
        t.markDegraded s LLAMA_KV_TAIL_DEGRADED_HISTORICAL_OP }
  else st

/-- `seq_add`; the head starts from the first cell that became free, or from the beginning. -/
def seqAdd (st : KvCache) (s : Nat) (p0 p1 shift : Int) : COut Unit :=
  andThen st.materializePendingCopies fun st _ =>
    if s < st.cfg.seqToStreamSize then
      andThen (st.onTail fun t => t.seqAdd s p0 p1 shift) fun st _ =>
        let st := st.markMoved s (decide (shift ≠ 0)) p0 p1
        if shift = 0 ∨ rangeBegin p0 = rangeEnd p1 then (st, .ok ())
        else
          let x := st.cfg.seqToStream s
          let r := sweep (addCell s (rangeBegin p0) (rangeEnd p1) shift) (st.cells x)
          let st := (st.setCells x r.1).setHead x
            (if r.2 ≠ (st.cells x).size then r.2 else 0)
          (st.rebuildAllocationHead s, .ok ())
    else (st, .error .abort)

/-- `seq_div`. -/
def seqDiv (st : KvCache) (s : Nat) (p0 p1 d : Int) : COut Unit :=
  andThen st.materializePendingCopies fun st _ =>
    if s < st.cfg.seqToStreamSize then
      andThen (st.onTail fun t => t.seqDiv s p0 p1 d) fun st _ =>
        let st := st.markMoved s (decide (d ≠ 1)) p0 p1
        if d = 1 ∨ rangeBegin p0 = rangeEnd p1 then (st, .ok ())
        else
          let x := st.cfg.seqToStream s
          let st := st.setCells x
            (sweep (divCell s (rangeBegin p0) (rangeEnd p1) d) (st.cells x)).1
          (st.rebuildAllocationHead s, .ok ())
    else (st, .error .abort)

/-- `clear(data)`. -/
def clear (st : KvCache) (data : Bool) : KvCache :=
  { cfg := st.cfg
    cells := fun x => if x < st.cfg.nStream then (st.cells x).reset else st.cells x
    heads := fun x => if x < st.cfg.nStream then 0 else st.heads x
    allocationSeqHeads := fun s => if s < st.cfg.nSeqMax then 0 else st.allocationSeqHeads s
    allocationGroupSealed := st.allocationGroupSealed
    tail := st.tail.map (·.clear)
    tailGenerations := if st.tail.isSome then fun _ _ => 0 else st.tailGenerations
    tailGenerationsBeforeBatch := st.tailGenerationsBeforeBatch
    tailOrdinal := if st.tail.isSome then 0 else st.tailOrdinal
    tailPreparing := st.tailPreparing
    rows := if data then {} else st.rows }

/-- `get_has_shift`. -/
def getHasShift (st : KvCache) : Bool :=
  (List.range st.cfg.nStream).any fun x => (st.cells x).hasShift

/-- What a successful `update` does: the pending copies are made, then the shifts are applied. -/
def update (st : KvCache) : COut Unit :=
  andThen st.materializePendingCopies fun st _ =>
    if st.getHasShift then
      ({ st with cells := fun x =>
          if x < st.cfg.nStream then (st.cells x).resetShift else st.cells x }, .ok ())
    else (st, .ok ())

end KvCache
end BeeLlama
