import BeeLlama.Kv.TailSeq
import Mathlib.Data.Finset.Sort

/-!
# The recurrent memory (`src/llama-memory-recurrent.{h,cpp}`)

A cell of `llama_memory_recurrent` holds the state of a whole sequence, or of several sequences
that share it. `tail` of cell `s` is not about that cell: it is the index of the cell that sequence
`s` is in. With `n_rs_seq > 0` the memory keeps snapshots of the last tokens, and `rs_idx[s]` tells
how many tokens sequence `s` was rolled back since.

The fields of `cells[i]` are functions of `i`, accessed below `size`. `llama_pos` is an `Int`: the
code never relies on a wrapped position (a signed overflow is undefined). `used` is a 32-bit
counter that wraps.
-/

namespace BeeLlama

/-- `GGML_ASSERT`s of the recurrent memory. -/
inductive RsAssert where
  /-- `ubatch.equal_seqs()`. -/
  | equalSeqs
  /-- `cell.has_seq_id(seq_id)` for the cell at `seq_meta.tail`. -/
  | tailHasSeqId
  /-- `empty_cell.is_empty()`. -/
  | emptyCell
  /-- `!orig_cell.is_empty()`. -/
  | origCell
  /-- `rs_z >= 0`. -/
  | rsZ
  /-- The checks of the restored cells in `state_read_meta`. -/
  | restored
  deriving DecidableEq, Repr

/-- A sequence set of a ubatch, as `find_slot` reads it: the sequence ids of its first token and
the position of its last one. -/
structure RsSet where
  seqIds : List Int
  lastPos : Int
  deriving DecidableEq, Repr

/-- The first sequence of a set. -/
def RsSet.first (s : RsSet) : Nat := (s.seqIds.headD 0).toNat

/-- What `find_slot` reads of a `llama_ubatch`. -/
structure RsUbatch where
  equalSeqs : Bool := true
  nSeqTokens : Nat := 1
  sets : List RsSet
  deriving DecidableEq, Repr

/-- `llama_memory_recurrent`. -/
structure RecurrentMemory where
  size : Nat
  nSeqMax : Nat
  nRsSeq : Nat
  head : Nat := 0
  used : Nat := 0
  n : Nat := 0
  rsZ : Int := -1
  /-- `rs_idx`, of `n_seq_max` elements. -/
  rsIdx : Nat → Nat := fun _ => 0
  pos : Nat → Int := fun _ => -1
  src : Nat → Int := fun _ => -1
  src0 : Nat → Int := fun _ => -1
  tail : Nat → Int := fun _ => -1
  seqId : Nat → Finset Nat := fun _ => ∅

namespace RecurrentMemory

/-- `used--` on 32 bits. -/
def decUsed (used : Nat) : Nat := (used + UINT32_MAX) % 2 ^ 32

/-- `is_empty()`. -/
def isEmpty (m : RecurrentMemory) (i : Nat) : Bool := decide (m.seqId i = ∅)

/-- `has_seq_id(id)`. -/
def hasSeqId (m : RecurrentMemory) (i : Nat) (id : Int) : Bool :=
  decide (0 ≤ id ∧ id.toNat ∈ m.seqId i)

/-- `p0 < 0` is `0`. -/
def lower (p0 : Int) : Int := if p0 < 0 then 0 else p0

/-- `p1 < 0` is the greatest position. -/
def upper (p1 : Int) : Int := if p1 < 0 then INT32_MAX else p1

/-- `clear`. -/
def clear (m : RecurrentMemory) : RecurrentMemory :=
  { m with
    pos := fun i => if i < m.size then -1 else m.pos i
    src := fun i => if i < m.size then -1 else m.src i
    tail := fun i => if i < m.size then -1 else m.tail i
    seqId := fun i => if i < m.size then ∅ else m.seqId i
    head := 0
    used := 0
    rsIdx := fun _ => 0 }

/-- `set_rs_idx`. -/
def setRsIdx (m : RecurrentMemory) (seqId : Int) (idx : Nat) : RecurrentMemory :=
  if seqId < 0 ∨ seqId.toNat ≥ m.nSeqMax then m
  else { m with rsIdx := Function.update m.rsIdx seqId.toNat (min idx m.nRsSeq) }

/-! ## Positions -/

/-- `seq_pos_min`. -/
def seqPosMin (m : RecurrentMemory) (seqId : Int) : Int :=
  let result := (List.range m.size).foldl
    (fun r i => if m.hasSeqId i seqId then min r (m.pos i) else r) (INT32_MAX : Int)
  if result = INT32_MAX then -1 else result

/-- `seq_pos_max`. -/
def seqPosMax (m : RecurrentMemory) (seqId : Int) : Int :=
  (List.range m.size).foldl (fun r i => if m.hasSeqId i seqId then max r (m.pos i) else r) (-1)

/-! ## Removal -/

/-- `can_seq_rm`. -/
def canSeqRm (m : RecurrentMemory) (seqId p0 p1 : Int) : Bool :=
  let p0 := lower p0
  let p1 := upper p1
  if seqId ≥ m.size then false
  else if seqId < 0 then decide (p0 = p1 ∨ (p0 = 0 ∧ p1 = INT32_MAX))
  else
    let tailId := m.tail seqId.toNat
    if tailId < 0 then true
    else
      let pos := m.pos tailId.toNat
      if 0 < p0 ∧ p0 ≤ pos ∧ p1 > pos then
        let rollback := pos - (p0 - 1)
        decide (rollback ≥ 1 ∧ rollback ≤ m.nRsSeq)
      else true

/-- The loops of `seq_rm` and `seq_keep`: each iteration works on its own cell. The cells with
`gone` become empty, the others keep the sequences that `keep` leaves them. `used` goes down for
each of the cells with `counted`, and `head` goes to the first cell with `gone`. -/
def sweep (m : RecurrentMemory) (keep : Nat → Finset Nat) (gone counted : Nat → Bool) :
    RecurrentMemory :=
  { m with
    seqId := fun i => if i < m.size then keep i else m.seqId i
    pos := fun i => if i < m.size ∧ gone i then -1 else m.pos i
    src := fun i => if i < m.size ∧ gone i then -1 else m.src i
    used := decUsed^[((List.range m.size).filter counted).length] m.used
    head := match (List.range m.size).find? gone with
      | some i => min i m.head
      | none => m.head }

/-- The sequences of cell `i` after `seq_rm`. -/
def keptBy (m : RecurrentMemory) (seqId p0 p1 : Int) (i : Nat) : Finset Nat :=
  if m.pos i ≥ p0 ∧ m.pos i < p1 then
    if seqId < 0 then ∅ else (m.seqId i).erase seqId.toNat
  else m.seqId i

/-- `seq_rm` empties cell `i`. -/
def goneBy (m : RecurrentMemory) (seqId p0 p1 : Int) (i : Nat) : Bool :=
  decide (m.pos i ≥ p0 ∧ m.pos i < p1) && (decide (seqId < 0) || m.hasSeqId i seqId) &&
    decide (m.keptBy seqId p0 p1 i = ∅)

/-- The loop of `seq_rm`. -/
def rmCells (m : RecurrentMemory) (seqId p0 p1 : Int) : RecurrentMemory :=
  m.sweep (m.keptBy seqId p0 p1) (m.goneBy seqId p0 p1)
    fun i => m.goneBy seqId p0 p1 i && decide (m.pos i ≥ 0)

/-- The partial rollback of `seq_rm`: the range starts inside the sequence and reaches its end. -/
def rollsBack (m : RecurrentMemory) (seqId p0 p1 : Int) : Prop :=
  0 ≤ m.tail seqId.toNat ∧ 0 < lower p0 ∧ lower p0 ≤ m.pos (m.tail seqId.toNat).toNat ∧
    upper p1 > m.pos (m.tail seqId.toNat).toNat

instance (m : RecurrentMemory) (seqId p0 p1 : Int) : Decidable (m.rollsBack seqId p0 p1) :=
  inferInstanceAs (Decidable (_ ∧ _))

/-- `seq_rm`. -/
def seqRm (m : RecurrentMemory) (seqId p0 p1 : Int) : RecurrentMemory × Bool :=
  if !m.canSeqRm seqId p0 p1 then (m, false)
  else
    let q0 := lower p0
    let q1 := upper p1
    let m := if q0 = 0 ∧ q1 = INT32_MAX then
        if seqId ≥ 0 then m.setRsIdx seqId 0 else { m with rsIdx := fun _ => 0 }
      else m
    if seqId ≥ m.size then (m, false)
    else if 0 ≤ seqId then
      let tailId := m.tail seqId.toNat
      if m.rollsBack seqId p0 p1 then
        let rollback := m.pos tailId.toNat - (q0 - 1)
        if rollback ≥ 1 ∧ rollback ≤ m.nRsSeq then
          ({ m.setRsIdx seqId rollback.toNat with
              pos := Function.update m.pos tailId.toNat (q0 - 1) }, true)
        else (m, false)
      else
        let m := if tailId ≥ 0 ∧ q0 ≤ m.pos tailId.toNat ∧ m.pos tailId.toNat < q1 then
            { m with tail := Function.update m.tail seqId.toNat (-1) }
          else m
        (m.rmCells seqId q0 q1, true)
    else if q0 ≠ q1 ∧ (q0 ≠ 0 ∨ q1 ≠ INT32_MAX) then (m, false)
    else (m.rmCells seqId q0 q1, true)

/-- The sequence `s` leaves cell `c`, and the cell becomes empty if it was alone there. -/
def leave (m : RecurrentMemory) (c s : Nat) : RecurrentMemory :=
  { m with
    seqId := Function.update m.seqId c ((m.seqId c).erase s)
    pos := if (m.seqId c).erase s = ∅ then Function.update m.pos c (-1) else m.pos
    src := if (m.seqId c).erase s = ∅ then Function.update m.src c (-1) else m.src }

/-- `seq_rm_cell`. -/
def seqRmCell (m : RecurrentMemory) (seqId : Int) (cellIdx : Nat) : RecurrentMemory × Bool :=
  if seqId < 0 ∨ cellIdx ≥ m.size then (m, false)
  else if !m.hasSeqId cellIdx seqId then (m, false)
  else
    let s := seqId.toNat
    let empties := decide ((m.seqId cellIdx).erase s = ∅)
    let left := { m.leave cellIdx s with
      used := if empties && decide (m.pos cellIdx ≥ 0) then decUsed m.used else m.used
      head := if empties && decide (cellIdx < m.head) then cellIdx else m.head }
    (if s < m.size ∧ m.tail s = cellIdx then
        { left with tail := Function.update left.tail s (-1) }
      else left, true)

/-! ## Copy, keep, add and divide -/

/-- A sequence leaves its cell (`seq_cp`, `find_slot`). -/
def dropSeq (m : RecurrentMemory) (s : Nat) : RecurrentMemory :=
  if m.tail s ≥ 0 then
    let c := (m.tail s).toNat
    { m.leave c s with
      tail := Function.update m.tail s (-1)
      used := if (m.seqId c).erase s = ∅ then decUsed m.used else m.used }
  else m

/-- `seq_cp`: the range is not used. A negative id is a large `uint32_t`. -/
def seqCp (m : RecurrentMemory) (src dst : Int) : RecurrentMemory :=
  if src = dst then m
  else if 0 ≤ dst ∧ dst < m.size ∧ 0 ≤ src ∧ src < m.size then
    let m := m.dropSeq dst.toNat
    let tailSrc := m.tail src.toNat
    if tailSrc ≥ 0 then
      { m with
        seqId := Function.update m.seqId tailSrc.toNat (insert dst.toNat (m.seqId tailSrc.toNat))
        tail := Function.update m.tail dst.toNat tailSrc }
    else m
  else m

/-- `seq_keep`. -/
def seqKeep (m : RecurrentMemory) (seqId : Int) : RecurrentMemory :=
  let kept := { m with
    tail := fun i => if i < m.size ∧ (i : Int) ≠ seqId then -1 else m.tail i }
  kept.sweep (fun i => if m.hasSeqId i seqId then {seqId.toNat} else ∅)
    (fun i => !m.hasSeqId i seqId) fun i => !m.hasSeqId i seqId && decide (m.pos i ≥ 0)

/-- `seq_add` and `seq_div`: the position of the cell of the sequence changes. -/
def movePos (m : RecurrentMemory) (seqId p0 p1 : Int) (f : Int → Int) : RecurrentMemory :=
  if lower p0 = upper p1 then m
  else if 0 ≤ seqId ∧ seqId < m.size then
    let tailId := m.tail seqId.toNat
    if tailId ≥ 0 ∧ m.hasSeqId tailId.toNat seqId = true ∧ lower p0 ≤ m.pos tailId.toNat ∧
        m.pos tailId.toNat < upper p1 then
      { m with pos := Function.update m.pos tailId.toNat (f (m.pos tailId.toNat)) }
    else m
  else m

/-- `seq_add`. -/
def seqAdd (m : RecurrentMemory) (seqId p0 p1 shift : Int) : RecurrentMemory :=
  if shift = 0 then m else m.movePos seqId p0 p1 (· + shift)

/-- `seq_div`. -/
def seqDiv (m : RecurrentMemory) (seqId p0 p1 d : Int) : RecurrentMemory :=
  if d = 1 then m else m.movePos seqId p0 p1 (·.tdiv d)

end RecurrentMemory
end BeeLlama
