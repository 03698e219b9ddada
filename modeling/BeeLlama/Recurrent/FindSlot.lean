import BeeLlama.Recurrent.Memory

/-!
# The cells of a ubatch (`llama_memory_recurrent::find_slot`, `state_read`)

`find_slot` gives each sequence set of a ubatch a cell of its own, in three passes over the sets:

* `claim`: a set whose first sequence is alone in its cell keeps it; any other set takes the next
  empty cell, with the state that the sequence had.
* `gather`: the cells are swapped until they follow each other in the order of the sets.
* `place`: the cells get the sequences and the positions of the sets.

Before that, the other sequences of a set leave their cells (`unshare`). A failed `GGML_ASSERT` is
an error, and there is no memory after it.
-/

namespace BeeLlama.RecurrentMemory

/-! ## The passes of `find_slot` -/

/-- The ids of one set; all but the first one leave their cells. `false` if an id is too big. -/
def unshareIds (m : RecurrentMemory) : Bool → List Int → RecurrentMemory × Bool
  | _, [] => (m, true)
  | first, id :: ids =>
    if id < 0 ∨ id.toNat ≥ m.size then (m, false)
    else unshareIds (if first then m else m.dropSeq id.toNat) false ids

/-- The loop over the sets. -/
def unshare (m : RecurrentMemory) : List RsSet → RecurrentMemory × Bool
  | [] => (m, true)
  | s :: sets =>
    match m.unshareIds true s.seqIds with
    | (m, false) => (m, false)
    | (m, true) => unshare m sets

/-- The first search for an empty cell, from `e` on. -/
def firstEmpty (m : RecurrentMemory) : Nat → Nat → Nat
  | 0, e => e
  | k + 1, e =>
    let e := if e ≥ m.size then e - m.size else e
    if m.isEmpty e then e else firstEmpty m k (e + 1)

/-- The search for the empty cell after `e`. -/
def nextEmpty (m : RecurrentMemory) : Nat → Nat → Nat
  | 0, e => e
  | k + 1, e =>
    let e := e + 1
    let e := if e ≥ m.size then e - m.size else e
    if m.isEmpty e then e else nextEmpty m k e

/-- The sequence `s` moves to the empty cell `e`, with the position and the source of its cell. -/
def moveTo (m : RecurrentMemory) (s e : Nat) : Except RsAssert RecurrentMemory :=
  if !m.isEmpty e then .error .emptyCell
  else if m.tail s ≥ 0 then
    let c := (m.tail s).toNat
    let m := { m with
      pos := Function.update m.pos e (m.pos c)
      src := Function.update m.src e (m.src c)
      seqId := Function.update m.seqId c ((m.seqId c).erase s) }
    let m := { m with seqId := Function.update m.seqId e (insert s (m.seqId e)) }
    if m.isEmpty c then .error .origCell
    else .ok { m with tail := Function.update m.tail s e }
  else .ok { m with tail := Function.update m.tail s e }

/-- The variables of the second pass: `next_empty_cell`, `min` and `max`. -/
structure Claims where
  mem : RecurrentMemory
  e : Nat
  min : Int
  max : Int

/-- `min` and `max` after the set of sequence `s`. -/
def Claims.bound (a : Claims) (s : Nat) : Claims :=
  { a with
    min := if a.min > a.mem.tail s then a.mem.tail s else a.min
    max := if a.max < a.mem.tail s then a.mem.tail s else a.max }

/-- The sequence does not need another cell. -/
def ownsCell (m : RecurrentMemory) (s : Nat) : Bool :=
  decide (m.tail s ≥ 0) && (m.seqId (m.tail s).toNat).card == 1

/-- One set of the second pass; `more` if another set follows. -/
def claimOne (a : Claims) (s : Nat) (more : Bool) : Except RsAssert Claims :=
  if a.mem.tail s ≥ 0 ∧ s ∉ a.mem.seqId (a.mem.tail s).toNat then .error .tailHasSeqId
  else if a.mem.ownsCell s then .ok (a.bound s)
  else
    match a.mem.moveTo s a.e with
    | .error x => .error x
    | .ok m => .ok (Claims.bound ⟨m, if more then m.nextEmpty m.size a.e else a.e, a.min, a.max⟩ s)

/-- The second pass. -/
def claim : Claims → List Nat → Except RsAssert Claims
  | a, [] => .ok a
  | a, s :: l =>
    match claimOne a s !l.isEmpty with
    | .error x => .error x
    | .ok a => claim a l

/-- Two cells change places, and the tails follow. -/
def swapCells (m : RecurrentMemory) (dst src : Nat) : RecurrentMemory :=
  { m with
    pos := m.pos ∘ Equiv.swap dst src
    src := m.src ∘ Equiv.swap dst src
    seqId := m.seqId ∘ Equiv.swap dst src
    tail := fun j =>
      if j < m.size then
        if m.tail j = src then dst else if m.tail j = dst then src else m.tail j
      else m.tail j }

/-- The third pass: the cell of the set at `k` goes to `k + min`. -/
def gather (m : RecurrentMemory) : Nat → List Nat → RecurrentMemory
  | _, [] => m
  | dst, s :: l =>
    let src := (m.tail s).toNat
    gather (if dst ≠ src then m.swapCells dst src else m) (dst + 1) l

/-- The cell gets the position and the sequences of the set. -/
def placeSet (m : RecurrentMemory) (c : Nat) (s : RsSet) : RecurrentMemory :=
  { m with
    pos := Function.update m.pos c s.lastPos
    seqId := Function.update m.seqId c (s.seqIds.map Int.toNat).toFinset
    tail := fun j => if j ∈ s.seqIds.map Int.toNat then c else m.tail j }

/-- The fourth pass. -/
def place (m : RecurrentMemory) : Nat → List RsSet → RecurrentMemory
  | _, [] => m
  | c, s :: sets => place (m.placeSet c s) (c + 1) sets

/-- The first cell of the slot that no cell has as its source. -/
def findRsZ (m : RecurrentMemory) (lo len : Nat) : Int :=
  match (List.range' lo len).find? fun i =>
      (List.range m.size).all fun j => decide (m.src j ≠ i) with
  | some i => i
  | none => -1

/-- The sources of the cells of the slot are staged. -/
def stageSources (m : RecurrentMemory) (lo len : Nat) : Except RsAssert RecurrentMemory :=
  let z := m.findRsZ lo len
  if z < 0 ∧ ∃ i ∈ List.range' lo len, m.src i < 0 then .error .rsZ
  else .ok { m with
    rsZ := z
    src0 := fun i => if lo ≤ i ∧ i < lo + len then if m.src i < 0 then z else m.src i
      else m.src0 i
    src := fun i => if lo ≤ i ∧ i < lo + len then i else m.src i }

/-- The number of cells with a sequence. -/
def countUsed (m : RecurrentMemory) : Nat :=
  ((List.range m.size).filter fun i => !m.isEmpty i).length

/-- `find_slot`. -/
def findSlot (m : RecurrentMemory) (u : RsUbatch) : Except RsAssert (RecurrentMemory × Bool) :=
  let m := if m.head > m.used + 2 * u.sets.length then { m with head := 0 } else m
  if !u.equalSeqs then .error .equalSeqs
  else
    match m.unshare u.sets with
    | (m, false) => .ok (m, false)
    | (m, true) =>
      let firsts := u.sets.map RsSet.first
      match claim ⟨m, m.firstEmpty m.size m.head, (m.size : Int) - 1, 0⟩ firsts with
      | .error x => .error x
      | .ok a =>
        let lo := a.min.toNat
        let len := (a.max - a.min + 1).toNat
        let m := (a.mem.gather lo firsts).place lo u.sets
        match m.stageSources lo len with
        | .error x => .error x
        | .ok m =>
          .ok ({ m with head := lo, n := len, used := m.countUsed }, decide (len ≥ u.sets.length))

/-! ## `prepare` -/

/-- The loop of `prepare`. -/
def findSlots (m : RecurrentMemory) : List RsUbatch → Except RsAssert (RecurrentMemory × Bool)
  | [] => .ok (m, true)
  | u :: us =>
    match m.findSlot u with
    | .error x => .error x
    | .ok (m, false) => .ok (m, false)
    | .ok (m, true) => findSlots m us

/-- `prepare`: the cells, `used` and `head` come back. -/
def prepare (m : RecurrentMemory) (us : List RsUbatch) :
    Except RsAssert (RecurrentMemory × Bool) :=
  match m.findSlots us with
  | .error x => .error x
  | .ok (m', success) => .ok ({ m with n := m'.n, rsZ := m'.rsZ }, success)

/-! ## `state_read` -/

/-- What `state_read` reads for a cell: its position and its sequence ids. -/
structure CellRecord where
  pos : Int
  seqIds : List Int
  deriving DecidableEq, Repr

/-- The ids of one cell of a whole restore. -/
def readIds (m : RecurrentMemory) (i : Nat) : List Int → RecurrentMemory × Bool
  | [] => (m, true)
  | id :: ids =>
    if id < 0 ∨ id.toNat ≥ m.nSeqMax then (m, false)
    else
      let s := id.toNat
      let m := { m with seqId := Function.update m.seqId i (insert s (m.seqId i)) }
      if m.tail s ≠ -1 then (m, false)
      else readIds { m with tail := Function.update m.tail s i } i ids

/-- The cells of a whole restore, from cell `i` on. -/
def readCells (m : RecurrentMemory) : Nat → List CellRecord → RecurrentMemory × Bool
  | _, [] => (m, true)
  | i, r :: rs =>
    match { m with pos := Function.update m.pos i r.pos }.readIds i r.seqIds with
    | (m, false) => (m, false)
    | (m, true) => readCells m (i + 1) rs

/-- The restored cells are their own source. -/
def ownSources (m : RecurrentMemory) (count : Nat) : RecurrentMemory :=
  { m with src := fun i => if m.head ≤ i ∧ i < m.head + count then i else m.src i }

/-- `state_read_meta`. -/
def stateReadMeta (m : RecurrentMemory) (rs : List CellRecord) (dest : Int) :
    Except RsAssert (RecurrentMemory × Bool) :=
  if dest ≠ -1 then
    let m := (m.seqRm dest (-1) (-1)).1
    match rs.getLast? with
    | none => .ok (m, true)
    | some last =>
      if rs.any fun r => decide (r.seqIds ≠ []) then .ok (m, false)
      else
        match m.findSlot { nSeqTokens := rs.length, sets := [⟨[dest], last.pos⟩] } with
        | .error x => .error x
        | .ok (m, false) => .ok (m, false)
        | .ok (m, true) =>
          let j := m.head + rs.length - 1
          if m.head + rs.length ≤ m.size ∧ some (m.pos m.head) = rs.head?.map (·.pos) ∧
              m.pos j = last.pos ∧ m.hasSeqId m.head dest = true ∧ m.hasSeqId j dest = true then
            .ok (m.ownSources rs.length, true)
          else .error .restored
  else if rs.length > m.size then .ok (m, false)
  else
    match m.clear.readCells 0 rs with
    | (m, false) => .ok (m, false)
    | (m, true) => .ok ({ m with head := 0, used := rs.length }.ownSources rs.length, true)

/-- `state_read`; `dataOk` is what the reader of the tensors returns. The new metadata is installed
when everything was read, and the call throws otherwise (`false`). -/
def stateRead (m : RecurrentMemory) (rs : List CellRecord) (dest : Int) (dataOk : Bool) :
    Except RsAssert (RecurrentMemory × Bool) :=
  match m.stateReadMeta rs dest with
  | .error x => .error x
  | .ok (m', res) =>
    let m' := if res = true ∧ m'.nRsSeq ≠ 0 then
        if dest = -1 then { m' with rsIdx := fun _ => 0 } else m'.setRsIdx dest 0
      else m'
    if res && dataOk then .ok (m', true) else .ok ({ m with n := m'.n }, false)

/-! ## `s_copy` -/

/-- `s_copy(i)`: the row that the state of cell `head + i` is read from. The rollback index that it
uses is reset. -/
def sCopy (m : RecurrentMemory) (i : Nat) : RecurrentMemory × Int :=
  let c := i + m.head
  if m.nRsSeq = 0 then (m, m.src0 c)
  else
    match ((m.seqId c).sort).head? with
    | none => (m, m.src0 c)
    | some s =>
      if s < m.nSeqMax then
        ({ m with rsIdx := Function.update m.rsIdx s 0 }, (m.rsIdx s * m.size : Nat) + m.src0 c)
      else (m, m.src0 c)

end BeeLlama.RecurrentMemory
