import Mathlib.Algebra.GroupWithZero.Nat
import Mathlib.Data.List.Sort

/-!
# The exact tail of one sequence (`src/llama-kv-cache-tail.{h,cpp}`)

`SeqTail` is what `llama_kv_tail_store` keeps for one sequence: the list of the exact entries, the
index from a physical cell to a list node, the used slots of the arena of the sequence, the write
cursor, and the degradation flags with their recovery counter. The functions here are the private
helpers of the store and the part of each operation that works on one sequence.

A list node has an address (`TailNode.id`), and the index maps a cell to an address, as
`entry_by_cell` maps it to a list iterator. `cell_key` packs two 32-bit numbers into one 64-bit
number; the key here is the pair. `std::list::sort` and `std::stable_sort` are stable, as
`List.insertionSort` is.

A function that can throw returns the state that it leaves together with its result.
-/

namespace BeeLlama

/-- `LLAMA_KV_TAIL_BODY_SLOT`: the row has no exact slot. -/
def LLAMA_KV_TAIL_BODY_SLOT : Int := -1

/-- `UINT32_MAX`. -/
def UINT32_MAX : Nat := 2 ^ 32 - 1

/-- `INT32_MAX`. -/
def INT32_MAX : Nat := 2 ^ 31 - 1

/-- What the tail store throws. -/
inductive TailError where
  | arenaRowsUneven
  | arenaTooSmall
  | compactArenaTooSmall
  | slotCountOverflow
  | historyOverflow
  | batchPending
  | duplicateCell
  | arenaExhausted (seqId stride : Nat)
  | currentSourceOverflow
  | copyPending
  | badProvenance
  | duplicateProvenance
  | badSequenceProvenance
  | cloneIncompatible
  | cloneInTransaction
  | badRestore
  | conflictingRestore
  | badCursor
  deriving DecidableEq, Repr

/-- The text of the exception. -/
def TailError.what : TailError → String
  | .arenaRowsUneven => "KV tail test arena rows must divide evenly across sequences"
  | .arenaTooSmall => "KV tail arena is smaller than one sequence tail"
  | .compactArenaTooSmall => "compact KV tail arena is smaller than history plus rollback"
  | .slotCountOverflow => "KV tail arena slot index overflows int32_t"
  | .historyOverflow => "compact KV tail history capacity overflows uint32_t"
  | .batchPending => "a compact KV tail batch transaction is already pending"
  | .duplicateCell => "duplicate physical cell in KV tail sequence"
  | .arenaExhausted s n =>
    "KV tail sequence arena exhausted (sequence=" ++ toString s ++ ", stride=" ++ toString n ++ ")"
  | .currentSourceOverflow => "compact KV tail current source index overflows int32_t"
  | .copyPending => "a KV tail sequence-copy transaction is already pending"
  | .badProvenance => "invalid KV tail degradation provenance"
  | .duplicateProvenance => "duplicate KV tail degradation provenance"
  | .badSequenceProvenance => "invalid per-sequence KV tail degradation provenance"
  | .cloneIncompatible => "cannot clone incompatible KV tail logical state"
  | .cloneInTransaction => "cannot clone KV tail logical state during a transaction"
  | .badRestore => "invalid KV tail state restore destination"
  | .conflictingRestore => "conflicting KV tail state restore destination"
  | .badCursor => "invalid KV tail restored write cursor"

/-! ## Entries -/

/-- `llama_kv_tail_identity`: a physical cell and its generation. -/
structure TailIdentity where
  stream : Nat
  cell : Nat
  generation : Nat
  deriving DecidableEq, Repr

/-- `cell_key(identity.stream, identity.cell)`. -/
def TailIdentity.key (i : TailIdentity) : Nat × Nat := (i.stream, i.cell)

/-- `exact_entry`. -/
structure TailEntry where
  identity : TailIdentity
  position : Int
  ordinal : Nat
  slot : Int
  deriving DecidableEq, Repr

/-- The cell of an entry. -/
def TailEntry.key (e : TailEntry) : Nat × Nat := e.identity.key

/-- The order of the list: by position, then by insertion ordinal. -/
def TailEntry.Before (a b : TailEntry) : Prop :=
  a.position < b.position ∨ (a.position = b.position ∧ a.ordinal < b.ordinal)

instance (a b : TailEntry) : Decidable (a.Before b) :=
  inferInstanceAs (Decidable (_ ∨ _))

/-- `a` does not come after `b`. -/
def TailEntry.Le (a b : TailEntry) : Prop := ¬ b.Before a

instance (a b : TailEntry) : Decidable (a.Le b) := inferInstanceAs (Decidable (¬ _))

/-- The position is in `[p0, p1)`; `p1 < 0` means no upper bound. -/
def TailEntry.InRange (e : TailEntry) (p0 p1 : Int) : Prop :=
  e.position ≥ p0 ∧ (p1 < 0 ∨ e.position < p1)

instance (e : TailEntry) (p0 p1 : Int) : Decidable (e.InRange p0 p1) :=
  inferInstanceAs (Decidable (_ ∧ _))

/-- A node of the entry list: an entry at an address. -/
structure TailNode extends TailEntry where
  id : Nat
  deriving DecidableEq, Repr

/-- The list with each entry in a node of its own. -/
def TailNode.ofEntries (es : List TailEntry) : List TailNode :=
  es.zipIdx.map fun p => ⟨p.1, p.2⟩

/-- An address that no node of the list has. -/
def TailNode.fresh (ns : List TailNode) : Nat := (ns.map (·.id + 1)).foldr max 0

/-- `entries.sort(...)`. -/
def TailNode.sort (ns : List TailNode) : List TailNode :=
  ns.insertionSort fun a b => a.toTailEntry.Le b.toTailEntry

/-- `entries.insert(find_if(..., entry is after n), n)`. -/
def TailNode.insertBefore (ns : List TailNode) (n : TailNode) : List TailNode :=
  ns.orderedInsert (fun a b => a.toTailEntry.Before b.toTailEntry) n

/-- The insertion of `commit`: at the back if the last entry is not after `n`. -/
def TailNode.insert (ns : List TailNode) (n : TailNode) : List TailNode :=
  match ns.getLast? with
  | none => ns ++ [n]
  | some b => if b.toTailEntry.Le n.toTailEntry then ns ++ [n] else insertBefore ns n

/-! ## The store of one sequence -/

/-- The constants of a store. -/
structure TailCfg where
  nTokens : Nat
  rollbackTokens : Nat
  historyLimit : Nat
  arenaStride : Nat
  nSlots : Nat
  compactStorage : Bool
  /-- `sequences.size()`. -/
  nSeqMax : Nat
  deriving DecidableEq, Repr

/-- `compact_storage ? history_limit : n_tokens`. -/
def TailCfg.limit (cfg : TailCfg) : Nat :=
  if cfg.compactStorage then cfg.historyLimit else cfg.nTokens

/-- The part of a sequence that a batch transaction saves. -/
structure SeqState where
  entries : List TailNode := []
  used : Nat → Bool := fun _ => false
  cursor : Nat := 0
  degradation : Nat := 0
  recovery : Nat := 0

/-- The tail of one sequence. -/
structure SeqTail extends SeqState where
  index : Nat × Nat → Option Nat := fun _ => none

namespace SeqTail

variable (cfg : TailCfg) (s : Nat)

/-- `release(seq_id, slot)`. -/
def release (slot : Int) (t : SeqTail) : SeqTail :=
  if slot < 0 then t
  else { t with used := Function.update t.used (slot.toNat - s * cfg.arenaStride) false }

/-- Releases of several slots. -/
def releaseAll (slots : List Int) (t : SeqTail) : SeqTail :=
  slots.foldl (fun t slot => t.release cfg s slot) t

/-- `acquire(seq_id)`: the first free slot from the cursor on. -/
def acquire (t : SeqTail) : SeqTail × Except TailError Int :=
  match (List.range cfg.arenaStride).find? fun o => !t.used ((t.cursor + o) % cfg.arenaStride) with
  | some o =>
    let l := (t.cursor + o) % cfg.arenaStride
    ({ t with
        used := Function.update t.used l true
        cursor := (l + 1) % cfg.arenaStride },
      .ok (s * cfg.arenaStride + l : Nat))
  | none => (t, .error (.arenaExhausted s cfg.arenaStride))

/-- `entry_by_cell[seq_id].find(key)`, dereferenced. -/
def find (t : SeqTail) (key : Nat × Nat) : Option TailNode :=
  (t.index key).bind fun i => t.entries.find? fun n => n.id = i

/-- The loop of `rebuild_index`: `emplace` each node, `false` at a second node for a cell. -/
def emplaceAll : List TailNode → (Nat × Nat → Option Nat) → (Nat × Nat → Option Nat) × Bool
  | [], index => (index, true)
  | n :: ns, index =>
    if index n.key = none then emplaceAll ns (Function.update index n.key (some n.id))
    else (index, false)

/-- `rebuild_index(seq_id)`. -/
def rebuildIndex (t : SeqTail) : SeqTail × Except TailError Unit :=
  let r := emplaceAll t.entries fun _ => none
  ({ t with index := r.1 }, if r.2 then .ok () else .error .duplicateCell)

/-- `erase_entry(seq_id, entry, release_slot)`. -/
def eraseEntry (n : TailNode) (releaseSlot : Bool) (t : SeqTail) : SeqTail :=
  let t := if releaseSlot then t.release cfg s n.slot else t
  { t with
    index := Function.update t.index n.key none
    entries := t.entries.filter fun m => m.id ≠ n.id }

/-- A loop over the list that releases and erases the entries with `p`. -/
def eraseWhere (p : TailNode → Bool) (t : SeqTail) : SeqTail :=
  let t := t.releaseAll cfg s ((t.entries.filter p).map (·.slot))
  { t with entries := t.entries.filter fun n => !p n }

/-- Release and erase all entries. -/
def dropAll (t : SeqTail) : SeqTail :=
  let t := t.releaseAll cfg s (t.entries.map (·.slot))
  { t with entries := [], index := fun _ => none }

/-- The saved state comes back; the index is left as it is. -/
def load (saved : SeqState) (t : SeqTail) : SeqTail := { toSeqState := saved, index := t.index }

/-- One iteration of `trim`: drop the first entry. -/
def popFront (t : SeqTail) : SeqTail :=
  match t.entries with
  | [] => t
  | n :: ns =>
    let t := t.release cfg s n.slot
    { t with index := Function.update t.index n.key none, entries := ns }

/-- `trim(seq_id, limit)`: one iteration for each entry above the limit. -/
def trim (limit : Nat) (t : SeqTail) : SeqTail :=
  (popFront cfg s)^[t.entries.length - limit] t

/-! ## The operations on one sequence -/

/-- The slot that `commit` returns: the one of the retained entry. -/
def retained (identity : TailIdentity) (t : SeqTail) : Int :=
  match t.find identity.key with
  | some n => if n.identity = identity then n.slot else LLAMA_KV_TAIL_BODY_SLOT
  | none => LLAMA_KV_TAIL_BODY_SLOT

/-- `commit` of an identity that the sequence has: the entry gets a new position. -/
def commitSame (n : TailNode) (position : Int) (ordinal : Nat) (t : SeqTail) : SeqTail :=
  let ns := t.entries.map fun m =>
    if m.id = n.id then { m with position := position, ordinal := ordinal } else m
  trim cfg s cfg.limit { t with entries := TailNode.sort ns }

/-- The slot of a new entry: the one of the evicted first entry, or a free one. -/
def takeSlot (inBatch : Bool) (t : SeqTail) : SeqTail × Except TailError Int :=
  match t.entries with
  | [] => t.acquire cfg s
  | v :: _ =>
    if (cfg.compactStorage || !inBatch) && decide (t.entries.length ≥ cfg.limit) then
      (t.eraseEntry cfg s v false, .ok v.slot)
    else t.acquire cfg s

/-- `if (degradation != 0 && ++recovery_commits >= n_tokens) degradation = recovery_commits = 0`. -/
def recover (t : SeqTail) : SeqTail :=
  if t.degradation = 0 then t
  else if t.recovery + 1 ≥ cfg.nTokens then { t with degradation := 0, recovery := 0 }
  else { t with recovery := t.recovery + 1 }

/-- The new entry of `commit` goes to the list and the index. -/
def addEntry (e : TailEntry) (t : SeqTail) : SeqTail :=
  let n : TailNode := ⟨e, TailNode.fresh t.entries⟩
  { t with
    entries := TailNode.insert t.entries n
    index := Function.update t.index e.key (some n.id) }

/-- `commit` of an identity that the sequence does not have. -/
def commitNew (inBatch : Bool) (identity : TailIdentity) (position : Int) (ordinal : Nat)
    (t : SeqTail) : SeqTail × Except TailError Unit :=
  match t.takeSlot cfg s inBatch with
  | (t, .error e) => (t, .error e)
  | (t, .ok slot) =>
    let t := recover cfg (t.addEntry ⟨identity, position, ordinal, slot⟩)
    (if inBatch then t else trim cfg s cfg.limit t, .ok ())

/-- The part of `commit` on the sequence. -/
def commit (inBatch : Bool) (identity : TailIdentity) (position : Int) (ordinal : Nat)
    (t : SeqTail) : SeqTail × Except TailError Unit :=
  match t.find identity.key with
  | some d =>
    if d.identity = identity then (t.commitSame cfg s d position ordinal, .ok ())
    else (t.eraseEntry cfg s d true).commitNew cfg s inBatch identity position ordinal
  | none => t.commitNew cfg s inBatch identity position ordinal

/-- The part of `recycle` on the sequence; the flag tells if it erased an entry. -/
def recycle (stream cell nextGeneration : Nat) (t : SeqTail) : SeqTail × Bool :=
  match t.find (stream, cell) with
  | some n => if n.identity.generation ≠ nextGeneration then (t.eraseEntry cfg s n true, true)
    else (t, false)
  | none => (t, false)

/-- `degradation |= flags; recovery_commits = 0`. -/
def degrade (flags : Nat) (t : SeqTail) : SeqTail :=
  { t with degradation := t.degradation ||| flags, recovery := 0 }

/-- `seq_rm` on the sequence. -/
def seqRm (p0 p1 : Int) (t : SeqTail) : SeqTail × Except TailError Unit :=
  match (t.eraseWhere cfg s fun n => decide (n.toTailEntry.InRange p0 p1)).rebuildIndex with
  | (t, .error e) => (t, .error e)
  | (t, .ok ()) =>
    (if t.entries = [] ∧ p0 ≤ 0 ∧ p1 < 0 then { t with degradation := 0, recovery := 0 } else t,
      .ok ())

/-- `seq_rm_cell` on the sequence. -/
def seqRmCell (stream cell : Nat) (t : SeqTail) : SeqTail × Except TailError Unit :=
  (t.eraseWhere cfg s fun n => decide (n.key = (stream, cell))).rebuildIndex

/-- `invalidate_slots` on the sequence. -/
def invalidateSlots (slots : List Int) (flags : Nat) (t : SeqTail) :
    SeqTail × Except TailError Unit :=
  if t.entries.any fun n => decide (n.slot ∈ slots) then
    match (t.eraseWhere cfg s fun n => decide (n.slot ∈ slots)).rebuildIndex with
    | (t, .error e) => (t, .error e)
    | (t, .ok ()) => (t.degrade flags, .ok ())
  else (t, .ok ())

/-- The identities that `seq_add` and `seq_div` move: the entries of the sequence in the range. -/
def identitiesIn (p0 p1 : Int) (t : SeqTail) : List TailIdentity :=
  (t.entries.filter fun n => decide (n.toTailEntry.InRange p0 p1)).map (·.identity)

/-- What `seq_add` and `seq_div` do after the positions moved: sort, trim and rebuild the index. -/
def resort (degraded : Bool) (t : SeqTail) : SeqTail × Except TailError Unit :=
  match (trim cfg s cfg.limit { t with entries := TailNode.sort t.entries }).rebuildIndex with
  | (t, .error e) => (t, .error e)
  | (t, .ok ()) => (if degraded then t.degrade 2 else t, .ok ())

/-- The entries with an identity in `ids`, at the position that `f` gives. -/
def movePositions (ids : List TailIdentity) (f : Int → Int) (t : SeqTail) : SeqTail :=
  { t with
    entries := t.entries.map fun n =>
      if n.identity ∈ ids then { n with position := f n.position } else n }

/-- `seq_add` on one sequence: an entry whose position becomes negative is erased. -/
def seqAdd (ids : List TailIdentity) (shift : Int) (degraded : Bool) (t : SeqTail) :
    SeqTail × Except TailError Unit :=
  if t.entries.any fun n => decide (n.identity ∈ ids) then
    ((t.movePositions ids (· + shift)).eraseWhere cfg s fun n =>
      decide (n.identity ∈ ids ∧ n.position < 0)).resort cfg s degraded
  else (t, .ok ())

/-- `seq_div` on one sequence. -/
def seqDiv (ids : List TailIdentity) (divisor : Int) (degraded : Bool) (t : SeqTail) :
    SeqTail × Except TailError Unit :=
  if t.entries.any fun n => decide (n.identity ∈ ids) then
    (t.movePositions ids (·.tdiv divisor)).resort cfg s degraded
  else (t, .ok ())

/-- `restore` on the sequence: the entry takes the slot that the caller names. -/
def restore (identity : TailIdentity) (position : Int) (ordinal localSlot : Nat) (t : SeqTail) :
    SeqTail × Except TailError Int :=
  if t.entries.length ≥ cfg.historyLimit ∨ t.used localSlot = true ∨
      t.index identity.key ≠ none then (t, .error .conflictingRestore)
  else
    let slot : Int := (s * cfg.arenaStride + localSlot : Nat)
    let n : TailNode := ⟨⟨identity, position, ordinal, slot⟩, TailNode.fresh t.entries⟩
    ({ t with
        entries := TailNode.insertBefore t.entries n
        index := Function.update t.index identity.key (some n.id)
        used := Function.update t.used localSlot true },
      .ok slot)

end SeqTail
end BeeLlama
