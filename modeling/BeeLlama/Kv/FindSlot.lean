import BeeLlama.Kv.Cache

/-!
# The search for cells (`llama_kv_cache::find_slot`)

A structured unified cache gives each token the first usable cell from the allocation head of its
sequence on (`SearchState.usable`). A group belongs to one exact set of sequences; a group that is
not complete holds an F16 stage slot, and a group that was completed once is sealed until it is
empty again. The flags of the sealed groups are `mutable`: the search writes them, also when it
finds no room.

Any other cache takes the first usable cells from the head of the stream on (`canUse`). The
argument `cont` is `false` in every call of the repository, and in this model.
-/

namespace BeeLlama

/-- A token of a ubatch. -/
structure UToken where
  pos : Int
  ext : CellExt := {}
  seqIds : List Nat
  deriving DecidableEq, Repr

/-- `llama_ubatch`. -/
structure Ubatch where
  tokens : List UToken
  seqIdUnq : List Nat
  isPos2d : Bool := false
  deriving DecidableEq, Repr

/-- `slot_info`. -/
structure SlotInfo where
  s0 : Nat
  s1 : Nat
  strm : List Nat
  idxs : List (List Nat)
  deriving DecidableEq, Repr

/-- `same_seq_set`. -/
def UToken.sameSeqSet (a b : UToken) : Bool :=
  a.seqIds.length == b.seqIds.length && a.seqIds.all fun s => b.seqIds.contains s

/-- Every token belongs to one sequence, the same one for all. -/
def Ubatch.oneSeq (u : Ubatch) : Bool :=
  match u.tokens with
  | [] => true
  | t :: _ => u.tokens.all fun r => r.seqIds.length == 1 && r.seqIds == t.seqIds

namespace KvCache

/-! ## The structured search -/

/-- The variables of the structured search. -/
structure SearchState where
  heads : Nat → Nat
  reserved : Nat → Bool := fun _ => false
  groupUsed : Nat → Nat
  /-- The first token of this call in a group. -/
  groupClaim : Nat → Option UToken := fun _ => none
  /-- The group that owns a stage slot. -/
  stageOwners : Nat → Option Nat := fun _ => none
  sealed : List Bool
  idxs : List Nat := []

namespace SearchState

variable (cfg : CacheCfg) (c : KvCells)

/-- A group is seeded: an empty group is not sealed, a complete one is, and any other one that is
not sealed owns its stage slot. -/
def seedGroup (a : SearchState) (group : Nat) : SearchState × Except KvError Unit :=
  if a.groupUsed group = 0 then ({ a with sealed := a.sealed.set group false }, .ok ())
  else if a.groupUsed group ≥ cfg.allocationGroupSize then
    ({ a with sealed := a.sealed.set group true }, .ok ())
  else if a.sealed.getD group false then (a, .ok ())
  else
    let slot := cfg.stageSlot group
    if (a.stageOwners slot).any fun g => decide (g ≠ group) then (a, .error .stageAlias)
    else ({ a with stageOwners := Function.update a.stageOwners slot (some group) }, .ok ())

/-- The loop over the groups. -/
def seedGroups : List Nat → SearchState → SearchState × Except KvError Unit
  | [], a => (a, .ok ())
  | g :: gs, a =>
    match a.seedGroup cfg g with
    | (a, .error e) => (a, .error e)
    | (a, .ok ()) => seedGroups gs a

/-- The variables before the loop over the tokens. -/
def seed (heads : Nat → Nat) (sealed : List Bool) : SearchState × Except KvError Unit :=
  seedGroups cfg (List.range cfg.nGroups).tail
    { heads := heads
      groupUsed := KvCache.groupUsed cfg c
      stageOwners := fun slot => if slot = 0 ∧ c.isEmpty 0 = false then some 0 else none
      sealed := if sealed.length ≠ cfg.nGroups then List.replicate cfg.nGroups false else sealed }

/-- `compatible`: the occupied cells of the group carry exactly the sequences of the token. -/
def compatible (t : UToken) (group : Nat) : Bool :=
  (groupCells cfg group).all fun i =>
    c.isEmpty i || (c.seqCount i == t.seqIds.length && t.seqIds.all fun s => c.seqHas i s)

/-- `fills_here`: the rest of the ubatch completes the group that begins at this cell. -/
def fillsHere (oneSeq : Bool) (left idx : Nat) : Bool :=
  oneSeq && decide (idx / cfg.allocationGroupSize > 0) &&
    decide (idx % cfg.allocationGroupSize = 0) && decide (left ≥ cfg.allocationGroupSize)

/-- The token can have the cell. `left` tokens of the ubatch are not placed yet. -/
def usable (a : SearchState) (oneSeq : Bool) (left : Nat) (t : UToken) (idx : Nat) : Bool :=
  let group := idx / cfg.allocationGroupSize
  !a.reserved idx && c.isEmpty idx &&
    (a.groupClaim group).all (fun r => r.sameSeqSet t) &&
    compatible cfg c t group &&
    !(decide (group > 0 ∧ a.groupUsed group > 0 ∧
      a.groupUsed group < cfg.allocationGroupSize) && a.sealed.getD group false) &&
    !(decide (a.groupUsed group = 0) && !fillsHere cfg oneSeq left idx &&
      (a.stageOwners (cfg.stageSlot group)).any fun g => decide (g ≠ group))

/-- The token takes the cell. -/
def take (a : SearchState) (oneSeq : Bool) (left : Nat) (t : UToken) (idx : Nat) : SearchState :=
  let group := idx / cfg.allocationGroupSize
  let slot := cfg.stageSlot group
  let owners :=
    if a.groupUsed group = 0 ∧ fillsHere cfg oneSeq left idx = false then
      Function.update a.stageOwners slot (some group)
    else a.stageOwners
  let completes := decide (a.groupUsed group + 1 = cfg.allocationGroupSize ∧ group > 0)
  { heads := fun s => if s ∈ t.seqIds then idx + 1 else a.heads s
    reserved := Function.update a.reserved idx true
    groupUsed := Function.update a.groupUsed group (a.groupUsed group + 1)
    groupClaim := Function.update a.groupClaim group (some ((a.groupClaim group).getD t))
    stageOwners :=
      if completes = true ∧ owners slot = some group then Function.update owners slot none
      else owners
    sealed := if completes then a.sealed.set group true else a.sealed
    idxs := a.idxs ++ [idx] }

/-- The cells in the order of the search, from `head` on and around. -/
def cellsFrom (size head : Nat) : List Nat :=
  (List.range size).map fun k => ((if head ≥ size then 0 else head) + k) % size

/-- The search for one token. -/
def place (a : SearchState) (oneSeq : Bool) (left : Nat) (t : UToken) : Option SearchState :=
  let owner := t.seqIds.foldl min (t.seqIds.headD 0)
  ((cellsFrom c.size (a.heads owner)).find? fun idx => a.usable cfg c oneSeq left t idx).map
    fun idx => a.take cfg oneSeq left t idx

/-- The loop over the tokens; the flag tells if all of them found a cell. -/
def placeAll (oneSeq : Bool) : List UToken → SearchState → SearchState × Except KvError Bool
  | [], a => (a, .ok true)
  | t :: ts, a =>
    if t.seqIds = [] then (a, .error .noOwner)
    else if t.seqIds.any fun s => decide (s ≥ cfg.nSeqMax) then (a, .error .invalidOwner)
    else
      match a.place cfg c oneSeq (ts.length + 1) t with
      | none => (a, .ok false)
      | some a => placeAll oneSeq ts a

end SearchState

/-- The structured search: the variables that it leaves, and if all tokens found a cell. -/
def searchStructured (st : KvCache) (u : Ubatch) : SearchState × Except KvError Bool :=
  match SearchState.seed st.cfg (st.cells 0) st.allocationSeqHeads st.allocationGroupSealed with
  | (a, .error e) => (a, .error e)
  | (a, .ok ()) => a.placeAll st.cfg (st.cells 0) u.oneSeq u.tokens

/-- `find_slot` of a structured unified cache. -/
def findSlotStructured (st : KvCache) (u : Ubatch) : COut (Option SlotInfo) :=
  let r := st.searchStructured u
  let st := { st with allocationGroupSealed := r.1.sealed }
  match r.2 with
  | .error e => (st, .error e)
  | .ok false => (st, .ok none)
  | .ok true => (st, .ok (some ⟨0, 0, [0], [r.1.idxs]⟩))

/-! ## The plain search -/

/-- The occupied cells of the group carry exactly sequence `s`. -/
def groupMatches (cfg : CacheCfg) (c : KvCells) (s idx : Nat) : Bool :=
  (groupCells cfg (idx / cfg.allocationGroupSize)).all fun i => decide (c.size ≤ i) ||
    c.isEmpty i || (c.seqCount i == 1 && c.seqHas i s)

/-- `can_use`: an empty cell, or one that the window of its only sequence masks. -/
def canUse (cfg : CacheCfg) (c : KvCells) (s idx : Nat) : Bool :=
  (c.isEmpty idx && (decide (cfg.allocationGroupSize ≤ 1) || groupMatches cfg c s idx)) ||
    (decide (c.seqCount idx = 1) && (c.seqGet idx).any fun q =>
      isMaskedSwa cfg.nSwa cfg.swaType (c.pos idx) (c.seqPosMax q + 1))

/-- The first `n` usable cells of the stream of sequence `s`. -/
def findInStream (st : KvCache) (n s : Nat) : Option (List Nat) :=
  let x := st.cfg.seqToStream s
  let c := st.cells x
  let head := if st.heads x > c.getUsed + 2 * n then 0 else st.heads x
  if n > c.size then none
  else
    let idxs := ((SearchState.cellsFrom c.size head).filter fun idx => canUse st.cfg c s idx).take n
    if idxs.length = n then some idxs else none

/-- What the plain search asserts of a ubatch for several streams. -/
def streamsAssert (st : KvCache) (u : Ubatch) (n : Nat) : Bool :=
  decide (st.cfg.nStream ≤ 1) || (decide (u.tokens.length % u.seqIdUnq.length = 0) &&
    (List.range u.seqIdUnq.length).all fun k =>
      (u.tokens[k * n]?.map (·.seqIds)) == (u.seqIdUnq[k]?.map fun s => [s]))

/-- `find_slot` of any other cache. -/
def findSlotPlain (st : KvCache) (u : Ubatch) : Except KvError (Option SlotInfo) :=
  let seqs := if st.cfg.nStream > 1 then u.seqIdUnq else u.seqIdUnq.take 1
  let n := if st.cfg.nStream > 1 then u.tokens.length / u.seqIdUnq.length else u.tokens.length
  if !st.streamsAssert u n then .error .abort
  else
    let strm := seqs.map st.cfg.seqToStream
    .ok ((seqs.mapM (st.findInStream n)).map fun idxs =>
      ⟨strm.foldl min LLAMA_MAX_SEQ, strm.foldl max 0, strm, idxs⟩)

/-- `find_slot(ubatch, false)`. -/
def findSlot (st : KvCache) (u : Ubatch) : COut (Option SlotInfo) :=
  if st.cfg.structured then st.findSlotStructured u else (st, st.findSlotPlain u)

end KvCache
end BeeLlama
