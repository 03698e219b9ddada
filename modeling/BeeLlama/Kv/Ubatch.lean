import BeeLlama.Kv.FindSlot

/-!
# Ubatches (`apply_ubatch`, `finish_tail_batch`, `prepare`)

`applyUbatch` puts the tokens of a ubatch into the cells that `findSlot` named. `prepare` is the
trial: it finds cells for each ubatch, applies it with `tail_preparing` set, and then restores the
named cells and the heads in reverse order.
-/

namespace BeeLlama

/-- A token, the cell that it goes to, and its row in the ubatch. -/
structure Placement where
  stream : Nat
  cell : Nat
  token : UToken
  row : Nat
  deriving DecidableEq, Repr

/-- The cells of a slot info, by stream. -/
def SlotInfo.cells (i : SlotInfo) : List (Nat × Nat) :=
  (i.strm.zip i.idxs).flatMap fun p => p.2.map fun c => (p.1, c)

/-- The tokens of the ubatch with their cells. -/
def SlotInfo.placements (i : SlotInfo) (u : Ubatch) : List Placement :=
  (i.cells.zip u.tokens).zipIdx.map fun p => ⟨p.1.1.1, p.1.1.2, p.1.2, p.2⟩

namespace KvCache

/-- `tail && !tail_preparing`. -/
def tailLive (st : KvCache) : Bool := st.tail.isSome && !st.tailPreparing

/-! ## One token -/

/-- The cell gets a new generation, and the tail forgets the old one. -/
def recycleCell (st : KvCache) (x idx : Nat) : KvCache :=
  if st.tailLive then
    let generation := st.tailGenerations x idx + 1
    { st with
      tailGenerations := Function.update st.tailGenerations x
        (Function.update (st.tailGenerations x) idx generation)
      tail := st.tail.map fun t => t.recycle x idx generation }
  else st

/-- The cell becomes free if it is occupied, and gets the position of the token. -/
def fillCell (is2d : Bool) (c : KvCells) (idx : Nat) (t : UToken) : KvCells :=
  let c := if c.isEmpty idx then c else c.rm idx
  let c := c.posSet idx t.pos
  if is2d then c.extSet idx t.ext else c

/-- `seq_pos_max_rm`: the greatest position of each sequence that the ubatch overwrites. -/
def noteOverwritten (c : KvCells) (idx : Nat) (rm : Nat → Int) : Nat → Int :=
  if c.isEmpty idx then rm
  else
    let s := (c.seqGet idx).getD 0
    Function.update rm s (max (rm s) (c.pos idx))

/-- One owner of the token. -/
def addOwner (p : Placement) (st : KvCache) (owner : Nat) : COut Unit :=
  let st := st.setCells p.stream ((st.cells p.stream).seqAdd p.cell owner)
  let st := if st.cfg.structured then
      { st with allocationSeqHeads :=
          Function.update st.allocationSeqHeads owner (p.cell + 1) }
    else st
  if st.tailLive then
    let ordinal := st.tailOrdinal
    let row := if st.hasCompactTail then p.row else UINT32_MAX
    { st with tailOrdinal := ordinal + 1 }.onTail fun t =>
      t.commit owner ⟨p.stream, p.cell, st.tailGenerations p.stream p.cell⟩ p.token.pos ordinal row
  else (st, .ok ())

/-- The owners of the token. -/
def addOwners (p : Placement) : List Nat → KvCache → COut Unit
  | [], st => (st, .ok ())
  | s :: ss, st => andThen (st.addOwner p s) fun st _ => addOwners p ss st

/-- One token of the ubatch. -/
def placeToken (is2d : Bool) (p : Placement) (st : KvCache) : COut Unit :=
  let st := st.recycleCell p.stream p.cell
  let st := st.setCells p.stream (fillCell is2d (st.cells p.stream) p.cell p.token)
  st.addOwners p p.token.seqIds

/-- The loop over the tokens. -/
def placeTokens (is2d : Bool) : List Placement → KvCache → (Nat → Int) → COut (Nat → Int)
  | [], st, rm => (st, .ok rm)
  | p :: ps, st, rm =>
    let rm := noteOverwritten (st.cells p.stream) p.cell rm
    andThen (st.placeToken is2d p) fun st _ => placeTokens is2d ps st rm

/-! ## The ubatch -/

/-- The start of a batch of the tail. -/
def beginTail (st : KvCache) : COut Unit :=
  if st.tailLive then
    let st := if st.hasCompactTail then
        { st with tailGenerationsBeforeBatch := some st.tailGenerations }
      else st
    st.onTail fun t => t.beginBatch
  else (st, .ok ())

/-- The purge of one sequence: its positions up to the greatest overwritten one. -/
def purgeSeq (rm : Nat → Int) (st : KvCache) (s : Nat) : COut Unit :=
  if rm s = -1 then (st, .ok ())
  else if s < st.cfg.seqToStreamSize then
    let posMin := (st.cells (st.cfg.seqToStream s)).seqPosMin s
    if posMin ≤ rm s then st.seqRmUnchecked s posMin (rm s + 1) else (st, .ok ())
  else (st, .error .abort)

/-- The purge of the overwritten sequences. -/
def purge (rm : Nat → Int) : List Nat → KvCache → COut Unit
  | [], st => (st, .ok ())
  | s :: ss, st => andThen (st.purgeSeq rm s) fun st _ => purge rm ss st

/-- The heads move to the end of the slot. -/
def moveHeads (st : KvCache) (i : SlotInfo) : KvCache :=
  (i.strm.zip i.idxs).foldl (fun st p => st.setHead p.1 (p.2.getLastD 0 + 1)) st

/-- `apply_ubatch`. -/
def applyUbatch (st : KvCache) (i : SlotInfo) (u : Ubatch) : COut Unit :=
  andThen st.beginTail fun st _ =>
    andThen (placeTokens u.isPos2d (i.placements u) st fun _ => -1) fun st rm =>
      andThen (purge rm (List.range LLAMA_MAX_SEQ) st) fun st _ => (st.moveHeads i, .ok ())

/-- `finish_tail_batch`. -/
def finishTailBatch (st : KvCache) (success payloadMayBeModified : Bool) : COut Unit :=
  if st.tailLive then
    andThen (st.onTail fun t => t.finishBatch success payloadMayBeModified) fun st _ =>
      ({ st with
          tailGenerations :=
            if !success && st.hasCompactTail then
              st.tailGenerationsBeforeBatch.getD st.tailGenerations
            else st.tailGenerations
          tailGenerationsBeforeBatch := none }, .ok ())
  else (st, .ok ())

/-! ## The trial -/

/-- `state_t` of `prepare`. -/
structure Saved where
  sinfo : SlotInfo
  headsOld : Nat → Nat
  cells : List KvCells

/-- What `prepare` saves before it applies a ubatch. -/
def save (st : KvCache) (i : SlotInfo) : Saved :=
  ⟨i, st.heads, (i.strm.zip i.idxs).map fun p => (st.cells p.1).cpIdxs p.2⟩

/-- The loop over the ubatches. The newest saved state is the first of the list. -/
def trial : List Ubatch → KvCache → List Saved → KvCache × List Saved × Except KvError Bool
  | [], st, states => (st, states, .ok true)
  | u :: us, st, states =>
    match st.findSlot u with
    | (st, .error e) => (st, states, .error e)
    | (st, .ok none) => (st, states, .ok false)
    | (st, .ok (some i)) =>
      match st.applyUbatch i u with
      | (st', .error e) => (st', st.save i :: states, .error e)
      | (st', .ok ()) => trial us st' (st.save i :: states)

/-- One saved state is restored: `head = it->v_heads_old[s]` for the `s`-th stream of the slot. -/
def restoreSaved (st : KvCache) (s : Saved) : KvCache :=
  ((s.sinfo.strm.zip s.sinfo.idxs).zip s.cells).zipIdx.foldl
    (fun st p => (st.setCells p.1.1.1 ((st.cells p.1.1.1).setIdxs p.1.1.2 p.1.2)).setHead p.1.1.1
      (s.headsOld p.2)) st

/-- `prepare`: the slots, or nothing if some ubatch found no room. -/
def prepare (st : KvCache) (us : List Ubatch) : COut (List SlotInfo) :=
  match trial us { st with tailPreparing := true } [] with
  | (st, _, .error e) => (st, .error e)
  | (st, states, .ok success) =>
    let st := { st with tailPreparing := false }
    if states = [] ∧ success = true then (st, .error .abort)
    else
      (states.foldl restoreSaved st, .ok (if success then (states.map (·.sinfo)).reverse else []))

end KvCache
end BeeLlama
