import BeeLlama.Kv.CacheRun

/-!
# Caches without shifts

`Plain st`: no cell has a pending shift and the cache has no copy of the tail of its own pending.
The metadata of a KVarN cache is plain: it never shifts positions, and takes the tail copies over
after each `seq_cp`. Every other call keeps a cache plain (`Plain.call`).
-/

namespace BeeLlama

open Function KvCache KvCells

namespace KvCells

/-- No cell has a pending shift. -/
def NoShift (c : KvCells) : Prop := ∀ i, c.shift i = 0

variable {c : KvCells}

theorem NoShift.of_eq {c' : KvCells} (h : c.NoShift) (e : c'.shift = c.shift) : c'.NoShift :=
  fun i => by rw [e]; exact h i

theorem NoShift.freeCell (h : c.NoShift) (i : Nat) : (c.freeCell i).NoShift := by
  intro j
  show Function.update c.shift i 0 j = 0
  rcases eq_or_ne j i with rfl | hj
  · exact update_self ..
  · rw [update_of_ne hj]
    exact h j

theorem NoShift.seqPosRm (h : c.NoShift) (i : Nat) : (c.seqPosRm i).NoShift :=
  h.of_eq (seqPosRm_shift c i)

theorem NoShift.seqPosAdd (h : c.NoShift) (i : Nat) : (c.seqPosAdd i).NoShift :=
  h.of_eq (seqPosAdd_shift c i)

theorem NoShift.setSeq (h : c.NoShift) (i : Nat) (S : Finset Nat) : (c.setSeq i S).NoShift := h

theorem NoShift.seqPosInc (h : c.NoShift) (s : Nat) (p : Int) : (c.seqPosInc s p).NoShift := h

theorem NoShift.seqPosDec (h : c.NoShift) (s : Nat) (p : Int) : (c.seqPosDec s p).NoShift := h

theorem NoShift.seqAdd (h : c.NoShift) (i s : Nat) : (c.seqAdd i s).NoShift :=
  (h.setSeq i _).seqPosInc s _

theorem NoShift.posSet (h : c.NoShift) (i : Nat) (p : Int) : (c.posSet i p).NoShift := h

theorem NoShift.extSet (h : c.NoShift) (i : Nat) (e : CellExt) : (c.extSet i e).NoShift := h

theorem NoShift.rm (h : c.NoShift) (i : Nat) : (c.rm i).NoShift :=
  ((h.seqPosRm i).setSeq i ∅).freeCell i

theorem NoShift.seqRm (h : c.NoShift) (i s : Nat) : (c.seqRm i s).1.NoShift := by
  have h1 := (h.setSeq i ((c.seq i).erase s)).seqPosDec s (c.pos i)
  unfold KvCells.seqRm
  dsimp only
  split
  · exact h1.freeCell i
  · exact h1

theorem NoShift.seqRmCell (h : c.NoShift) (i s : Nat) : (c.seqRmCell i s).1.NoShift := by
  unfold KvCells.seqRmCell
  split
  · exact h
  · exact h.seqRm i s

theorem NoShift.seqKeep (h : c.NoShift) (i s : Nat) : (c.seqKeep i s).1.NoShift := by
  unfold KvCells.seqKeep
  split
  · exact ((h.seqPosRm i).setSeq i {s}).seqPosInc s _
  · split
    · exact ((h.seqPosRm i).setSeq i ∅).freeCell i
    · exact h

theorem NoShift.setCell (h : c.NoShift) (idx : Nat) (other : KvCells) (j : Nat) :
    (c.setCell idx other j).NoShift := by
  have h1 : NoShift { c with used := c.setUsed idx (other.pos j) } := h
  have h2 : NoShift (if c.pos idx ≠ -1 then
      KvCells.seqPosRm { c with used := c.setUsed idx (other.pos j) } idx
      else { c with used := c.setUsed idx (other.pos j) }) := by
    split
    · exact h1.seqPosRm idx
    · exact h1
  have h3 : NoShift (KvCells.assign _ idx (other.pos j) (other.ext j) (other.seq j)) := h2
  unfold KvCells.setCell
  dsimp only
  split
  · exact h3.seqPosAdd idx
  · exact h3

theorem NoShift.foldl {α : Type} {f : KvCells → α → KvCells}
    (hf : ∀ c x, c.NoShift → (f c x).NoShift) (l : List α) (h : c.NoShift) :
    (l.foldl f c).NoShift := by
  induction l generalizing c with
  | nil => exact h
  | cons x l ih => exact ih (hf c x h)

theorem NoShift.sweep (h : c.NoShift) {f : KvCells → Nat → KvCells × Bool}
    (hf : ∀ c i, c.NoShift → (f c i).1.NoShift) : (KvCache.sweep f c).1.NoShift := by
  unfold KvCache.sweep
  have key : ∀ (l : List Nat) (a : KvCells × Nat), a.1.NoShift →
      (l.foldl (fun (a : KvCells × Nat) i =>
        let r := f a.1 i
        (r.1, if r.2 && a.2 == c.size then i else a.2)) a).1.NoShift := by
    intro l
    induction l with
    | nil => exact fun a ha => ha
    | cons i l ih => exact fun a ha => ih _ (hf a.1 i ha)
  exact key _ (c, c.size) h

end KvCells

namespace KvCache

open KvCells

/-- No cell has a pending shift, and no copy of the tail is pending. -/
structure Plain (st : KvCache) : Prop where
  copies : st.scInfo.tailTransaction = false
  cells : ∀ x, (st.cells x).NoShift

section

variable {st st' : KvCache}

theorem Plain.of_eq (h : st.Plain) (hs : st'.scInfo = st.scInfo ∨ st'.scInfo = {})
    (hc : st'.cells = st.cells) : st'.Plain where
  copies := by
    rcases hs with e | e
    · rw [e]
      exact h.copies
    · rw [e]
  cells x := by
    rw [hc]
    exact h.cells x

theorem noShift_update {cells : Nat → KvCells} (h : ∀ x, (cells x).NoShift) {y : Nat}
    {c : KvCells} (hc : c.NoShift) (x : Nat) : (Function.update cells y c x).NoShift := by
  rcases eq_or_ne x y with rfl | hx
  · rw [update_self]
    exact hc
  · rw [update_of_ne hx]
    exact h x

theorem Plain.setCells (h : st.Plain) (x : Nat) {c : KvCells} (hc : c.NoShift) :
    (st.setCells x c).Plain where
  copies := h.copies
  cells := noShift_update h.cells hc

theorem Plain.sweepStream (h : st.Plain) (x : Nat) {f : KvCells → Nat → KvCells × Bool}
    (hf : ∀ c i, c.NoShift → (f c i).1.NoShift) : (st.sweepStream x f).Plain :=
  (h.setCells x ((h.cells x).sweep hf)).of_eq (.inl rfl) rfl

theorem Plain.rmCell (s : Nat) (p0 p1 : Int) (c : KvCells) (i : Nat) (h : c.NoShift) :
    (KvCache.rmCell s p0 p1 c i).1.NoShift := by
  unfold KvCache.rmCell
  split
  · exact h.seqRm i s
  · exact h

theorem Plain.rmAnyCell (p0 p1 : Int) (c : KvCells) (i : Nat) (h : c.NoShift) :
    (KvCache.rmAnyCell p0 p1 c i).1.NoShift := by
  unfold KvCache.rmAnyCell
  split
  · exact h.rm i
  · exact h

theorem Plain.onTail (h : st.Plain) {α : Type} {f : TailStore → TailStore × Except TailError α}
    (e : st.onTail f = (st', .ok ())) : st'.Plain := by
  obtain ⟨tail, rfl, -⟩ := onTail_eq e
  exact h.of_eq (.inl rfl) rfl

theorem Plain.markIfIncomplete (h : st.Plain) (s : Nat) : (st.markIfIncomplete s).Plain := by
  rcases markIfIncomplete_eq st s with e | ⟨t, -, e⟩ <;> rw [e]
  · exact h
  · exact h.of_eq (.inl rfl) rfl

theorem Plain.rebuildAllocationHead (h : st.Plain) (s : Nat) :
    (st.rebuildAllocationHead s).Plain := by
  obtain ⟨heads, e⟩ := rebuildAllocationHead_eq st s
  rw [e]
  exact h.of_eq (.inl rfl) rfl

theorem Plain.rebuildAllocationHeads (h : st.Plain) : st.rebuildAllocationHeads.Plain := by
  obtain ⟨heads, e⟩ := rebuildAllocationHeads_eq st
  rw [e]
  exact h.of_eq (.inl rfl) rfl

/-- A plain cache has nothing of the tail to commit. -/
theorem Plain.materialize_eq (h : st.Plain) :
    ∃ st₁, st.materializePendingCopies = (st₁, .ok ()) ∧ st₁.Plain ∧ st₁.cells = st.cells ∧
      st₁.tail = st.tail ∧ st₁.cfg = st.cfg := by
  unfold materializePendingCopies
  split
  · exact ⟨st, rfl, h, rfl, rfl, rfl⟩
  · simp only [h.copies, Bool.false_eq_true, if_false]
    exact ⟨_, rfl, ⟨rfl, h.cells⟩, rfl, rfl, rfl⟩

theorem Plain.materialize (h : st.Plain) (e : st.materializePendingCopies = (st', .ok ())) :
    st'.Plain := by
  obtain ⟨st1, e1, h1, -⟩ := h.materialize_eq
  rw [e1] at e
  exact (Prod.mk.inj e).1 ▸ h1

variable {p0 p1 : Int} {us : List Ubatch}

theorem Plain.tailSeqRm (h : st.Plain) {seqs : List Nat}
    (e : st.tailSeqRm seqs p0 p1 = (st', .ok ())) : st'.Plain := by
  obtain ⟨tail, rfl, -⟩ := tailSeqRm_eq e
  exact h.of_eq (.inl rfl) rfl

theorem Plain.seqRmUnchecked (h : st.Plain) {s : Nat}
    (e : st.seqRmUnchecked s p0 p1 = (st', .ok ())) : st'.Plain := by
  obtain ⟨st1, u1, e1, e⟩ := andThen_ok e
  have h1 := h.materialize e1
  split at e
  · obtain ⟨st2, u2, e2, e⟩ := andThen_ok e
    cases e
    exact (((h1.tailSeqRm e2).sweepStream _ (Plain.rmCell s _ _)).markIfIncomplete
      s).rebuildAllocationHead s
  · cases e

theorem Plain.foldl {α : Type} {f : KvCache → α → KvCache}
    (hf : ∀ st x, Plain st → (f st x).Plain) (l : List α) (h : st.Plain) :
    (l.foldl f st).Plain := by
  induction l generalizing st with
  | nil => exact h
  | cons x l ih => exact ih (hf st x h)

theorem Plain.seqRm (h : st.Plain) {seqId p0 p1 : Int} {b : Bool}
    (e : st.seqRm seqId p0 p1 = (st', .ok b)) : st'.Plain := by
  unfold KvCache.seqRm at e
  split at e
  · cases e
    exact h
  · obtain ⟨st1, u1, e1, e⟩ := andThen_ok e
    cases e
    split at e1
    · obtain ⟨st2, u2, e2, e1⟩ := andThen_ok e1
      obtain ⟨st3, u3, e3, e1⟩ := andThen_ok e1
      cases e1
      have h3 := (h.materialize e2).tailSeqRm e3
      refine Plain.rebuildAllocationHeads (Plain.foldl (fun st s hs => hs.markIfIncomplete s) _ ?_)
      exact Plain.foldl (fun st x hs => hs.sweepStream x (Plain.rmAnyCell _ _)) _ h3
    · split at e1
      · exact h.seqRmUnchecked e1
      · obtain ⟨st2, u2, -, e2⟩ := andThen_ok e1
        cases e2

theorem Plain.seqRmCell (h : st.Plain) {s cellIdx : Nat}
    (e : st.seqRmCell s cellIdx = (st', .ok ())) : st'.Plain := by
  unfold KvCache.seqRmCell at e
  split at e
  · have h1 := h.setCells (st.cfg.seqToStream s)
      ((h.cells (st.cfg.seqToStream s)).seqRmCell cellIdx s)
    dsimp only at e
    split at e
    · obtain ⟨st2, u2, e2, e⟩ := andThen_ok e
      cases e
      exact ((((h1.onTail e2).markIfIncomplete s).of_eq (.inl rfl) rfl :
        Plain (setHead _ _ _))).rebuildAllocationHead s
    · cases e
      exact h1
  · cases e

/-! ### Copies -/

theorem noShift_cpCell (src dst : Nat) (p0 p1 : Int) (c : KvCells) (i : Nat) (h : c.NoShift) :
    (KvCache.cpCell src dst p0 p1 c i).1.NoShift := by
  unfold cpCell
  split
  · exact h.seqAdd i dst
  · exact h

theorem noShift_copyCell {source c : KvCells} (hs : source.NoShift) (hc : c.NoShift)
    (dst i : Nat) : (KvCache.copyCell source dst c i).NoShift := by
  unfold copyCell
  dsimp only
  rw [if_neg (not_not_intro (hs i))]
  exact ((hc.posSet i _).seqAdd i dst).extSet i _

theorem noShift_copyCells {source dest : KvCells} (hs : source.NoShift) (src dst : Nat) :
    (KvCache.copyCells source dest src dst).NoShift := by
  refine NoShift.foldl (fun c i hc => ?_) _ (fun i => rfl)
  split
  · exact noShift_copyCell hs hc dst i
  · exact hc

/-- `seq_cp` leaves a copy of the tail to make, but no shift. -/
theorem Plain.seqCp_cells (h : st.Plain) {src dst : Nat}
    (e : st.seqCp src dst p0 p1 = (st', .ok ())) (x : Nat) : (st'.cells x).NoShift := by
  obtain ⟨st1, u1, e1, e⟩ := andThen_ok e
  have h1 := h.materialize e1
  split at e
  · split at e
    · obtain ⟨st2, u2, e2, e⟩ := andThen_ok e
      have hcells : st2.cells = st1.cells := queueTailCopies_cells e2
      split at e
      · cases e
        rw [hcells]
        exact h1.cells x
      · cases e
        rw [rebuildAllocationHead_cells, markIfIncomplete_cells]
        refine noShift_update (fun y => ?_) ?_ x
        · rw [hcells]
          exact h1.cells y
        · rw [hcells]
          exact (h1.cells _).sweep (noShift_cpCell src dst _ _)
    · split at e
      · obtain ⟨st2, u2, e2, e⟩ := andThen_ok e
        have hcells := queueTailCopies_cells e2
        cases e
        rw [rebuildAllocationHead_cells]
        show ((st2.markIfIncomplete dst).cells x).NoShift
        rw [markIfIncomplete_cells, hcells]
        exact noShift_update h1.cells (noShift_copyCells (h1.cells _) src dst) x
      · cases e
  · cases e

theorem Plain.seqKeep (h : st.Plain) {s : Nat} (e : st.seqKeep s = (st', .ok ())) : st'.Plain := by
  obtain ⟨st1, u1, e1, e⟩ := andThen_ok e
  split at e
  · obtain ⟨st2, u2, e2, e⟩ := andThen_ok e
    cases e
    exact (((h.materialize e1).onTail e2).sweepStream _
      fun c i hc => hc.seqKeep i s).rebuildAllocationHeads
  · cases e

theorem Plain.clear (h : st.Plain) (data : Bool) : (st.clear data).Plain where
  copies := rfl
  cells x := by
    show (if x < st.cfg.nStream then (st.cells x).reset else st.cells x).NoShift
    split
    · exact fun i => rfl
    · exact h.cells x

theorem Plain.update (h : st.Plain) (e : st.update = (st', .ok ())) : st'.Plain := by
  obtain ⟨st1, u1, e1, e⟩ := andThen_ok e
  have h1 := h.materialize e1
  split at e
  · cases e
    refine ⟨h1.copies, fun x => ?_⟩
    show (if x < st1.cfg.nStream then (st1.cells x).resetShift else st1.cells x).NoShift
    split
    · exact fun i => rfl
    · exact h1.cells x
  · cases e
    exact h1

/-! ## Ubatches -/

theorem Plain.recycleCell (h : st.Plain) (x idx : Nat) : (st.recycleCell x idx).Plain := by
  unfold KvCache.recycleCell
  split
  · exact h.of_eq (.inl rfl) rfl
  · exact h

theorem Plain.fillCell {c : KvCells} (h : c.NoShift) (is2d : Bool) (idx : Nat) (t : UToken) :
    (KvCache.fillCell is2d c idx t).NoShift := by
  have h1 : (if c.isEmpty idx then c else c.rm idx).NoShift := by
    split
    · exact h
    · exact h.rm idx
  unfold KvCache.fillCell
  dsimp only
  split
  · exact (h1.posSet idx _).extSet idx _
  · exact h1.posSet idx _

theorem Plain.addOwner (h : st.Plain) {p : Placement} {owner : Nat}
    (e : st.addOwner p owner = (st', .ok ())) : st'.Plain := by
  have h1 := h.setCells p.stream ((h.cells p.stream).seqAdd p.cell owner)
  unfold KvCache.addOwner at e
  dsimp only at e
  split at e <;> split at e
  · refine Plain.onTail ?_ e
    exact h1.of_eq (.inl rfl) rfl
  · cases e
    exact h1.of_eq (.inl rfl) rfl
  · refine Plain.onTail ?_ e
    exact h1.of_eq (.inl rfl) rfl
  · cases e
    exact h1

theorem Plain.addOwners {p : Placement} {owners : List Nat} (h : st.Plain)
    (e : st.addOwners p owners = (st', .ok ())) : st'.Plain := by
  induction owners generalizing st with
  | nil =>
    cases e
    exact h
  | cons s ss ih =>
    obtain ⟨st1, u1, e1, e⟩ := andThen_ok e
    exact ih (h.addOwner e1) e

theorem Plain.placeTokens {is2d : Bool} {ps : List Placement} {rm rm' : Nat → Int} (h : st.Plain)
    (e : placeTokens is2d ps st rm = (st', .ok rm')) : st'.Plain := by
  induction ps generalizing st rm with
  | nil =>
    cases e
    exact h
  | cons p ps ih =>
    obtain ⟨st1, u1, e1, e⟩ := andThen_ok e
    have h1 := h.recycleCell p.stream p.cell
    exact ih (Plain.addOwners (h1.setCells _ (Plain.fillCell (h1.cells p.stream) _ _ _)) e1) e

theorem Plain.purge {rm : Nat → Int} {seqs : List Nat} (h : st.Plain)
    (e : purge rm seqs st = (st', .ok ())) : st'.Plain := by
  induction seqs generalizing st with
  | nil =>
    cases e
    exact h
  | cons s ss ih =>
    obtain ⟨st1, u1, e1, e⟩ := andThen_ok e
    refine ih ?_ e
    unfold purgeSeq at e1
    split at e1
    · cases e1
      exact h
    · split at e1
      · dsimp only at e1
        split at e1
        · exact h.seqRmUnchecked e1
        · cases e1
          exact h
      · cases e1

theorem Plain.applyUbatch {i : SlotInfo} {u : Ubatch} (h : st.Plain)
    (e : st.applyUbatch i u = (st', .ok ())) : st'.Plain := by
  obtain ⟨st1, u1, e1, e⟩ := andThen_ok e
  obtain ⟨st2, rm, e2, e⟩ := andThen_ok e
  obtain ⟨st3, u3, e3, e⟩ := andThen_ok e
  cases e
  have h1 : st1.Plain := by
    unfold beginTail at e1
    split at e1
    · dsimp only at e1
      split at e1
      · refine Plain.onTail ?_ e1
        exact h.of_eq (.inl rfl) rfl
      · exact h.onTail e1
    · cases e1
      exact h
  refine Plain.foldl (fun st p hs => ?_) _ ((h1.placeTokens e2).purge e3)
  exact hs.of_eq (.inl rfl) rfl

theorem Plain.finishTailBatch {success payload : Bool} (h : st.Plain)
    (e : st.finishTailBatch success payload = (st', .ok ())) : st'.Plain := by
  unfold KvCache.finishTailBatch at e
  split at e
  · obtain ⟨st1, u1, e1, e⟩ := andThen_ok e
    cases e
    exact (h.onTail e1).of_eq (.inl rfl) rfl
  · cases e
    exact h

theorem Plain.findSlot {u : Ubatch} {r : Except KvError (Option SlotInfo)} (h : st.Plain)
    (e : st.findSlot u = (st', r)) : st'.Plain := by
  obtain ⟨sealed, rfl⟩ := findSlot_eq e
  exact h.of_eq (.inl rfl) rfl

theorem Plain.trial {states states' : List Saved} {b : Bool} (h : st.Plain)
    (e : trial us st states = (st', states', .ok b)) : st'.Plain := by
  induction us generalizing st states with
  | nil =>
    cases e
    exact h
  | cons u us ih =>
    unfold trial at e
    split at e
    · cases e
    · rename_i st1 e1
      cases e
      exact h.findSlot e1
    · rename_i st1 i e1
      split at e
      · cases e
      · rename_i st2 e2
        exact ih ((h.findSlot e1).applyUbatch e2) e

theorem Plain.restoreSaved (h : st.Plain) (s : Saved) : (st.restoreSaved s).Plain := by
  refine Plain.foldl (fun st p hs => ?_) _ h
  refine (hs.setCells p.1.1.1 ?_).of_eq (.inl rfl) rfl
  exact (hs.cells p.1.1.1).foldl (fun c j hc => hc.setCell _ _ j) _

theorem Plain.prepare {r : List SlotInfo} (h : st.Plain)
    (e : st.prepare us = (st', .ok r)) : st'.Plain := by
  unfold KvCache.prepare at e
  split at e
  · cases e
  · rename_i st1 states b e1
    have h0 : Plain { st with tailPreparing := true } := h.of_eq (.inl rfl) rfl
    have h1 := h0.trial e1
    dsimp only at e
    split at e
    · cases e
    · cases e
      exact Plain.foldl (fun st s hs => hs.restoreSaved s) _
        (h1.of_eq (.inl rfl) rfl : Plain { st1 with tailPreparing := false })

end

end KvCache
end BeeLlama
