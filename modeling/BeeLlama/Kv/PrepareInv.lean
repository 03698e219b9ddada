import BeeLlama.Kv.Prepare

/-!
# `prepare` and the invariant

The trial keeps the invariant of the cache, and so does the restore: the saved cells are well
formed, and none of them has a pending shift when it is restored (`Undoable`).

* `Inv.prepare`: `prepare` keeps the invariant.
* `Inv.prepare_restores`: a trial of harmless steps leaves the cells, the heads and the tail as
  they were.
-/

namespace BeeLlama.KvCache

open KvCells List

/-! ## The invariant -/

section Inv

variable {st st₁ st' : KvCache} {i : SlotInfo} {u : Ubatch}

/-- The purge gives no cell a pending shift. -/
theorem purge_shift {rm : Nat → Int} : ∀ {ss : List Nat} {st : KvCache}, st.Inv →
    KvCache.purge rm ss st = (st', .ok ()) → ∀ x j,
      (st'.cells x).shift j = (st.cells x).shift j ∨ (st'.cells x).shift j = 0 := by
  intro ss
  induction ss with
  | nil =>
    intro st _ e x j
    rw [(Prod.mk.inj e).1]
    exact .inl rfl
  | cons s ss ih =>
    intro st h e x j
    obtain ⟨st₁, a, e1, e2⟩ := andThen_ok e
    have h1 : (st₁.cells x).shift j = (st.cells x).shift j ∨ (st₁.cells x).shift j = 0 := by
      unfold KvCache.purgeSeq at e1
      split at e1
      · rw [(Prod.mk.inj e1).1]; exact .inl rfl
      · split at e1
        · dsimp only at e1
          split at e1
          · obtain ⟨_, _, _, _, _, rfl, -⟩ := seqRmUnchecked_eq e1
            by_cases ex : x = st.cfg.seqToStream s
            · subst ex
              dsimp only
              rw [Function.update_self, ← cell_shift,
                (rmSeq_sweep (h.cells (st.cfg.seqToStream s)).toCellsOk s _ _).2 j]
              split
              · unfold Cell.rmSeq
                split
                · exact erase_shift
                · exact .inl rfl
              · exact .inl rfl
            · dsimp only
              rw [Function.update_of_ne ex]
              exact .inl rfl
          · rw [(Prod.mk.inj e1).1]; exact .inl rfl
        · cases e1
    rcases ih (h.purgeSeq e1).1 e2 x j with e | e
    · rw [e]; exact h1
    · exact .inr e

/-- A placed ubatch leaves no pending shift on its cells and makes none. -/
theorem applyUbatch_shift (h : st.Inv) (hi : SlotOk st.cfg i u)
    (e : st.applyUbatch i u = (st', .ok ())) (x j : Nat) :
    ((st'.cells x).shift j = (st.cells x).shift j ∨ (st'.cells x).shift j = 0) ∧
      (Named (i.placements u) x j → (st'.cells x).shift j = 0) := by
  obtain ⟨st₁, a1, e1, e⟩ := andThen_ok e
  obtain ⟨h1, hcfg1, hcells₁⟩ := h.beginTail e1
  obtain ⟨st2, rm, e2, e⟩ := andThen_ok e
  obtain ⟨ha, -⟩ := placeTokens_applied e2
  have hi1 : SlotOk st₁.cfg i u := by rw [hcfg1]; exact hi
  have h2 := h1.of_applied hi1 ha
  obtain ⟨st3, a3, e3, e⟩ := andThen_ok e
  cases e
  obtain ⟨heads, eh⟩ := moveHeads_eq st3 i
  rw [eh]
  dsimp only
  have h3 := purge_shift h2 e3 x j
  rw [ha.cells_eq] at h3
  by_cases hn : Named (i.placements u) x j
  · obtain ⟨p, -, -, -, k, hk⟩ := placeCells_mem u.isPos2d hi1 h1.cells hn
    have h0 : (placeCells u.isPos2d (i.placements u) st₁.cells x).shift j = 0 := by
      rw [← cell_shift, hk]; rfl
    rw [h0, or_self] at h3
    exact ⟨.inr h3, fun _ => h3⟩
  · have hs : (placeCells u.isPos2d (i.placements u) st₁.cells x).shift j =
        (st.cells x).shift j := by
      rw [← hcells₁]
      exact congrArg Cell.shift (placeCells_of_notMem u.isPos2d hi1 h1.cells hn)
    rw [hs] at h3
    exact ⟨h3, fun hn' => absurd hn' hn⟩

/-- A saved state of the trial, for the cache `st`: its cells have no pending shift. -/
def Undoable (st : KvCache) (s : Saved) : Prop :=
  ∃ saved i u, s = KvCache.save saved i ∧ saved.Inv ∧ saved.cfg = st.cfg ∧ SlotFound saved i u ∧
    ∀ x j, (x, j) ∈ i.cells → (st.cells x).shift j = 0

theorem Undoable.of_shift {s : Saved} (h : Undoable st s) (hcfg : st'.cfg = st.cfg)
    (hs : ∀ x j, (st'.cells x).shift j = (st.cells x).shift j ∨ (st'.cells x).shift j = 0) :
    Undoable st' s := by
  obtain ⟨saved, i, u, e, hi, hc, hf, hz⟩ := h
  refine ⟨saved, i, u, e, hi, hc.trans hcfg.symm, hf, fun x j hj => ?_⟩
  rcases hs x j with e' | e'
  · rw [e', hz x j hj]
  · exact e'

theorem restoreSaved_cfg (st' st : KvCache) (i : SlotInfo) :
    (st'.restoreSaved (st.save i)).cfg = st'.cfg := by
  rw [restoreSaved_eq]
  generalize (i.strm.zip i.idxs).zipIdx = L
  induction L generalizing st' with
  | nil => rfl
  | cons b L ih => exact ih _

theorem Inv.restoreSaved {s : Saved} (h : st.Inv) (hs : Undoable st s) :
    (st.restoreSaved s).Inv ∧ (st.restoreSaved s).cfg = st.cfg ∧
      ∀ x j, ((st.restoreSaved s).cells x).shift j = (st.cells x).shift j := by
  obtain ⟨saved, i, u, rfl, hi, hcfg, hf, hz⟩ := hs
  have hc := restoreSaved_cfg st saved i
  have hfst : (i.strm.zip i.idxs).map (·.1) = i.strm := map_fst_zip hf.idxs.ge
  have hmem : ∀ x j, (∃ b ∈ i.strm.zip i.idxs, b.1 = x ∧ j ∈ b.2) → (x, j) ∈ i.cells := by
    rintro x j ⟨b, hb, rfl, hj⟩
    exact mem_flatMap.mpr ⟨b, hb, mem_map_of_mem hj⟩
  rw [restoreSaved_eq] at hc ⊢
  obtain ⟨h1, h2, -, -, h5⟩ := restoreBlocks_spec saved (fun x => (hi.cells x).toInv)
    (i.strm.zip i.idxs) 0 st (fun x => (h.cells x).toInv) (by rw [hfst]; exact hf.strm)
    fun b hb j hj => by
      rw [(h.cells b.1).size, ← hcfg]
      exact hf.lt b.1 j (hmem b.1 j ⟨b, hb, rfl, hj⟩)
  have hshift : ∀ x j, (((i.strm.zip i.idxs).zipIdx.foldl (restoreBlock saved) st).cells x).shift j
      = (st.cells x).shift j := fun x j => by
    rw [← cell_shift, h2 x j]
    split <;> rfl
  refine ⟨⟨fun x => ⟨⟨(h1 x).1, ?_, fun j => ?_, fun j hj => ?_⟩, fun j s hs => ?_⟩, ?_⟩, hc,
    hshift⟩
  · rw [(h1 x).2.1, hc]; exact (h.cells x).size
  · rw [h2 x j]
    split
    · next hb =>
      exact ⟨((hi.cells x).ok j).nonneg, fun _ => hz x j (hmem x j hb)⟩
    · exact (h.cells x).ok j
  · rw [hc] at hj
    rw [← cell_pos, h2 x j]
    split
    · exact (hi.cells x).out j (by rw [hcfg]; exact hj)
    · exact (h.cells x).out j hj
  · rw [hc]
    rw [← cell_seq, h2 x j] at hs
    split at hs
    · rw [← hcfg]; exact (hi.cells x).stream j s hs
    · exact (h.cells x).stream j s hs
  · rw [h5]; exact h.tail

theorem Inv.restoreAll : ∀ {states : List Saved} {st : KvCache}, st.Inv →
    (∀ s ∈ states, Undoable st s) →
    (states.foldl KvCache.restoreSaved st).Inv ∧
      (states.foldl KvCache.restoreSaved st).cfg = st.cfg := by
  intro states
  induction states with
  | nil => exact fun h _ => ⟨h, rfl⟩
  | cons s states ih =>
    intro st h hs
    obtain ⟨h1, hcfg, hshift⟩ := h.restoreSaved (hs s (by simp))
    obtain ⟨h2, hcfg2⟩ := ih h1 fun r hr =>
      (hs r (by simp [hr])).of_shift hcfg fun x j => .inl (hshift x j)
    exact ⟨h2, hcfg2.trans hcfg⟩

theorem Inv.trial {states' : List Saved} {r : Bool} :
    ∀ {us : List Ubatch} {st : KvCache} {states : List Saved}, st.Inv →
    (∀ u ∈ us, u.Ok st.cfg) → (∀ s ∈ states, Undoable st s) →
    KvCache.trial us st states = (st', states', .ok r) →
    st'.Inv ∧ st'.cfg = st.cfg ∧ ∀ s ∈ states', Undoable st' s := by
  intro us
  induction us with
  | nil =>
    intro st states hi _ hs e
    obtain ⟨rfl, e'⟩ := Prod.mk.inj e
    cases e'
    exact ⟨hi, rfl, hs⟩
  | cons u us ih =>
    intro st states hi hus hs e
    unfold KvCache.trial at e
    split at e
    · cases e
    · next st₁ ef =>
      obtain ⟨rfl, e'⟩ := Prod.mk.inj e
      cases e'
      obtain ⟨sealed, rfl⟩ := findSlot_eq ef
      exact ⟨⟨hi.cells, hi.tail⟩, rfl, hs⟩
    · next st₁ i ef =>
      obtain ⟨⟨sealed, rfl⟩, hf⟩ := findSlot_ok hi (hus u (by simp)) ef
      have hi1 : ({ st with allocationGroupSealed := sealed } : KvCache).Inv := ⟨hi.cells, hi.tail⟩
      split at e
      · cases e
      · next st2 ea =>
        obtain ⟨hi2, hcfg⟩ := hi1.applyUbatch hf.ok ea
        have hsh := applyUbatch_shift hi1 hf.ok ea
        obtain ⟨h', hcfg', hs'⟩ := ih hi2 (fun v hv => by rw [hcfg]; exact hus v (by simp [hv]))
          (fun s hs1 => by
            rcases mem_cons.mp hs1 with rfl | hs1
            · exact ⟨_, i, u, rfl, hi1, hcfg.symm,
                ⟨hf.ok, hf.strm, hf.idxs, hf.nodup, hf.length, hf.lt, hf.one⟩,
                fun x j hj => (hsh x j).2 (hf.named hj)⟩
            · exact (hs s hs1).of_shift hcfg fun x j => (hsh x j).1) e
        exact ⟨h', hcfg'.trans hcfg, hs'⟩

variable {us : List Ubatch} {r : List SlotInfo}

/-- What `prepare` returns with: a trial and the restore of what it saved. -/
theorem prepare_ok (e : st.prepare us = (st', .ok r)) : ∃ st₁ states success,
      KvCache.trial us { st with tailPreparing := true } [] = (st₁, states, .ok success) ∧
      st' = states.foldl KvCache.restoreSaved { st₁ with tailPreparing := false } ∧
      r = if success then (states.map (·.sinfo)).reverse else [] := by
  unfold KvCache.prepare at e
  split at e
  · cases e
  · next st₁ states success et =>
    dsimp only at e
    split at e
    · cases e
    · obtain ⟨rfl, e'⟩ := Prod.mk.inj e
      exact ⟨st₁, states, success, et, rfl, (Except.ok.inj e').symm⟩

theorem Inv.prepare (h : st.Inv) (hus : ∀ u ∈ us, u.Ok st.cfg) (e : st.prepare us = (st', .ok r)) :
    st'.Inv ∧ st'.cfg = st.cfg := by
  obtain ⟨st₁, states, success, et, rfl, -⟩ := prepare_ok e
  have h0 : ({ st with tailPreparing := true } : KvCache).Inv := ⟨h.cells, h.tail⟩
  obtain ⟨h1, hcfg, hs⟩ := h0.trial hus (by simp) et
  have h1' : ({ st₁ with tailPreparing := false } : KvCache).Inv := ⟨h1.cells, h1.tail⟩
  obtain ⟨h2, hcfg2⟩ := h1'.restoreAll hs
  exact ⟨h2, hcfg2.trans hcfg⟩

end Inv

end BeeLlama.KvCache
