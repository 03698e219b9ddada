import BeeLlama.Kv.CacheRun

/-!
# A failed search of the structured allocator

A structured search takes empty cells only, so that its trial overwrites nothing and the cells and
the heads come back (`structured_harmless`). The allocation heads of the sequences and the flags
of the sealed groups are not saved. `KeepsFlags` is the condition under which a search writes no
other flag, `TrialKeeps` the one under which the trial of `prepare` also moves no allocation head.
-/

namespace BeeLlama.KvCache

open KvCells List SearchState KvCache

/-! ## The flags of the sealed groups -/

/-- No token that the search places completes a group after the first one. -/
def SearchState.Incomplete (cfg : CacheCfg) (c : KvCells) (oneSeq : Bool) :
    List UToken → SearchState → Prop
  | [], _ => True
  | t :: ts, a => ∀ idx,
      ((cellsFrom c.size (a.heads (t.seqIds.foldl min (t.seqIds.headD 0)))).find? fun idx =>
        a.usable cfg c oneSeq (ts.length + 1) t idx) = some idx →
      (idx / cfg.allocationGroupSize = 0 ∨
        a.groupUsed (idx / cfg.allocationGroupSize) + 1 < cfg.allocationGroupSize) ∧
      SearchState.Incomplete cfg c oneSeq ts (a.take cfg oneSeq (ts.length + 1) t idx)

/-- The search for the ubatch writes no other flag: an empty group is not sealed and a complete
one is, and no group is completed. -/
structure KeepsFlags (st : KvCache) (u : Ubatch) : Prop where
  length : st.allocationGroupSealed.length = st.cfg.nGroups
  empty : ∀ g, 0 < g → g < st.cfg.nGroups → groupUsed st.cfg (st.cells 0) g = 0 →
    st.allocationGroupSealed[g]? = some false
  full : ∀ g, 0 < g → g < st.cfg.nGroups →
    st.cfg.allocationGroupSize ≤ groupUsed st.cfg (st.cells 0) g →
    st.allocationGroupSealed[g]? = some true
  search : ∀ a, SearchState.seed st.cfg (st.cells 0) st.allocationSeqHeads
    st.allocationGroupSealed = (a, .ok ()) →
      SearchState.Incomplete st.cfg (st.cells 0) u.oneSeq u.tokens a

section Flags

variable {cfg : CacheCfg} {c : KvCells} {oneSeq : Bool} {a a' : SearchState}

theorem set_eq_self {l : List Bool} {g : Nat} {b : Bool} (h : l[g]? = some b) : l.set g b = l := by
  obtain ⟨hg, rfl⟩ := List.getElem?_eq_some_iff.mp h
  exact List.set_getElem_self hg

theorem SearchState.seedGroup_sealed (cfg : CacheCfg) {g : Nat}
    (he : a.groupUsed g = 0 → a.sealed[g]? = some false)
    (hf : cfg.allocationGroupSize ≤ a.groupUsed g → a.sealed[g]? = some true) :
    (a.seedGroup cfg g).1.sealed = a.sealed ∧ (a.seedGroup cfg g).1.groupUsed = a.groupUsed := by
  unfold seedGroup
  split
  · next h => exact ⟨set_eq_self (he h), rfl⟩
  · split
    · next h => exact ⟨set_eq_self (hf h), rfl⟩
    · split
      · exact ⟨rfl, rfl⟩
      · dsimp only
        split <;> exact ⟨rfl, rfl⟩

theorem SearchState.seedGroups_sealed : ∀ {gs : List Nat} {a : SearchState},
    (∀ g ∈ gs, a.groupUsed g = 0 → a.sealed[g]? = some false) →
    (∀ g ∈ gs, cfg.allocationGroupSize ≤ a.groupUsed g → a.sealed[g]? = some true) →
    (SearchState.seedGroups cfg gs a).1.sealed = a.sealed := by
  intro gs
  induction gs with
  | nil => exact fun _ _ => rfl
  | cons g gs ih =>
    intro a he hf
    obtain ⟨hs, hu⟩ := seedGroup_sealed cfg (he g (by simp)) (hf g (by simp))
    unfold seedGroups
    split
    · next e => rw [e] at hs; exact hs
    · next a1 e =>
      rw [e] at hs hu
      rw [← hs]
      refine ih (fun g' hg' => ?_) fun g' hg' => ?_
      · rw [hs, hu]; exact he g' (by simp [hg'])
      · rw [hs, hu]; exact hf g' (by simp [hg'])

theorem SearchState.placeAll_sealed : ∀ {ts : List UToken} {a : SearchState},
    SearchState.Incomplete cfg c oneSeq ts a →
    (a.placeAll cfg c oneSeq ts).1.sealed = a.sealed := by
  intro ts
  induction ts with
  | nil => exact fun _ => rfl
  | cons t ts ih =>
    intro a h
    unfold placeAll
    split
    · rfl
    · split
      · rfl
      · split
        · rfl
        · next a1 e =>
          obtain ⟨idx, hf, rfl⟩ := Option.map_eq_some_iff.mp e
          obtain ⟨hg, hrest⟩ := h idx hf
          rw [ih hrest]
          unfold take
          dsimp only
          rw [if_neg]
          simp only [decide_eq_true_eq, not_and]
          intro h1 h2
          omega

theorem KeepsFlags.searchStructured {st : KvCache} {u : Ubatch} (h : st.KeepsFlags u) :
    (st.searchStructured u).1.sealed = st.allocationGroupSealed := by
  have hseed : (seed st.cfg (st.cells 0) st.allocationSeqHeads
      st.allocationGroupSealed).1.sealed = st.allocationGroupSealed := by
    unfold seed
    have hlen : (if st.allocationGroupSealed.length ≠ st.cfg.nGroups then
        List.replicate st.cfg.nGroups false else st.allocationGroupSealed) =
        st.allocationGroupSealed := if_neg fun hne => hne h.length
    have hmem : ∀ g ∈ (List.range st.cfg.nGroups).tail, 0 < g ∧ g < st.cfg.nGroups := by
      intro g hg
      rw [range_eq_range', tail_range'] at hg
      simp only [mem_range'_1] at hg
      omega
    rw [seedGroups_sealed, hlen]
    · intro g hg hu
      rw [hlen]
      exact h.empty g (hmem g hg).1 (hmem g hg).2 hu
    · intro g hg hu
      rw [hlen]
      exact h.full g (hmem g hg).1 (hmem g hg).2 hu
  unfold KvCache.searchStructured
  split
  · next e => rw [e] at hseed; exact hseed
  · next a e =>
    rw [e] at hseed
    rw [placeAll_sealed (h.search a e)]
    exact hseed

/-- The search leaves the whole cache as it was. -/
theorem KeepsFlags.findSlot {st st' : KvCache} {u : Ubatch} {r : Except KvError (Option SlotInfo)}
    (h : st.KeepsFlags u) (e : st.findSlot u = (st', r)) : st' = st := by
  have hs := h.searchStructured
  unfold KvCache.findSlot at e
  split at e
  · unfold findSlotStructured at e
    dsimp only at e
    rw [hs] at e
    split at e <;> exact (Prod.mk.inj e).1.symm
  · exact (Prod.mk.inj e).1.symm

end Flags

/-! ## The cells -/

section Cells

variable {st st₁ st₂ st' : KvCache} {i : SlotInfo} {u : Ubatch}

/-- A structured search returns empty cells of stream `0`. -/
theorem findSlot_structured (hs : st.cfg.structured = true)
    (e : st.findSlot u = (st₁, .ok (some i))) :
    i.strm = [0] ∧ ∀ x j, (x, j) ∈ i.cells → x = 0 ∧ (st.cells 0).pos j = -1 := by
  unfold findSlot at e
  rw [if_pos hs] at e
  unfold findSlotStructured at e
  dsimp only at e
  split at e
  · cases e
  · cases e
  · next hr =>
    obtain rfl := Option.some.inj (Except.ok.inj (Prod.mk.inj e).2)
    obtain ⟨hf, -⟩ := searchStructured_found (a := (st.searchStructured u).1) (Prod.ext rfl hr)
    refine ⟨rfl, fun x j hm => ?_⟩
    have hm' : j ∈ (st.searchStructured u).1.idxs ∧ 0 = x := by simpa [SlotInfo.cells] using hm
    have := hf.empty j hm'.1
    exact ⟨hm'.2.symm, by simpa [KvCells.isEmpty] using this⟩

/-- A placed structured ubatch moves the allocation heads of its owners, and no flag. -/
theorem applyUbatch_alloc (h : st.Inv) (hf : SlotFound st i u)
    (hempty : ∀ x j, (x, j) ∈ i.cells → (st.cells x).pos j = -1) (hp : st.tailPreparing = true)
    (e : st.applyUbatch i u = (st', .ok ())) :
    st'.allocationSeqHeads = placeHeads st.cfg (i.placements u) st.allocationSeqHeads ∧
      st'.allocationGroupSealed = st.allocationGroupSealed ∧ st'.tailPreparing = true := by
  have hl : st.tailLive = false := by simp [tailLive, hp]
  obtain ⟨st₁, a1, e1, e⟩ := andThen_ok e
  have h1 : st₁ = st := by
    unfold beginTail at e1
    rw [if_neg (by simp [hl])] at e1
    exact (Prod.mk.inj e1).1.symm
  rw [h1] at e
  obtain ⟨st₂, rm, e2, e⟩ := andThen_ok e
  obtain ⟨ha, hrm⟩ := placeTokens_applied e2
  obtain ⟨st3, a3, e3, e⟩ := andThen_ok e
  cases e
  -- No occupied cell was overwritten.
  have hnone : ∀ s, rm s ≠ -1 → rm s < (st₂.cells (st₂.cfg.seqToStream s)).seqPosMin s := by
    intro s hs
    obtain ⟨j, hj, hmem, -⟩ := noted h hf hrm hs
    exact absurd (hempty _ _ hj) ((h.cells _).toInv.pos_ne_of_mem hmem)
  rw [purge_skip hnone e3]
  obtain ⟨heads, eh⟩ := moveHeads_eq st₂ i
  rw [eh]
  obtain ⟨_, _, _, rfl⟩ := ha.eq
  exact ⟨rfl, rfl, hp⟩

end Cells

/-! ## The trial -/

/-- No search of the trial writes another flag, and no ubatch that finds room moves the allocation
head of an owner. -/
def TrialKeeps : List Ubatch → KvCache → Prop
  | [], _ => True
  | u :: us, st => st.KeepsFlags u ∧ ∀ st₁ i, st.findSlot u = (st₁, .ok (some i)) →
      placeHeads st.cfg (i.placements u) st.allocationSeqHeads = st.allocationSeqHeads ∧
      ∀ st₂, st₁.applyUbatch i u = (st₂, .ok ()) → TrialKeeps us st₂

section Trial

variable {st' : KvCache}

theorem TrialKeeps.trial {states' : List Saved} {r : Bool} :
    ∀ {us : List Ubatch} {st : KvCache} {states : List Saved}, st.Inv →
    st.cfg.structured = true → st.tailPreparing = true → (∀ u ∈ us, u.Ok st.cfg) →
    TrialKeeps us st → KvCache.trial us st states = (st', states', .ok r) →
    st'.allocationSeqHeads = st.allocationSeqHeads ∧
      st'.allocationGroupSealed = st.allocationGroupSealed := by
  intro us
  induction us with
  | nil =>
    intro st states _ _ _ _ _ e
    rw [(Prod.mk.inj e).1]
    exact ⟨rfl, rfl⟩
  | cons u us ih =>
    intro st states h hs hp hus hk e
    obtain ⟨hkf, hk⟩ := hk
    unfold KvCache.trial at e
    split at e
    · cases e
    · next st₁ ef =>
      rw [← (Prod.mk.inj e).1, hkf.findSlot ef]
      exact ⟨rfl, rfl⟩
    · next st₁ i ef =>
      obtain ⟨hheads, hk⟩ := hk st₁ i ef
      obtain ⟨-, hf⟩ := findSlot_ok h (hus u (by simp)) ef
      have hempty : ∀ x j, (x, j) ∈ i.cells → (st.cells x).pos j = -1 := fun x j hm => by
        obtain ⟨rfl, hj⟩ := (findSlot_structured hs ef).2 x j hm
        exact hj
      rw [hkf.findSlot ef] at e hk
      split at e
      · cases e
      · next st₂ ea =>
        obtain ⟨ha, hseal, hp2⟩ := applyUbatch_alloc h hf hempty hp ea
        obtain ⟨h2, hcfg⟩ := h.applyUbatch hf.ok ea
        obtain ⟨ha', hs'⟩ := ih h2 (by rw [hcfg]; exact hs) hp2
          (fun v hv => by rw [hcfg]; exact hus v (by simp [hv])) (hk st₂ ea) e
        exact ⟨ha'.trans (ha.trans hheads), hs'.trans hseal⟩

end Trial

/-- What the structured allocator reads is as it was, and so is what it answers. -/
structure AllocUnchanged (st st' : KvCache) : Prop where
  cells : st'.cells = st.cells
  heads : st'.heads = st.heads
  allocationSeqHeads : st'.allocationSeqHeads = st.allocationSeqHeads
  allocationGroupSealed : st'.allocationGroupSealed = st.allocationGroupSealed
  findSlot : ∀ v, (st'.findSlot v).2 = (st.findSlot v).2
  usesStage : ∀ cell, st'.allocationCellUsesStage cell = st.allocationCellUsesStage cell

theorem AllocUnchanged.of_eq {st st' : KvCache} (hcfg : st'.cfg = st.cfg)
    (hc : st'.cells = st.cells) (hh : st'.heads = st.heads)
    (ha : st'.allocationSeqHeads = st.allocationSeqHeads)
    (hs : st'.allocationGroupSealed = st.allocationGroupSealed) : AllocUnchanged st st' := by
  refine ⟨hc, hh, ha, hs, fun v => ?_, fun cell => ?_⟩
  · obtain ⟨⟩ := st
    subst hcfg hc hh ha hs
    unfold KvCache.findSlot
    split
    · unfold findSlotStructured searchStructured
      dsimp only
      split <;> split <;> simp_all
    · rfl
  · unfold allocationCellUsesStage
    rw [hcfg, ha]

/-- A structured cache of two groups of two cells, with one stage slot besides that of group `0`. -/
def twoGroups : KvCache :=
  create { nSeqMax := 1, nStream := 1, kvSize := 4, allocationGroupSize := 2 } none

/-- A ubatch of `n` tokens of sequence `0` from position `p` on. -/
def tokens (n : Nat) (p : Int) : Ubatch :=
  ⟨(List.range n).map fun (k : Nat) => ⟨p + k, {}, [0]⟩, [0], false⟩

end BeeLlama.KvCache
