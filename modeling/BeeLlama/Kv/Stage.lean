import BeeLlama.Kv.AllocTrial

/-!
# The stage slots of a structured cache

A group that is partly filled and not sealed lives in an F16 stage slot, which its number
determines (`stageSlot`). The structured search takes no slot that another live group owns, but a
group that the rest of the ubatch completes takes none at all (`fills_here`).

* `seedGroups_spec`: if the live groups are apart, the search starts, and each of them owns its
  slot.
* `placeAll_owners`: along the search every live group owns its slot, or the next tokens complete
  it (`Filling`).
* `searchStructured_apart`: the groups are apart after the search.
-/

namespace BeeLlama

open List Function Nat

namespace KvCache

/-- The group lives in its stage slot: partly filled and not sealed. -/
structure Live (cfg : CacheCfg) (used : Nat → Nat) (sealed : List Bool) (g : Nat) : Prop where
  pos : 1 ≤ g
  lt : g < cfg.nGroups
  used_pos : 0 < used g
  used_lt : used g < cfg.allocationGroupSize
  sealed_eq : sealed.getD g false = false

/-- No two live groups share a stage slot. -/
def Apart (cfg : CacheCfg) (used : Nat → Nat) (sealed : List Bool) : Prop :=
  ∀ g h, Live cfg used sealed g → Live cfg used sealed h → cfg.stageSlot g = cfg.stageSlot h → g = h

/-- A full group is sealed. -/
def FullSealed (cfg : CacheCfg) (used : Nat → Nat) (sealed : List Bool) : Prop :=
  ∀ g, 1 ≤ g → g < cfg.nGroups → cfg.allocationGroupSize ≤ used g → sealed.getD g false = true

theorem getD_set {l : List Bool} {i j : Nat} {b : Bool} (hi : i < l.length) :
    (l.set i b).getD j false = if j = i then b else l.getD j false := by
  rw [getD_eq_getElem?_getD, getElem?_set]
  by_cases h : i = j
  · subst h
    rw [if_pos rfl, if_pos hi, if_pos rfl, Option.getD_some]
  · rw [if_neg h, if_neg (fun h' => h h'.symm), getD_eq_getElem?_getD]

theorem stageSlot_pos {cfg : CacheCfg} {g : Nat} (hg : 1 ≤ g) : cfg.stageSlot g ≠ 0 := by
  unfold CacheCfg.stageSlot
  rw [if_neg (by omega)]
  omega

/-! ## The seed -/

section Seed

variable {cfg : CacheCfg}

/-- What the seed of the groups `gs` does. -/
structure SeedStep (cfg : CacheCfg) (a a' : SearchState) (gs : List Nat) : Prop where
  heads : a'.heads = a.heads
  reserved : a'.reserved = a.reserved
  used : a'.groupUsed = a.groupUsed
  claim : a'.groupClaim = a.groupClaim
  idxs : a'.idxs = a.idxs
  length : a'.sealed.length = a.sealed.length
  /-- A flag of another group stays. -/
  sealed_of_notMem : ∀ g, g ∉ gs → a'.sealed.getD g false = a.sealed.getD g false
  /-- The flag of a partly filled group stays. -/
  sealed_of_part : ∀ g, 0 < a.groupUsed g → a.groupUsed g < cfg.allocationGroupSize →
    a'.sealed.getD g false = a.sealed.getD g false
  full : ∀ g ∈ gs, cfg.allocationGroupSize ≤ a.groupUsed g → 0 < a.groupUsed g →
    a'.sealed.getD g false = true

theorem SeedStep.live_iff {a a' : SearchState} {gs : List Nat}
    (h : SeedStep cfg a a' gs) (g : Nat) :
    Live cfg a'.groupUsed a'.sealed g ↔ Live cfg a.groupUsed a.sealed g := by
  rw [h.used]
  constructor
  · exact fun hl => ⟨hl.pos, hl.lt, hl.used_pos, hl.used_lt,
      (h.sealed_of_part g hl.used_pos hl.used_lt).symm.trans hl.sealed_eq⟩
  · exact fun hl => ⟨hl.pos, hl.lt, hl.used_pos, hl.used_lt,
      (h.sealed_of_part g hl.used_pos hl.used_lt).trans hl.sealed_eq⟩

theorem SeedStep.refl (a : SearchState) : SeedStep cfg a a [] :=
  ⟨rfl, rfl, rfl, rfl, rfl, rfl, fun _ _ => rfl, fun _ _ _ => rfl, fun _ h => absurd h not_mem_nil⟩

theorem SeedStep.cons {a a₁ a' : SearchState} {g : Nat} {gs : List Nat} (hn : g ∉ gs)
    (h : SeedStep cfg a a₁ [g]) (h' : SeedStep cfg a₁ a' gs) : SeedStep cfg a a' (g :: gs) where
  heads := h'.heads.trans h.heads
  reserved := h'.reserved.trans h.reserved
  used := h'.used.trans h.used
  claim := h'.claim.trans h.claim
  idxs := h'.idxs.trans h.idxs
  length := h'.length.trans h.length
  sealed_of_notMem k hk := by
    rw [mem_cons, not_or] at hk
    rw [h'.sealed_of_notMem k hk.2, h.sealed_of_notMem k (by rw [mem_singleton]; exact hk.1)]
  sealed_of_part k hp hl := by
    rw [h'.sealed_of_part k (by rwa [h.used]) (by rwa [h.used]), h.sealed_of_part k hp hl]
  full k hk hfull hp := by
    rcases mem_cons.mp hk with rfl | hk
    · rw [h'.sealed_of_notMem k hn]
      exact h.full k (mem_singleton.mpr rfl) hfull hp
    · exact h'.full k hk (by rwa [h.used]) (by rwa [h.used])

/-- The owners of the slots are live, or group `0`. -/
def OwnersLive (cfg : CacheCfg) (a : SearchState) : Prop :=
  ∀ slot g, a.stageOwners slot = some g →
    slot = cfg.stageSlot g ∧ (g = 0 ∨ Live cfg a.groupUsed a.sealed g)

theorem seedGroup_step (a : SearchState) {g : Nat} (hgl : g < a.sealed.length) :
    SeedStep cfg a (a.seedGroup cfg g).1 [g] := by
  have hset : ∀ b : Bool, (b = true ∨ a.groupUsed g = 0) →
      (a.groupUsed g = 0 ∨ cfg.allocationGroupSize ≤ a.groupUsed g) →
      SeedStep cfg a { a with sealed := a.sealed.set g b } [g] := by
    intro b hb hu
    refine ⟨rfl, rfl, rfl, rfl, rfl, length_set, fun k hk => ?_, fun k hp hl => ?_,
      fun k hk _ hp => ?_⟩
    · rw [mem_singleton] at hk
      rw [getD_set hgl, if_neg hk]
    · rw [getD_set hgl, if_neg]
      rintro rfl
      omega
    · rw [mem_singleton.mp hk] at hp ⊢
      rw [getD_set hgl, if_pos rfl]
      exact hb.resolve_right (by omega)
  unfold SearchState.seedGroup
  split
  · next h0 => exact hset false (.inr h0) (.inl h0)
  split
  · next hfull => exact hset true (.inl rfl) (.inr hfull)
  have hid : ∀ owners, SeedStep cfg a { a with stageOwners := owners } [g] := fun owners =>
    ⟨rfl, rfl, rfl, rfl, rfl, rfl, fun _ _ => rfl, fun _ _ _ => rfl, fun k hk hf hp => by
        rw [mem_singleton.mp hk] at hf
        omega⟩
  split
  · exact hid a.stageOwners
  · dsimp only
    split
    · exact hid a.stageOwners
    · exact hid _

theorem seedGroup_spec {a : SearchState} {g : Nat} (hg : 1 ≤ g) (hlt : g < cfg.nGroups)
    (hlen : a.sealed.length = cfg.nGroups) (hap : Apart cfg a.groupUsed a.sealed)
    (ho : OwnersLive cfg a) :
    (a.seedGroup cfg g).2 = .ok () ∧ SeedStep cfg a (a.seedGroup cfg g).1 [g] ∧
      OwnersLive cfg (a.seedGroup cfg g).1 ∧
      (Live cfg a.groupUsed a.sealed g →
        (a.seedGroup cfg g).1.stageOwners (cfg.stageSlot g) = some g) ∧
      ∀ h, a.stageOwners (cfg.stageSlot h) = some h →
        (a.seedGroup cfg g).1.stageOwners (cfg.stageSlot h) = some h := by
  have hstep : SeedStep cfg a (a.seedGroup cfg g).1 [g] := seedGroup_step a (hlen ▸ hlt)
  -- The owners of a seed that writes a flag only.
  have hkeep : (a.seedGroup cfg g).1.stageOwners = a.stageOwners →
      OwnersLive cfg (a.seedGroup cfg g).1 := by
    intro e slot k hk
    rw [e] at hk
    exact ⟨(ho slot k hk).1, (ho slot k hk).2.imp_right (hstep.live_iff k).mpr⟩
  revert hstep hkeep
  unfold SearchState.seedGroup
  split
  · next h0 =>
    intro hstep hkeep
    exact ⟨rfl, hstep, hkeep rfl, fun hl => absurd hl.used_pos (by omega), fun _ h => h⟩
  split
  · next h0 hfull =>
    intro hstep hkeep
    exact ⟨rfl, hstep, hkeep rfl, fun hl => absurd hl.used_lt (by omega), fun _ h => h⟩
  split
  · next hs =>
    intro hstep hkeep
    exact ⟨rfl, hstep, ho, fun hl => absurd hl.sealed_eq (by rw [hs]; decide), fun _ h => h⟩
  · next h0 hfull hs =>
    intro hstep _
    have hl : Live cfg a.groupUsed a.sealed g :=
      ⟨hg, hlt, by omega, by omega, Bool.eq_false_of_not_eq_true hs⟩
    -- Another owner of the slot would be a live group.
    have hown : ∀ k, a.stageOwners (cfg.stageSlot g) = some k → k = g := by
      intro k hk
      obtain ⟨hslot, hk' | hk'⟩ := ho _ k hk
      · rw [hk'] at hslot
        exact absurd hslot (stageSlot_pos hg)
      · exact (hap g k hl hk' hslot).symm
    have hnone : ((a.stageOwners (cfg.stageSlot g)).any fun k => decide (k ≠ g)) = false := by
      rw [Option.any_eq_false]
      exact fun k hk => by simpa using hown k hk
    dsimp only at hstep ⊢
    rw [hnone, if_neg Bool.false_ne_true] at hstep ⊢
    refine ⟨rfl, hstep, fun slot k hk => ?_, fun _ => update_self _ _ _, fun k hk => ?_⟩
    · dsimp only at hk
      rw [update_apply] at hk
      split at hk
      · next hslot =>
        cases hk
        exact ⟨hslot, .inr hl⟩
      · exact ho slot k hk
    · dsimp only
      rw [update_apply]
      split
      · next hslot =>
        rw [hslot] at hk
        rw [hown k hk]
      · exact hk

/-- A seed that returns writes the flags of the empty and of the full groups. -/
theorem seedGroups_step : ∀ {gs : List Nat} {a a' : SearchState}, gs.Nodup →
    (∀ g ∈ gs, g < a.sealed.length) → SearchState.seedGroups cfg gs a = (a', .ok ()) →
    SeedStep cfg a a' gs ∧ ∀ g ∈ gs, a.groupUsed g = 0 → a'.sealed.getD g false = false := by
  intro gs
  induction gs with
  | nil =>
    intro a a' _ _ e
    cases e
    exact ⟨SeedStep.refl a, fun _ h => absurd h not_mem_nil⟩
  | cons g gs ih =>
    intro a a' hnd hlt e
    obtain ⟨hn, hnd⟩ := nodup_cons.mp hnd
    have hstep : SeedStep cfg a (a.seedGroup cfg g).1 [g] := seedGroup_step a (hlt g mem_cons_self)
    have hempty : a.groupUsed g = 0 → (a.seedGroup cfg g).1.sealed.getD g false = false := by
      intro h0
      unfold SearchState.seedGroup
      rw [if_pos h0, getD_set (hlt g mem_cons_self), if_pos rfl]
    unfold SearchState.seedGroups at e
    split at e
    · cases e
    · next a1 e1 =>
      rw [e1] at hstep hempty
      obtain ⟨hstep', hempty'⟩ := ih hnd (fun k hk => hstep.length ▸ hlt k (mem_cons_of_mem g hk)) e
      refine ⟨.cons hn hstep hstep', fun k hk h0 => ?_⟩
      rcases mem_cons.mp hk with rfl | hk
      · exact (hstep'.sealed_of_notMem k hn).trans (hempty h0)
      · exact hempty' k hk (hstep.used ▸ h0)

/-- If the live groups are apart the seed returns, and each live group owns its slot. -/
theorem seedGroups_spec : ∀ {gs : List Nat} {a : SearchState}, gs.Nodup →
    (∀ g ∈ gs, 1 ≤ g ∧ g < cfg.nGroups) → a.sealed.length = cfg.nGroups →
    Apart cfg a.groupUsed a.sealed → OwnersLive cfg a →
    ∃ a', SearchState.seedGroups cfg gs a = (a', .ok ()) ∧ SeedStep cfg a a' gs ∧
      OwnersLive cfg a' ∧
      (∀ g ∈ gs, Live cfg a.groupUsed a.sealed g → a'.stageOwners (cfg.stageSlot g) = some g) ∧
      ∀ h, a.stageOwners (cfg.stageSlot h) = some h →
        a'.stageOwners (cfg.stageSlot h) = some h := by
  intro gs
  induction gs with
  | nil =>
    intro a _ _ _ _ ho
    exact ⟨a, rfl, SeedStep.refl a, ho, fun _ h => absurd h not_mem_nil, fun _ h => h⟩
  | cons g gs ih =>
    intro a hnd hgs hlen hap ho
    obtain ⟨hn, hnd⟩ := nodup_cons.mp hnd
    obtain ⟨hg, hlt⟩ := hgs g mem_cons_self
    obtain ⟨hok, hstep, ho1, hself, hkeep⟩ := seedGroup_spec hg hlt hlen hap ho
    have hap1 : Apart cfg (a.seedGroup cfg g).1.groupUsed (a.seedGroup cfg g).1.sealed :=
      fun k k' hk hk' => hap k k' ((hstep.live_iff k).mp hk) ((hstep.live_iff k').mp hk')
    obtain ⟨a', e, hstep', ho', hself', hkeep'⟩ := ih hnd
      (fun k hk => hgs k (mem_cons_of_mem g hk)) (hstep.length.trans hlen) hap1 ho1
    refine ⟨a', ?_, SeedStep.cons hn hstep hstep', ho', fun k hk hl => ?_,
      fun k hk => hkeep' k (hkeep k hk)⟩
    · unfold SearchState.seedGroups
      rw [show a.seedGroup cfg g = ((a.seedGroup cfg g).1, .ok ()) from Prod.ext rfl hok]
      exact e
    · rcases mem_cons.mp hk with rfl | hk
      · exact hkeep' k (hself hl)
      · exact hself' k hk ((hstep.live_iff k).mpr hl)

end Seed

/-! ## The state of the search -/

section Search

variable {cfg : CacheCfg} {c : KvCells} {oneSeq : Bool}

/-- The structured configuration: groups of at least two cells that divide the cells. -/
structure Grouped (cfg : CacheCfg) (c : KvCells) : Prop where
  size : c.size = cfg.kvSize
  group : 1 < cfg.allocationGroupSize
  dvd : cfg.kvSize % cfg.allocationGroupSize = 0

theorem Grouped.group_lt (h : Grouped cfg c) {i : Nat} (hi : i < c.size) :
    i / cfg.allocationGroupSize < cfg.nGroups := by
  refine Nat.div_lt_of_lt_mul ?_
  have hmul := div_add_mod cfg.kvSize cfg.allocationGroupSize
  rw [h.dvd, Nat.add_zero] at hmul
  unfold CacheCfg.nGroups
  rwa [hmul, ← h.size]

theorem Grouped.cell_lt (h : Grouped cfg c) {g k : Nat} (hg : g < cfg.nGroups)
    (hk : k < cfg.allocationGroupSize) : g * cfg.allocationGroupSize + k < c.size := by
  have hmul := div_add_mod cfg.kvSize cfg.allocationGroupSize
  rw [h.dvd, Nat.add_zero] at hmul
  have hle : (g + 1) * cfg.allocationGroupSize ≤ cfg.nGroups * cfg.allocationGroupSize :=
    Nat.mul_le_mul_right _ hg
  unfold CacheCfg.nGroups at hle
  rw [Nat.mul_comm (cfg.kvSize / _), hmul, Nat.add_mul, Nat.one_mul] at hle
  rw [h.size]
  omega

theorem mem_groupCells {g i : Nat} (hg : 0 < cfg.allocationGroupSize) :
    i ∈ groupCells cfg g ↔ i / cfg.allocationGroupSize = g := by
  unfold groupCells
  rw [mem_map]
  constructor
  · rintro ⟨k, hk, rfl⟩
    rw [Nat.mul_comm, mul_add_div hg, div_eq_of_lt (mem_range.mp hk), Nat.add_zero]
  · rintro rfl
    refine ⟨i % cfg.allocationGroupSize, mem_range.mpr (mod_lt i hg), ?_⟩
    rw [Nat.mul_comm]
    exact div_add_mod i cfg.allocationGroupSize

theorem groupCells_length (g : Nat) : (groupCells cfg g).length = cfg.allocationGroupSize := by
  unfold groupCells
  rw [length_map, length_range]

theorem groupCells_nodup (g : Nat) : (groupCells cfg g).Nodup := by
  unfold groupCells
  exact nodup_range.map fun _ _ h => Nat.add_left_cancel h

/-- One more item of a list has the property. -/
theorem countP_update {p : Nat → Bool} {l : List Nat} (hnd : l.Nodup) {x : Nat} (hx : x ∈ l)
    (hp : p x = false) {q : Nat → Bool} (hq : ∀ i, q i = (p i || decide (i = x))) :
    l.countP q = l.countP p + 1 := by
  obtain ⟨l1, l2, rfl⟩ := append_of_mem hx
  have hn := nodup_middle.mp hnd
  rw [nodup_cons, mem_append, not_or] at hn
  have hsame : ∀ l : List Nat, x ∉ l → l.countP q = l.countP p := fun l hl =>
    countP_congr fun i hi => by
      have hne : i ≠ x := fun e => hl (e ▸ hi)
      rw [hq, decide_eq_false hne, Bool.or_false]
  rw [countP_append, countP_append, countP_cons_of_pos (by rw [hq]; simp),
    countP_cons_of_neg (by rw [hp]; decide), hsame l1 hn.1.1, hsame l2 hn.1.2]
  omega

/-- The rest of the ubatch completes the group: the next tokens of its only sequence go to the
rest of its cells, one after the other. -/
structure Filling (cfg : CacheCfg) (c : KvCells) (oneSeq : Bool) (ts : List UToken)
    (a : SearchState)
    (g : Nat) : Prop where
  oneSeq : oneSeq = true
  lt : g < cfg.nGroups
  used : a.groupUsed g < cfg.allocationGroupSize
  left : cfg.allocationGroupSize ≤ a.groupUsed g + ts.length
  empty : ∀ i ∈ groupCells cfg g, c.isEmpty i = true
  free : ∀ k, a.groupUsed g ≤ k → k < cfg.allocationGroupSize →
    a.reserved (g * cfg.allocationGroupSize + k) = false
  next : ∃ s, (∀ t ∈ ts, t.seqIds = [s]) ∧
    a.heads s = g * cfg.allocationGroupSize + a.groupUsed g ∧
      ∃ r, a.groupClaim g = some r ∧ r.seqIds = [s]

/-- What holds along the search. -/
structure SearchInv (cfg : CacheCfg) (c : KvCells) (oneSeq : Bool) (ts : List UToken)
    (a : SearchState) : Prop where
  length : a.sealed.length = cfg.nGroups
  /-- A group holds its occupied cells and the ones of this call. -/
  used : ∀ g, a.groupUsed g = (groupCells cfg g).countP fun i => !c.isEmpty i || a.reserved i
  reserved : ∀ i, a.reserved i = true ↔ i ∈ a.idxs
  full : FullSealed cfg a.groupUsed a.sealed
  one : oneSeq = true → ∃ s, ∀ t ∈ ts, t.seqIds = [s]
  owner : ∀ g, Live cfg a.groupUsed a.sealed g →
    a.stageOwners (cfg.stageSlot g) = some g ∨ Filling cfg c oneSeq ts a g

variable {ts : List UToken} {t : UToken} {a a' : SearchState}

/-- The fields after a token took a cell. -/
theorem take_used (left idx g : Nat) : (a.take cfg oneSeq left t idx).groupUsed g =
    if g = idx / cfg.allocationGroupSize then a.groupUsed (idx / cfg.allocationGroupSize) + 1
    else a.groupUsed g := update_apply _ _ _ _

theorem take_sealed {left idx : Nat}
    (hlt : idx / cfg.allocationGroupSize < a.sealed.length) (g : Nat) :
    (a.take cfg oneSeq left t idx).sealed.getD g false =
      if g = idx / cfg.allocationGroupSize ∧ 0 < g ∧ a.groupUsed g + 1 = cfg.allocationGroupSize
      then true else a.sealed.getD g false := by
  unfold SearchState.take
  dsimp only
  by_cases hc : a.groupUsed (idx / cfg.allocationGroupSize) + 1 = cfg.allocationGroupSize ∧
      idx / cfg.allocationGroupSize > 0
  · rw [if_pos (decide_eq_true hc), getD_set hlt]
    by_cases hg : g = idx / cfg.allocationGroupSize
    · rw [if_pos hg, if_pos ⟨hg, by rw [hg]; exact hc.2, by rw [hg]; exact hc.1⟩]
    · rw [if_neg hg, if_neg (fun h => hg h.1)]
  · rw [if_neg (fun h => hc (of_decide_eq_true h)), if_neg]
    rintro ⟨hg, h0, hf⟩
    rw [hg] at h0 hf
    exact hc ⟨hf, h0⟩

/-- A group that is complete leaves the slots of the other groups. -/
theorem release_owner {owners : Nat → Option Nat} {completes : Bool} {slot g g' : Nat}
    (hne : g ≠ g')
    (ho : owners slot = some g) (k : Nat) :
    (if completes = true ∧ owners k = some g' then Function.update owners k none else owners) slot =
      some g := by
  split
  · next hc =>
    rw [update_apply]
    split
    · next hslot =>
      rw [hslot, hc.2] at ho
      exact absurd (Option.some.inj ho).symm hne
    · exact ho
  · exact ho

/-- The slot of another group keeps its owner, unless the new group takes it. -/
theorem take_owner {left idx g : Nat} (hne : g ≠ idx / cfg.allocationGroupSize)
    (ho : a.stageOwners (cfg.stageSlot g) = some g)
    (hfree : a.groupUsed (idx / cfg.allocationGroupSize) = 0 →
      SearchState.fillsHere cfg oneSeq left idx = false →
        cfg.stageSlot g ≠ cfg.stageSlot (idx / cfg.allocationGroupSize)) :
    (a.take cfg oneSeq left t idx).stageOwners (cfg.stageSlot g) = some g := by
  refine release_owner hne ?_ _
  split
  · next h => rw [update_of_ne (hfree h.1 h.2), ho]
  · exact ho

/-- A new group that the ubatch does not complete takes its slot; the group of a token that does not
complete it keeps it. -/
theorem take_owner_self {left idx : Nat} (ho : a.groupUsed (idx / cfg.allocationGroupSize) = 0 ∧
        SearchState.fillsHere cfg oneSeq left idx = false ∨
      a.stageOwners (cfg.stageSlot (idx / cfg.allocationGroupSize)) =
        some (idx / cfg.allocationGroupSize))
    (hn : a.groupUsed (idx / cfg.allocationGroupSize) + 1 ≠ cfg.allocationGroupSize) :
    (a.take cfg oneSeq left t idx).stageOwners (cfg.stageSlot (idx / cfg.allocationGroupSize)) =
      some (idx / cfg.allocationGroupSize) := by
  unfold SearchState.take
  dsimp only
  rw [if_neg (fun h => hn (of_decide_eq_true h.1).1)]
  split
  · exact update_self _ _ _
  · next h => exact ho.resolve_left h

/-! ### One token -/

theorem sameSeqSet_one {r : UToken} {s : Nat} (h : r.sameSeqSet t = true) (ht : t.seqIds = [s]) :
    r.seqIds = [s] := by
  unfold UToken.sameSeqSet at h
  rw [ht, Bool.and_eq_true, beq_iff_eq, length_singleton, length_eq_one_iff] at h
  obtain ⟨⟨x, hx⟩, hall⟩ := h
  rw [hx] at hall ⊢
  simpa using hall

theorem sameSeqSet_of_one {r : UToken} {s : Nat} (hr : r.seqIds = [s]) (ht : t.seqIds = [s]) :
    r.sameSeqSet t = true := by
  unfold UToken.sameSeqSet
  rw [hr, ht]
  simp

/-- What a usable cell is. -/
theorem usable_iff {left idx : Nat} : a.usable cfg c oneSeq left t idx = true ↔
    a.reserved idx = false ∧ c.isEmpty idx = true ∧
    (∀ r, a.groupClaim (idx / cfg.allocationGroupSize) = some r → r.sameSeqSet t = true) ∧
    SearchState.compatible cfg c t (idx / cfg.allocationGroupSize) = true ∧
    (0 < idx / cfg.allocationGroupSize → 0 < a.groupUsed (idx / cfg.allocationGroupSize) →
      a.groupUsed (idx / cfg.allocationGroupSize) < cfg.allocationGroupSize →
        a.sealed.getD (idx / cfg.allocationGroupSize) false = false) ∧
    (a.groupUsed (idx / cfg.allocationGroupSize) = 0 →
      SearchState.fillsHere cfg oneSeq left idx = false →
        ∀ g, a.stageOwners (cfg.stageSlot (idx / cfg.allocationGroupSize)) = some g →
          g = idx / cfg.allocationGroupSize) := by
  unfold SearchState.usable
  simp only [Bool.and_eq_true, Bool.not_eq_true', Option.all_eq_true, Bool.and_eq_false_iff,
    decide_eq_false_iff_not, and_assoc, Bool.not_eq_false', Option.any_eq_false, not_not]
  generalize idx / cfg.allocationGroupSize = g
  refine and_congr_right fun _ => and_congr_right fun _ => and_congr_right fun _ =>
    and_congr_right fun _ => and_congr ?_ ?_
  · rw [← imp_iff_not_or, and_imp, and_imp]
  · cases SearchState.fillsHere cfg oneSeq left idx with
    | true => simp
    | false =>
      rw [or_iff_left (show ¬ (false = true) by decide), ← imp_iff_not_or]
      exact ⟨fun h hu _ => h hu, fun h hu => h hu rfl⟩

/-- The search for a token starts with the cell at the head. -/
theorem place_first {left s : Nat} (ht : t.seqIds = [s]) (hlt : a.heads s < c.size)
    (hu : a.usable cfg c oneSeq left t (a.heads s) = true) :
    a.place cfg c oneSeq left t = some (a.take cfg oneSeq left t (a.heads s)) := by
  unfold SearchState.place SearchState.cellsFrom
  rw [ht]
  obtain ⟨n, hn⟩ : ∃ n, c.size = n + 1 := ⟨c.size - 1, by omega⟩
  simp only [headD_cons, foldl_cons, foldl_nil, min_self]
  rw [if_neg (Nat.not_le.mpr hlt), hn, range_succ_eq_map, map_cons, Nat.add_zero,
    mod_eq_of_lt (hn ▸ hlt), find?_cons_of_pos hu, Option.map_some]

/-- The next token goes to the group that the ubatch fills. -/
theorem Filling.place_eq {g : Nat} (hG : Grouped cfg c) (h : Filling cfg c oneSeq (t :: ts) a g)
    (hl : Live cfg a.groupUsed a.sealed g) (left : Nat) :
    a.place cfg c oneSeq left t =
      some (a.take cfg oneSeq left t (g * cfg.allocationGroupSize + a.groupUsed g)) := by
  have hg := hG.group
  obtain ⟨s, hts, hhead, r, hr, hrs⟩ := h.next
  have ht := hts t mem_cons_self
  have hdiv : (g * cfg.allocationGroupSize + a.groupUsed g) / cfg.allocationGroupSize = g := by
    rw [Nat.mul_comm, mul_add_div (by omega), div_eq_of_lt h.used, Nat.add_zero]
  rw [← hhead]
  refine place_first ht ?_ (usable_iff.mpr ?_)
  · rw [hhead]
    exact hG.cell_lt h.lt h.used
  · rw [hhead, hdiv]
    refine ⟨h.free _ (Nat.le_refl _) h.used, h.empty _ ((mem_groupCells (by omega)).mpr hdiv),
      fun r' hr' => ?_, ?_, fun _ _ _ => hl.sealed_eq, fun h0 => absurd hl.used_pos (by omega)⟩
    · rw [hr] at hr'
      exact sameSeqSet_of_one (Option.some.inj hr' ▸ hrs) ht
    · unfold SearchState.compatible
      exact all_eq_true.mpr fun i hi => by rw [h.empty i hi, Bool.true_or]

/-- A group holds its occupied cells and the ones of this call. -/
def Counted (cfg : CacheCfg) (c : KvCells) (a : SearchState) : Prop :=
  ∀ g, a.groupUsed g = (groupCells cfg g).countP fun i => !c.isEmpty i || a.reserved i

section Place

variable (hG : Grouped cfg c) (h : Counted cfg c a) {idx : Nat}
  (hu : a.usable cfg c oneSeq (ts.length + 1) t idx = true)

include hG h hu

/-- The group of a usable cell has room. -/
theorem Counted.used_lt :
    a.groupUsed (idx / cfg.allocationGroupSize) < cfg.allocationGroupSize := by
  have hg := hG.group
  obtain ⟨hr, he, -⟩ := usable_iff.mp hu
  have hlen : (groupCells cfg (idx / cfg.allocationGroupSize)).length =
    cfg.allocationGroupSize := groupCells_length _
  rw [h]
  refine lt_of_le_of_ne (countP_le_length.trans hlen.le) fun heq => ?_
  have hall := countP_eq_length.mp (heq.trans hlen.symm) idx ((mem_groupCells (by omega)).mpr rfl)
  rw [he, hr] at hall
  cases hall

theorem Counted.take : Counted cfg c (a.take cfg oneSeq (ts.length + 1) t idx) := by
  intro g
  have hg := hG.group
  obtain ⟨hr, he, -⟩ := usable_iff.mp hu
  have hq : ∀ i, (!c.isEmpty i || (a.take cfg oneSeq (ts.length + 1) t idx).reserved i) =
      ((!c.isEmpty i || a.reserved i) || decide (i = idx)) := by
    intro i
    show (!c.isEmpty i || Function.update a.reserved idx true i) = _
    rw [update_apply]
    by_cases hi : i = idx
    · rw [if_pos hi, decide_eq_true hi, Bool.or_true, Bool.or_true]
    · rw [if_neg hi, decide_eq_false hi, Bool.or_false]
  rw [take_used]
  by_cases hgi : g = idx / cfg.allocationGroupSize
  · rw [if_pos hgi, ← hgi, h]
    exact (countP_update (groupCells_nodup g) ((mem_groupCells (by omega)).mpr hgi.symm)
      (by rw [he, hr]; rfl) hq).symm
  · rw [if_neg hgi, h]
    refine countP_congr fun i hi => ?_
    have hne : i ≠ idx := fun e => hgi (by rw [← e]; exact ((mem_groupCells (by omega)).mp hi).symm)
    rw [hq, decide_eq_false hne, Bool.or_false]

/-- A group that begins at the cell and that the ubatch completes. -/
theorem Counted.starts (one : oneSeq = true → ∃ s, ∀ r ∈ t :: ts, r.seqIds = [s])
    (hlt : idx / cfg.allocationGroupSize < cfg.nGroups)
    (h0 : a.groupUsed (idx / cfg.allocationGroupSize) = 0)
    (hf : SearchState.fillsHere cfg oneSeq (ts.length + 1) idx = true) :
    Filling cfg c oneSeq ts (a.take cfg oneSeq (ts.length + 1) t idx)
      (idx / cfg.allocationGroupSize) := by
  have hg := hG.group
  obtain ⟨hr, he, hclaim, -⟩ := usable_iff.mp hu
  unfold SearchState.fillsHere at hf
  simp only [Bool.and_eq_true, decide_eq_true_eq] at hf
  obtain ⟨⟨⟨hone, hpos⟩, hmod⟩, hleft⟩ := hf
  obtain ⟨s, hs⟩ := one hone
  have hmul : idx / cfg.allocationGroupSize * cfg.allocationGroupSize = idx := by
    have := div_add_mod idx cfg.allocationGroupSize
    rw [hmod, Nat.add_zero, Nat.mul_comm] at this
    exact this
  have hused : (a.take cfg oneSeq (ts.length + 1) t idx).groupUsed
      (idx / cfg.allocationGroupSize) = 1 := by rw [take_used, if_pos rfl, h0]
  have hzero := h (idx / cfg.allocationGroupSize)
  rw [h0] at hzero
  have hfree : ∀ i ∈ groupCells cfg (idx / cfg.allocationGroupSize),
      c.isEmpty i = true ∧ a.reserved i = false := by
    intro i hi
    have := countP_eq_zero.mp hzero.symm i hi
    simpa [Bool.or_eq_false_iff] using this
  refine ⟨hone, hlt, by omega, by omega, fun i hi => (hfree i hi).1, fun k hk hk' => ?_, s,
    fun t' ht' => hs t' (mem_cons_of_mem t ht'), ?_, ?_⟩
  · show Function.update a.reserved idx true _ = false
    rw [update_of_ne (by omega)]
    refine (hfree _ ((mem_groupCells (by omega)).mpr ?_)).2
    rw [Nat.mul_comm, mul_add_div (by omega), div_eq_of_lt hk', Nat.add_zero]
  · rw [hused, hmul]
    show (if s ∈ t.seqIds then idx + 1 else a.heads s) = idx + 1
    rw [if_pos (by rw [hs t mem_cons_self]; exact mem_singleton.mpr rfl)]
  · refine ⟨_, update_self _ _ _, ?_⟩
    cases hc : a.groupClaim (idx / cfg.allocationGroupSize) with
    | none => exact hs t mem_cons_self
    | some r => exact sameSeqSet_one (hclaim r hc) (hs t mem_cons_self)

end Place

/-- A group that the ubatch fills is filled further. -/
theorem Filling.step {g : Nat} (hG : Grouped cfg c) (h : Filling cfg c oneSeq (t :: ts) a g)
    (hn : a.groupUsed g + 1 < cfg.allocationGroupSize) (left : Nat) :
    Filling cfg c oneSeq ts
      (a.take cfg oneSeq left t (g * cfg.allocationGroupSize + a.groupUsed g)) g := by
  have hleft := h.left
  rw [length_cons] at hleft
  obtain ⟨s, hts, hhead, r, hr, hrs⟩ := h.next
  have hdiv : (g * cfg.allocationGroupSize + a.groupUsed g) / cfg.allocationGroupSize = g := by
    rw [Nat.mul_comm, mul_add_div (by omega), div_eq_of_lt h.used, Nat.add_zero]
  have hused : (a.take cfg oneSeq left t (g * cfg.allocationGroupSize + a.groupUsed g)).groupUsed
      g = a.groupUsed g + 1 := by rw [take_used, hdiv, if_pos rfl]
  refine ⟨h.oneSeq, h.lt, by omega, by omega, h.empty, fun k hk hk' => ?_, s,
    fun t' ht' => hts t' (mem_cons_of_mem t ht'), ?_, r, ?_, hrs⟩
  · show Function.update a.reserved _ true _ = false
    rw [update_of_ne (by omega)]
    exact h.free k (by omega) hk'
  · rw [hused]
    show (if s ∈ t.seqIds then _ else a.heads s) = _
    rw [if_pos (by rw [hts t mem_cons_self]; exact mem_singleton.mpr rfl), Nat.add_assoc]
  · show Function.update a.groupClaim _ _ g = _
    rw [hdiv, update_self, hr]
    rfl

/-- The next token goes on with the group that is filled. -/
theorem Filling.idx_eq {g idx : Nat} (hG : Grouped cfg c) (h : Filling cfg c oneSeq (t :: ts) a g)
    (hl : Live cfg a.groupUsed a.sealed g) {left : Nat}
    (e : a.place cfg c oneSeq left t = some (a.take cfg oneSeq left t idx)) :
    idx = g * cfg.allocationGroupSize + a.groupUsed g ∧ idx / cfg.allocationGroupSize = g := by
  have hg := hG.group
  have heq := Option.some.inj (e.symm.trans (h.place_eq hG hl left))
  have hidx : a.idxs ++ [idx] = a.idxs ++ [g * cfg.allocationGroupSize + a.groupUsed g] :=
    congrArg SearchState.idxs heq
  have hidx := singleton_inj.mp (append_cancel_left hidx)
  refine ⟨hidx, ?_⟩
  rw [hidx, Nat.mul_comm, mul_add_div (by omega), div_eq_of_lt h.used, Nat.add_zero]

/-- The step of the search. -/
theorem SearchInv.place (hG : Grouped cfg c) (h : SearchInv cfg c oneSeq (t :: ts) a)
    (e : a.place cfg c oneSeq (ts.length + 1) t = some a') : SearchInv cfg c oneSeq ts a' := by
  obtain ⟨idx, hm, hu, rfl⟩ := SearchState.place_eq_some e
  have hlt := hG.group_lt (cellsFrom_lt hm)
  have hused := Counted.used_lt hG h.used hu
  obtain ⟨hr, -, -, -, hsealed, hslot⟩ := usable_iff.mp hu
  refine ⟨?_, Counted.take hG h.used hu, fun i => ?_, fun g h1 hgl hfull => ?_, fun ho => ?_,
    fun g hl => ?_⟩
  · show (if _ then _ else _ : List Bool).length = _
    split
    · rw [length_set, h.length]
    · exact h.length
  · show Function.update a.reserved idx true i = true ↔ i ∈ a.idxs ++ [idx]
    rw [update_apply, mem_append, mem_singleton, ← h.reserved]
    by_cases hi : i = idx
    · rw [if_pos hi]
      exact ⟨fun _ => .inr hi, fun _ => rfl⟩
    · rw [if_neg hi]
      exact ⟨.inl, fun h => h.resolve_right hi⟩
  · rw [take_sealed (h.length ▸ hlt)]
    rw [take_used] at hfull
    by_cases hgi : g = idx / cfg.allocationGroupSize
    · rw [if_pos hgi] at hfull
      rw [if_pos ⟨hgi, h1, by rw [hgi]; omega⟩]
    · rw [if_neg hgi] at hfull
      rw [if_neg (fun h => hgi h.1)]
      exact h.full g h1 hgl hfull
  · obtain ⟨s, hs⟩ := h.one ho
    exact ⟨s, fun t' ht' => hs t' (mem_cons_of_mem t ht')⟩
  · obtain ⟨hpos, hgl, hup, hul, hse⟩ := hl
    rw [take_used] at hup hul
    rw [take_sealed (h.length ▸ hlt)] at hse
    by_cases hgi : g = idx / cfg.allocationGroupSize
    · rw [if_pos hgi] at hup hul
      subst hgi
      by_cases h0 : a.groupUsed (idx / cfg.allocationGroupSize) = 0
      · cases hfh : SearchState.fillsHere cfg oneSeq (ts.length + 1) idx with
        | true => exact .inr (Counted.starts hG h.used hu h.one hlt h0 hfh)
        | false => exact .inl (take_owner_self (.inl ⟨h0, hfh⟩) (by omega))
      · have hl : Live cfg a.groupUsed a.sealed (idx / cfg.allocationGroupSize) :=
          ⟨hpos, hgl, by omega, hused, hsealed hpos (by omega) hused⟩
        rcases h.owner _ hl with ho | hf
        · exact .inl (take_owner_self (.inr ho) (by omega))
        · -- the cell of this token is the next one of the group that is filled
          have hidx := (hf.idx_eq hG hl e).1
          generalize idx / cfg.allocationGroupSize = g at hidx hf hul
          rw [hidx]
          exact .inr (hf.step hG hul _)
    · rw [if_neg hgi] at hup hul
      rw [if_neg (fun h => hgi h.1)] at hse
      have hl : Live cfg a.groupUsed a.sealed g := ⟨hpos, hgl, hup, hul, hse⟩
      rcases h.owner g hl with ho | hf
      · refine .inl (take_owner hgi ho fun h0 hfh heq => ?_)
        rw [heq] at ho
        exact hgi (hslot h0 hfh g ho)
      · exact absurd (hf.idx_eq hG hl e).2.symm hgi

/-- Along the search every live group owns its slot, or the rest of the ubatch completes it. -/
theorem SearchInv.placeAll (hG : Grouped cfg c) : ∀ {ts : List UToken} {a : SearchState},
    SearchInv cfg c oneSeq ts a → a.placeAll cfg c oneSeq ts = (a', .ok true) →
      SearchInv cfg c oneSeq [] a' := by
  intro ts
  induction ts with
  | nil =>
    intro a h e
    cases e
    exact h
  | cons t ts ih =>
    intro a h e
    unfold SearchState.placeAll at e
    split at e
    · cases e
    split at e
    · cases e
    split at e
    · cases e
    · next a1 e1 => exact ih (h.place hG e1) e

theorem placeAll_ne_stageAlias (ts : List UToken) {a : SearchState} :
    (a.placeAll cfg c oneSeq ts).2 ≠ .error .stageAlias := by
  induction ts generalizing a with
  | nil => exact fun h => (by cases h)
  | cons t ts ih =>
    unfold SearchState.placeAll
    split
    · exact fun h => (by cases h)
    split
    · exact fun h => (by cases h)
    split
    · exact fun h => (by cases h)
    · exact ih

/-- After the search the live groups are apart. -/
theorem SearchInv.apart (h : SearchInv cfg c oneSeq [] a) : Apart cfg a.groupUsed a.sealed := by
  have howner : ∀ g, Live cfg a.groupUsed a.sealed g →
      a.stageOwners (cfg.stageSlot g) = some g := by
    intro g hl
    refine (h.owner g hl).resolve_right fun hf => ?_
    have hleft := hf.left
    have hused := hf.used
    rw [length_nil] at hleft
    omega
  intro g g' hl hl' hslot
  have h1 := howner g hl
  rw [hslot, howner g' hl'] at h1
  exact (Option.some.inj h1).symm

end Search

/-! ## The search of the cache -/

theorem mem_range_tail {n g : Nat} : g ∈ (List.range n).tail ↔ 1 ≤ g ∧ g < n := by
  cases n with
  | zero => simp
  | succ n =>
    rw [range_succ_eq_map, tail_cons, mem_map]
    constructor
    · rintro ⟨k, hk, rfl⟩
      rw [mem_range] at hk
      omega
    · rintro ⟨h1, hn⟩
      exact ⟨g - 1, mem_range.mpr (by omega), by omega⟩

theorem oneSeq_spec {u : Ubatch} (h : u.oneSeq = true) : ∃ s, ∀ t ∈ u.tokens, t.seqIds = [s] := by
  unfold Ubatch.oneSeq at h
  cases hu : u.tokens with
  | nil => exact ⟨0, fun _ ht => absurd ht not_mem_nil⟩
  | cons t ts =>
    rw [hu] at h
    have hall : ∀ r ∈ t :: ts, r.seqIds.length = 1 ∧ r.seqIds = t.seqIds := by
      intro r hr
      have := all_eq_true.mp h r hr
      rwa [Bool.and_eq_true, beq_iff_eq, beq_iff_eq] at this
    obtain ⟨s, hs⟩ := length_eq_one_iff.mp (hall t mem_cons_self).1
    exact ⟨s, fun r hr => (hall r hr).2.trans hs⟩

/-- The flags of the sealed groups are there for all groups, or for none. -/
def SealedLength (st : KvCache) : Prop :=
  st.allocationGroupSealed = [] ∨ st.allocationGroupSealed.length = st.cfg.nGroups

/-- The live groups of the cache are apart. -/
def StageApart (st : KvCache) : Prop :=
  Apart st.cfg (groupUsed st.cfg (st.cells 0)) st.allocationGroupSealed

section Structured

variable {st : KvCache} {u : Ubatch}

/-- The variables of the search before the loop over the groups. -/
def searchStart (st : KvCache) : SearchState :=
  { heads := st.allocationSeqHeads
    groupUsed := groupUsed st.cfg (st.cells 0)
    stageOwners := fun slot => if slot = 0 ∧ (st.cells 0).isEmpty 0 = false then some 0 else none
    sealed := if st.allocationGroupSealed.length ≠ st.cfg.nGroups then
      List.replicate st.cfg.nGroups false else st.allocationGroupSealed }

theorem seed_searchStart (st : KvCache) : SearchState.seed st.cfg (st.cells 0)
    st.allocationSeqHeads st.allocationGroupSealed =
      SearchState.seedGroups st.cfg (List.range st.cfg.nGroups).tail st.searchStart := rfl

theorem searchStart_length (st : KvCache) : st.searchStart.sealed.length = st.cfg.nGroups := by
  unfold searchStart
  split
  · exact length_replicate
  · next h => exact not_not.mp h

/-- The flags that the search starts with are those of the cache. -/
theorem searchStart_flag (hlen : st.SealedLength) (g : Nat) :
    st.searchStart.sealed.getD g false = st.allocationGroupSealed.getD g false := by
  unfold searchStart
  split
  · next h =>
    rw [hlen.resolve_right h, getD_eq_getElem?_getD, getElem?_replicate]
    split <;> rfl
  · rfl

theorem seed_spec (hg : 1 < st.cfg.allocationGroupSize) (hlen : st.SealedLength)
    (hap : st.StageApart) :
    ∃ a, SearchState.seed st.cfg (st.cells 0) st.allocationSeqHeads st.allocationGroupSealed =
      (a, .ok ()) ∧ SearchInv st.cfg (st.cells 0) u.oneSeq u.tokens a := by
  have hlen' := searchStart_length st
  have hget := searchStart_flag hlen
  have hap' : Apart st.cfg st.searchStart.groupUsed st.searchStart.sealed := fun g h hl hl' =>
    hap g h ⟨hl.pos, hl.lt, hl.used_pos, hl.used_lt, (hget g).symm.trans hl.sealed_eq⟩
      ⟨hl'.pos, hl'.lt, hl'.used_pos, hl'.used_lt, (hget h).symm.trans hl'.sealed_eq⟩
  have howners : OwnersLive st.cfg st.searchStart := by
    intro slot g hs
    unfold searchStart at hs
    dsimp only at hs
    split at hs
    · next h =>
      cases hs
      exact ⟨h.1, .inl rfl⟩
    · cases hs
  obtain ⟨a, e, hstep, -, hself, -⟩ := seedGroups_spec
    (nodup_range.sublist (tail_sublist _)) (fun g hg => mem_range_tail.mp hg) hlen' hap'
    howners
  refine ⟨a, e, hstep.length.trans hlen', fun g => ?_, fun i => ?_, fun g h1 hgl hfull => ?_,
    oneSeq_spec, fun g hl => ?_⟩
  · rw [hstep.used, hstep.reserved]
    exact countP_congr fun i _ => by rw [searchStart, Bool.or_false]
  · rw [hstep.reserved, hstep.idxs]
    simp [searchStart]
  · rw [hstep.used] at hfull
    exact hstep.full g (mem_range_tail.mpr ⟨h1, hgl⟩) hfull (by omega)
  · exact .inl (hself g (mem_range_tail.mpr ⟨hl.pos, hl.lt⟩) ((hstep.live_iff g).mp hl))

/-- If the live groups are apart the search does not throw for a shared slot, and they are apart
after it. -/
theorem searchStructured_spec (hG : Grouped st.cfg (st.cells 0)) (hlen : st.SealedLength)
    (hap : st.StageApart) :
    (st.searchStructured u).2 ≠ .error .stageAlias ∧
      ∀ a, st.searchStructured u = (a, .ok true) → SearchInv st.cfg (st.cells 0) u.oneSeq [] a := by
  obtain ⟨a, e, h⟩ := seed_spec (u := u) hG.group hlen hap
  unfold searchStructured
  rw [e]
  refine ⟨fun hs => ?_, fun a' e' => h.placeAll hG e'⟩
  exact placeAll_ne_stageAlias _ hs

end Structured

end KvCache
end BeeLlama
