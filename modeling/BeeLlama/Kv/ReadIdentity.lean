import BeeLlama.Kv.ReadPlan

/-!
# The identity check (`compact_read_plan_is_identity`)

The check compares the entries with their places up to the first `-1`: behind it only padding is
expected. That is so in the dense form. In the aligned form a group whose last cells are not used
has padding at the end of its block, and the blocks behind it are not compared.

* `planIsIdentity_iff`: what the check has seen.
* `alignedPlan_direct_iff`: when all entries of the aligned form are their places.
* `identity_direct_iff`: the check implies it, unless it stops inside a block.
-/

namespace BeeLlama

open List Nat Int

/-- The loop of the check from entry `read` on. -/
def planIsIdentityFrom (read : Nat) : List Int → Bool
  | [] => true
  | v :: plan =>
    if v < 0 then true
    else if v ≠ (read : Int) then false
    else planIsIdentityFrom (read + 1) plan

/-- `compact_read_plan_is_identity`. -/
def compactReadPlanIsIdentity (plan : List Int) : Bool := planIsIdentityFrom 0 plan

/-- Every entry that is not padding is its own place. -/
def ReadsDirectly (plan : List Int) : Prop :=
  ∀ (j : Nat) (v : Int), plan[j]? = some v → 0 ≤ v → v = j

/-- The cells below `f` are used, and `f` is inside a group of which no cell from `f` on is. -/
def StopsInside (l : List Nat) (groupAlign f : Nat) : Prop :=
  f % groupAlign ≠ 0 ∧ (∀ c < f, c ∈ l) ∧ ∀ c, f ≤ c → c / groupAlign = f / groupAlign → c ∉ l

/-- The used cells of each touched group are its first ones, and the touched groups are the first
ones. -/
def NoGaps (l : List Nat) (groupAlign : Nat) : Prop :=
  ∀ c ∈ l, (c % groupAlign ≠ 0 → c - 1 ∈ l) ∧
    (groupAlign ≤ c → ∃ c' ∈ l, c' / groupAlign + 1 = c / groupAlign)

instance (l : List Nat) (groupAlign : Nat) : Decidable (NoGaps l groupAlign) :=
  inferInstanceAs (Decidable (∀ c ∈ l, _))

section Sorted

variable {l : List Nat} {a i x : Nat}

/-- Below an item without gaps the items of a sorted list are in their places. -/
theorem sorted_getElem? (h : l.Pairwise (· < ·)) (ha : ∀ y ∈ l, a ≤ y)
    (hx : ∀ y, a ≤ y → y ≤ x → y ∈ l) (hax : a ≤ x) : l[x - a]? = some x := by
  induction l generalizing a with
  | nil => exact absurd (hx x hax (Nat.le_refl x)) not_mem_nil
  | cons y l ih =>
    obtain ⟨hy, hl⟩ := pairwise_cons.mp h
    have hya : y = a := by
      rcases mem_cons.mp (hx a (Nat.le_refl a) hax) with h | h
      · exact h.symm
      · have := hy a h
        have := ha y mem_cons_self
        omega
    subst hya
    rcases Nat.eq_or_lt_of_le hax with rfl | hlt
    · rw [Nat.sub_self]
      rfl
    · rw [show x - y = x - (y + 1) + 1 by omega, getElem?_cons_succ]
      refine ih hl (fun z hz => hy z hz) (fun z hz hzx => ?_) hlt
      refine (mem_cons.mp (hx z (by omega) hzx)).resolve_left fun h => ?_
      omega

theorem sorted_index (h : l.Pairwise (· < ·)) (ha : ∀ y ∈ l, a ≤ y) (hi : l[i]? = some x)
    (hx : ∀ y, a ≤ y → y ≤ x → y ∈ l) : x = a + i := by
  have hax : a ≤ x := ha x (List.mem_of_getElem? hi)
  have hnd : l.Nodup := h.imp fun h => Nat.ne_of_lt h
  obtain ⟨hlt, -⟩ := List.getElem?_eq_some_iff.mp hi
  have := (getElem?_inj hlt hnd).mp (hi.trans (sorted_getElem? h ha hx hax).symm)
  omega

end Sorted

section Check

variable {plan : List Int}

theorem planIsIdentityFrom_iff {read : Nat} : planIsIdentityFrom read plan = true ↔
    ∃ n, (∀ j < n, plan[j]? = some ((read + j : Nat) : Int)) ∧ ∀ v, plan[n]? = some v → v < 0 := by
  induction plan generalizing read with
  | nil => exact ⟨fun _ => ⟨0, by simp, by simp⟩, fun _ => rfl⟩
  | cons x plan ih =>
    rw [planIsIdentityFrom]
    by_cases hx : x < 0
    · rw [if_pos hx]
      exact ⟨fun _ => ⟨0, by simp, fun v hv => Option.some.inj hv ▸ hx⟩, fun _ => rfl⟩
    · rw [if_neg hx]
      by_cases hr : x = read
      · rw [if_neg (not_not.mpr hr), ih]
        constructor
        · rintro ⟨n, hn, hend⟩
          refine ⟨n + 1, fun j hj => ?_, hend⟩
          cases j with
          | zero => rw [hr]; rfl
          | succ j => rw [getElem?_cons_succ, hn j (by omega)]; congr 2; omega
        · rintro ⟨n, hn, hend⟩
          cases n with
          | zero => exact absurd (hend x rfl) hx
          | succ n =>
            refine ⟨n, fun j hj => ?_, hend⟩
            rw [← getElem?_cons_succ (a := x), hn (j + 1) (by omega)]
            congr 2
            omega
      · rw [if_pos hr]
        refine ⟨fun h => absurd h Bool.false_ne_true, ?_⟩
        rintro ⟨n, hn, hend⟩
        cases n with
        | zero => exact absurd (hend x rfl) hx
        | succ n => exact absurd (Option.some.inj (hn 0 (succ_pos n))) hr

/-- The check has compared the entries up to the first `-1`. -/
theorem planIsIdentity_iff : compactReadPlanIsIdentity plan = true ↔
    ∃ n, (∀ j < n, plan[j]? = some ((j : Nat) : Int)) ∧ ∀ v, plan[n]? = some v → v < 0 := by
  rw [compactReadPlanIsIdentity, planIsIdentityFrom_iff]
  simp only [Nat.zero_add]

end Check

/-! ## The aligned form -/

section Blocks

variable {l groups : List Nat} {groupAlign i g : Nat} {plan : List Int}

/-- The entries of a block, one by one. -/
theorem GroupBlocks.entries (h : GroupBlocks l groupAlign plan groups) (hi : groups[i]? = some g) :
    ∃ members : List Nat, members.Pairwise (· < ·) ∧
      (∀ c, c ∈ members ↔ c ∈ l ∧ c / groupAlign = g) ∧ members.length ≤ groupAlign ∧
      (∀ r x, members[r]? = some x → plan[i * groupAlign + r]? = some (Int.ofNat x)) ∧
      ∀ r, members.length ≤ r → r < groupAlign → plan[i * groupAlign + r]? = some (-1) := by
  obtain ⟨members, hs, hmem, hblock⟩ := h.block i g hi
  have hlen : members.length ≤ groupAlign := by
    have := length_take_le groupAlign (plan.drop (i * groupAlign))
    rw [hblock, length_append, length_map] at this
    omega
  have hget : ∀ r < groupAlign, plan[i * groupAlign + r]? =
      (members.map Int.ofNat ++ List.replicate (groupAlign - members.length) (-1))[r]? := by
    intro r hr
    rw [← hblock, List.getElem?_take_of_lt hr, List.getElem?_drop]
  refine ⟨members, hs, hmem, hlen, fun r x hx => ?_, fun r hle hr => ?_⟩
  · obtain ⟨hr, -⟩ := List.getElem?_eq_some_iff.mp hx
    rw [hget r (by omega), getElem?_append_left (by rwa [length_map]),
      getElem?_map, hx]
    rfl
  · rw [hget r hr, getElem?_append_right (by rwa [length_map]), length_map,
      getElem?_replicate, if_pos (by omega)]

/-- A touched group has a first cell. -/
theorem GroupBlocks.first (h : GroupBlocks l groupAlign plan groups)
    (hi : groups[i]? = some g) : ∃ x ∈ l, x / groupAlign = g ∧
      plan[i * groupAlign]? = some (Int.ofNat x) := by
  obtain ⟨members, -, hmem, -, hget, -⟩ := h.entries hi
  obtain ⟨c, hc, hcg⟩ := (h.touched g).mp (mem_of_getElem? hi)
  have hpos := length_pos_of_mem ((hmem c).mpr ⟨hc, hcg⟩)
  have h0 := getElem?_eq_getElem hpos
  obtain ⟨hx, hxg⟩ := (hmem _).mp (getElem_mem hpos)
  exact ⟨_, hx, hxg, by simpa using hget 0 _ h0⟩

/-- Without gaps the touched groups are the first ones. -/
theorem GroupBlocks.group_eq (h : GroupBlocks l groupAlign plan groups)
    (hgap : NoGaps l groupAlign) {i g : Nat} (hi : groups[i]? = some g) : g = i := by
  have hgroups : ∀ d ≤ g, g - d ∈ groups := by
    intro d
    induction d with
    | zero => exact fun _ => mem_of_getElem? hi
    | succ d ih =>
      intro hd
      obtain ⟨c, hc, hcg⟩ := (h.touched _).mp (ih (by omega))
      have hle : groupAlign ≤ c := by
        by_contra hn
        rw [div_eq_of_lt (Nat.not_le.mp hn)] at hcg
        omega
      obtain ⟨c', hc', hcg'⟩ := (hgap c hc).2 hle
      exact (h.touched _).mpr ⟨c', hc', by omega⟩
  have := sorted_index h.sorted (fun y _ => Nat.zero_le y) hi fun y _ hy => by
    have := hgroups (g - y) (sub_le g y)
    rwa [Nat.sub_sub_self hy] at this
  omega

/-- Without gaps the cells of a group up to a used one are used. -/
theorem NoGaps.down (hgap : NoGaps l groupAlign) (hA : 0 < groupAlign) {x : Nat} (hx : x ∈ l) :
    ∀ d ≤ x % groupAlign, x - d ∈ l ∧ (x - d) / groupAlign = x / groupAlign := by
  intro d
  induction d with
  | zero => exact fun _ => ⟨hx, rfl⟩
  | succ d ih =>
    intro hd
    obtain ⟨hm, hq⟩ := ih (by omega)
    have hx' := div_add_mod' x groupAlign
    have hrem : (x - d) % groupAlign ≠ 0 := by
      have := div_add_mod' (x - d) groupAlign
      rw [hq] at this
      omega
    refine ⟨(hgap _ hm).1 hrem, ?_⟩
    rw [Nat.div_eq_iff hA]
    have := mod_lt x hA
    omega

/-- Without gaps every entry is its place. -/
theorem GroupBlocks.direct_of_noGaps (h : GroupBlocks l groupAlign plan groups)
    (hA : 0 < groupAlign) (htail : ∀ (j : Nat) (v : Int), groups.length * groupAlign ≤ j →
      plan[j]? = some v → v < 0)
    (hgap : NoGaps l groupAlign) : ReadsDirectly plan := by
  intro j v hv h0
  have hj := div_add_mod' j groupAlign
  have hr := mod_lt j hA
  by_cases hlt : j / groupAlign < groups.length
  · obtain ⟨members, hs, hmem, -, hget, hpad⟩ :=
      h.entries (getElem?_eq_getElem hlt)
    have hgi := h.group_eq hgap (getElem?_eq_getElem hlt)
    rw [hgi] at hmem
    rcases Nat.lt_or_ge (j % groupAlign) members.length with hlt' | hge'
    · obtain ⟨x, hx⟩ : ∃ x, members[j % groupAlign]? = some x :=
        ⟨_, getElem?_eq_getElem hlt'⟩
      obtain ⟨hxl, hxg⟩ := (hmem x).mp (mem_of_getElem? hx)
      have hbase : ∀ y ∈ members, j / groupAlign * groupAlign ≤ y := by
        intro y hy
        rw [← ((hmem y).mp hy).2]
        exact div_mul_le_self y groupAlign
      have hxj := sorted_index hs hbase hx fun y hy hyx => by
        have hx' := div_add_mod' x groupAlign
        rw [hxg] at hx'
        have := hgap.down hA hxl (x - y) (by omega)
        rw [Nat.sub_sub_self hyx, hxg] at this
        exact (hmem y).mpr this
      have hval := hget _ x hx
      rw [hj, hv] at hval
      rw [Option.some.inj hval, hxj, hj]
      rfl
    · have hval := hpad _ hge' hr
      rw [hj, hv] at hval
      rw [Option.some.inj hval] at h0
      exact absurd h0 (by decide)
  · have := htail j v ?_ hv
    · omega
    · have := Nat.mul_le_mul_right groupAlign (Nat.not_lt.mp hlt)
      omega

/-- If every entry is its place, there are no gaps. -/
theorem GroupBlocks.noGaps_of_direct (h : GroupBlocks l groupAlign plan groups)
    (hA : 0 < groupAlign) (hd : ReadsDirectly plan) : NoGaps l groupAlign := by
  intro c hc
  obtain ⟨i, hi⟩ := mem_iff_getElem?.mp ((h.touched _).mpr ⟨c, hc, rfl⟩)
  obtain ⟨members, -, hmem, hlen, hget, -⟩ := h.entries hi
  obtain ⟨r, hr⟩ := List.mem_iff_getElem?.mp ((hmem c).mpr ⟨hc, rfl⟩)
  obtain ⟨hrl, -⟩ := List.getElem?_eq_some_iff.mp hr
  have hcr : c = i * groupAlign + r := Int.ofNat.inj (hd _ _ (hget r c hr) (natCast_nonneg c))
  have hdiv : c / groupAlign = i := by
    rw [Nat.div_eq_iff hA]
    omega
  have hmod : c % groupAlign = r := by
    have := div_add_mod' c groupAlign
    rw [hdiv] at this
    omega
  refine ⟨fun hne => ?_, fun hle => ?_⟩
  · have hlt : r - 1 < members.length := by omega
    have hx := getElem?_eq_getElem hlt
    have := Int.ofNat.inj (hd _ _ (hget _ _ hx) (natCast_nonneg _))
    have hm := ((hmem _).mp (List.getElem_mem hlt)).1
    rwa [this, show i * groupAlign + (r - 1) = c - 1 by omega] at hm
  · have hpos : 0 < i := by
      rw [← hdiv]
      exact Nat.div_pos hle hA
    obtain ⟨hlt, -⟩ := List.getElem?_eq_some_iff.mp hi
    obtain ⟨x, hx, -, hval⟩ :=
      h.first (getElem?_eq_getElem (show i - 1 < groups.length by omega))
    have hxe := Int.ofNat.inj (hd _ _ hval (natCast_nonneg _))
    refine ⟨x, hx, ?_⟩
    rw [hxe, Nat.mul_div_cancel _ hA, hdiv]
    omega

/-- The check is true only if every entry is its place, or it has stopped inside a block. -/
theorem GroupBlocks.direct_or_stops (h : GroupBlocks l groupAlign plan groups)
    (hA : 0 < groupAlign) (hmem : ∀ v, 0 ≤ v → (v ∈ plan ↔ ∃ c ∈ l, v = Int.ofNat c))
    (htail : ∀ (j : Nat) (v : Int), groups.length * groupAlign ≤ j → plan[j]? = some v → v < 0)
    (hid : compactReadPlanIsIdentity plan = true) :
    ReadsDirectly plan ∨ ∃ f, StopsInside l groupAlign f := by
  obtain ⟨n, hn, hend⟩ := planIsIdentity_iff.mp hid
  have hl : ∀ c < n, c ∈ l := fun c hc => by
    obtain ⟨c', hc', he⟩ := (hmem c (natCast_nonneg c)).mp (mem_of_getElem? (hn c hc))
    rwa [Int.ofNat.inj he]
  rcases Nat.lt_or_ge n (groups.length * groupAlign) with hlt | hge
  · refine .inr ⟨n, ?_⟩
    have hi : n / groupAlign < groups.length := (Nat.div_lt_iff_lt_mul hA).mpr hlt
    have hn' := div_add_mod' n groupAlign
    obtain ⟨x, -, hxg, hx⟩ := h.first (getElem?_eq_getElem hi)
    -- the first entry of a block is a cell
    have hne : n % groupAlign ≠ 0 := by
      intro h0
      rw [h0, Nat.add_zero] at hn'
      rw [hn'] at hx
      exact absurd (hend _ hx) (Int.not_lt.mpr (natCast_nonneg x))
    have hbase : n / groupAlign * groupAlign < n := by omega
    have hxe : x = n / groupAlign * groupAlign :=
      Int.ofNat.inj (Option.some.inj (hx.symm.trans (hn _ hbase)))
    obtain ⟨members, -, hm, -, hget, -⟩ := h.entries (getElem?_eq_getElem hi)
    rw [← hxg, hxe, Nat.mul_div_cancel _ hA] at hm
    have hlen : members.length ≤ n % groupAlign := by
      by_contra hlt'
      have hv := hget _ _ (getElem?_eq_getElem (Nat.not_le.mp hlt'))
      rw [hn'] at hv
      exact absurd (hend _ hv) (Int.not_lt.mpr (natCast_nonneg _))
    refine ⟨hne, hl, fun c hc hcg hcl => ?_⟩
    -- with one more cell the group has too many
    have hsub : List.range' (n / groupAlign * groupAlign) (n % groupAlign) ++ [c] ⊆ members := by
      intro y hy
      rcases mem_append.mp hy with hy | hy
      · obtain ⟨h1, h2⟩ := mem_range'_1.mp hy
        refine (hm y).mpr ⟨hl y (by omega), ?_⟩
        rw [Nat.div_eq_iff hA]
        have := mod_lt n hA
        omega
      · exact (hm y).mpr (mem_singleton.mp hy ▸ ⟨hcl, hcg⟩)
    have hnd : (List.range' (n / groupAlign * groupAlign) (n % groupAlign) ++ [c]).Nodup := by
      refine nodup_append.mpr ⟨nodup_range', nodup_singleton c, ?_⟩
      intro a ha b hb
      have := (mem_range'_1.mp ha).2
      have := mem_singleton.mp hb
      omega
    have := (subperm_of_subset hnd hsub).length_le
    rw [length_append, length_range', length_singleton] at this
    omega
  · refine .inl fun j v hv h0 => ?_
    by_cases hj : j < n
    · exact Option.some.inj (hv.symm.trans (hn j hj))
    · exact absurd h0 (Int.not_le.mpr (htail j v (by omega) hv))

/-- Where the used cells stop inside a group, the check stops there and is true. -/
theorem GroupBlocks.identity_of_stops (h : GroupBlocks l groupAlign plan groups)
    (hA : 0 < groupAlign) {f : Nat} (hf : StopsInside l groupAlign f) :
    compactReadPlanIsIdentity plan = true := by
  obtain ⟨hne, hl, hrest⟩ := hf
  have hf' := div_add_mod' f groupAlign
  have hbelow : ∀ i ≤ f / groupAlign, i * groupAlign < f := fun i hi => by
    have := Nat.mul_le_mul_right groupAlign hi
    omega
  have hgroup : ∀ i ≤ f / groupAlign, groups[i]? = some i := fun i hi =>
    sorted_getElem? h.sorted (fun y _ => Nat.zero_le y)
      (fun y _ hy => (h.touched y).mpr ⟨y * groupAlign, hl _ (hbelow y (by omega)),
        Nat.mul_div_cancel _ hA⟩) (Nat.zero_le i)
  refine planIsIdentity_iff.mpr ⟨f, fun j hj => ?_, fun v hv => ?_⟩
  · obtain ⟨members, hs, hmem, -, hget, -⟩ :=
      h.entries (hgroup (j / groupAlign) (Nat.div_le_div_right (Nat.le_of_lt hj)))
    have hbase : ∀ y ∈ members, j / groupAlign * groupAlign ≤ y := by
      intro y hy
      rw [← ((hmem y).mp hy).2]
      exact div_mul_le_self y groupAlign
    have hle := div_mul_le_self j groupAlign
    have hx := sorted_getElem? hs hbase (fun y hy hyj => (hmem y).mpr ⟨hl y (by omega), by
      rw [Nat.div_eq_iff hA]
      have := div_add_mod' j groupAlign
      have := mod_lt j hA
      omega⟩) hle
    have := hget _ j hx
    rwa [Nat.add_sub_cancel' hle] at this
  · obtain ⟨members, hs, hmem, -, -, hpad⟩ := h.entries (hgroup (f / groupAlign) (Nat.le_refl _))
    have hsub : members ⊆ List.range' (f / groupAlign * groupAlign) (f % groupAlign) := by
      intro y hy
      obtain ⟨hyl, hyg⟩ := (hmem y).mp hy
      have hyf : y < f := by
        by_contra hn
        exact hrest y (Nat.not_lt.mp hn) hyg hyl
      have := div_mul_le_self y groupAlign
      rw [hyg] at this
      exact mem_range'_1.mpr ⟨this, by omega⟩
    have hlen := (subperm_of_subset (hs.imp fun h => Nat.ne_of_lt h) hsub).length_le
    rw [length_range'] at hlen
    have hval := hpad _ hlen (mod_lt f hA)
    rw [hf', hv] at hval
    rw [Option.some.inj hval]
    decide

end Blocks

/-! ## The check on a plan -/

/-- In the aligned form the used cells stop inside a group only where there are no gaps. -/
def IdentitySafe (occupiedCells pendingCells : List Nat) (capacity groupAlign growth : Nat) :
    Prop :=
  AlignedChosen occupiedCells pendingCells capacity groupAlign growth →
    ∀ f, StopsInside (occupiedCells ++ pendingCells) groupAlign f →
      NoGaps (occupiedCells ++ pendingCells) groupAlign

/-- Behind the blocks there is only padding. -/
theorem groupBlocks_tail {cells groups : List Nat} {capacity groupAlign n j : Nat} {v : Int}
    (hj : groups.length * groupAlign ≤ j)
    (hv : (groups.flatMap (groupBlock cells capacity groupAlign) ++
      List.replicate n (-1))[j]? = some v) : v < 0 := by
  rw [getElem?_append_right (by rwa [flatMap_groupBlock_length]),
    getElem?_replicate] at hv
  split at hv
  · rw [← Option.some.inj hv]
    decide
  · cases hv

/-- In the dense form only padding follows a padding. -/
theorem densePlan_direct {cells : List Nat} {n : Nat}
    (hid : compactReadPlanIsIdentity (cells.map Int.ofNat ++ List.replicate n (-1)) = true) :
    ReadsDirectly (cells.map Int.ofNat ++ List.replicate n (-1)) := by
  obtain ⟨k, hk, hend⟩ := planIsIdentity_iff.mp hid
  have hle : cells.length ≤ k := by
    by_contra hlt
    obtain ⟨c, hc⟩ : ∃ c, cells[k]? = some c := ⟨_, getElem?_eq_getElem (Nat.not_le.mp hlt)⟩
    have hget : (cells.map Int.ofNat ++ List.replicate n (-1))[k]? = some (Int.ofNat c) := by
      rw [getElem?_append_left (by rw [length_map]; omega), getElem?_map, hc]
      rfl
    exact absurd (hend _ hget) (Int.not_lt.mpr (natCast_nonneg _))
  intro j v hv h0
  by_cases hj : j < k
  · exact Option.some.inj (hv.symm.trans (hk j hj))
  · rw [getElem?_append_right (by rw [length_map]; omega), getElem?_replicate] at hv
    split at hv
    · rw [← Option.some.inj hv] at h0
      exact absurd h0 (by decide)
    · cases hv

/-- The check implies that every entry is its place if and only if the used cells stop inside a
group only where there are no gaps, or the form is dense. -/
theorem identity_direct_iff {occupiedCells pendingCells : List Nat}
    {capacity padding groupAlign growth : Nat} {plan : List Int} (hcap : capacity < 2 ^ 32)
    (hA : groupAlign < 2 ^ 32)
    (hplan : llamaKvarnCompactReadPlan occupiedCells pendingCells capacity padding groupAlign
      growth = .ok plan) :
    (compactReadPlanIsIdentity plan = true → ReadsDirectly plan) ↔
      IdentitySafe occupiedCells pendingCells capacity groupAlign growth := by
  have hv : ValidExtent occupiedCells pendingCells capacity padding := by
    by_contra h
    obtain ⟨what, hw⟩ := @readPlan_throws _ _ _ _ groupAlign growth h
    rw [hplan] at hw
    cases hw
  obtain ⟨cells, hd, hle, hc, hoob, hdense, haligned⟩ := @readPlan_spec _ _ _ _ _ growth hv hcap hA
  have hfit : GroupsFit occupiedCells pendingCells capacity groupAlign := by
    by_contra h
    rw [hoob h] at hplan
    cases hplan
  by_cases hch : AlignedChosen occupiedCells pendingCells capacity groupAlign growth
  · obtain ⟨groups, hs, hg, hform⟩ := haligned hfit hch
    obtain rfl := Except.ok.inj (hplan.symm.trans hform)
    have hused : groups.length * groupAlign ≤ capacity := by
      rw [hd.groups_length hs hg]
      exact hch.2.2
    have hpad := @le_paddedLength _ padding _ _ hused (le_roundUp _ (Nat.pos_of_ne_zero hv.2.1))
    have hcompact := alignedPlan_compact hch.1 hd hc hs hg _ hpad
    generalize paddedLength capacity padding ((groups.length * groupAlign + padding - 1) / padding *
      padding) - groups.length * groupAlign = n at hcompact ⊢
    have hblocks := alignedPlan_blocks hch.1 hd hc hs hg (List.replicate n (-1))
    have htail := fun j v => @groupBlocks_tail cells groups capacity groupAlign n j v
    constructor
    · intro hdir _ f hf
      exact hblocks.noGaps_of_direct hch.1 (hdir (hblocks.identity_of_stops hch.1 hf))
    · intro hsafe hid
      rcases hblocks.direct_or_stops hch.1 hcompact.mem htail hid with h | ⟨f, hf⟩
      · exact h
      · exact hblocks.direct_of_noGaps hch.1 htail (hsafe hch f hf)
  · refine ⟨fun _ h => absurd h hch, fun _ hid => ?_⟩
    obtain ⟨n, rfl⟩ := densePlan_form ((hdense hfit hch).symm.trans hplan)
    exact densePlan_direct hid

/-- The cells `0 .. 3` of two groups of four, in order and without padding. -/
theorem identity_direct_small : compactReadPlanIsIdentity [0, 1, 2, 3, 4, -1, -1, -1] = true ∧
      ReadsDirectly [0, 1, 2, 3, 4, -1, -1, -1] :=
  have hid : compactReadPlanIsIdentity [0, 1, 2, 3, 4, -1, -1, -1] = true := by decide
  ⟨hid, (identity_direct_iff (by decide) (by decide)
    (by decide +kernel :
      llamaKvarnCompactReadPlan [0, 1, 2, 3] [4] 16 4 4 60 =
        .ok [0, 1, 2, 3, 4, -1, -1, -1])).mpr (fun _ _ _ => by decide) hid⟩

/-- With 127 cells of group `0` and all of group `2` the check stops at entry `127`, and entry `128`
is cell `256`. -/
theorem not_identity_direct : ¬∀ plan : List Int,
    llamaKvarnCompactReadPlan (List.range 127 ++ List.range' 256 128) [] 512 256 128 25 = .ok plan →
      compactReadPlanIsIdentity plan = true → ReadsDirectly plan := by
  intro h
  have hplan : llamaKvarnCompactReadPlan (List.range 127 ++ List.range' 256 128) [] 512 256 128 25 =
      .ok ((List.range 127).map Int.ofNat ++ -1 :: (List.range' 256 128).map Int.ofNat) := by
    decide +kernel
  have hid : compactReadPlanIsIdentity
      ((List.range 127).map Int.ofNat ++ -1 :: (List.range' 256 128).map Int.ofNat) = true := by
    decide +kernel
  have hget : ((List.range 127).map Int.ofNat ++
      -1 :: (List.range' 256 128).map Int.ofNat)[128]? = some 256 := by
    decide +kernel
  exact absurd (h _ hplan hid 128 256 hget (by decide)) (by decide)

end BeeLlama
