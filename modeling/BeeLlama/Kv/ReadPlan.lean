import BeeLlama.Kv.Kvarn
import BeeLlama.Lib.Buffer
import BeeLlama.Lib.Fallible

/-!
# The compact read plan (`llama_kvarn_compact_read_plan`)

The attention reads the rows that the plan lists, `-1` being padding. The cells are listed once
each: one after another (the dense form), or with a block of `group_align` entries for each touched
group (the aligned form), if the blocks are not much longer than the cells. The extents are
`uint32_t`, and both roundings add before they divide.

* `fillGroups_fresh`: the loop over the groups writes their blocks.
* `densePlan_ok`, `densePlan_outOfBounds`: the dense form, and where its length is too small.
* `readPlan_spec`: which form is chosen.
* `readPlanMeets_iff`: the plan is as meant unless a rounding up wraps around.
-/

namespace BeeLlama

open List Nat

/-- `uint32_t` arithmetic. -/
def u32 (n : Nat) : Nat := n % 2 ^ 32

/-- How the plan fails: an exception with its text, or a place outside an array. -/
inductive PlanFault where
  | throws (what : String)
  | outOfBounds
  deriving DecidableEq, Repr

/-- `remove_if` over the cells: the first of equal cells stays. `seen` are the bits set so far. -/
def removeSeen (capacity : Nat) (seen : List Nat) : List Nat → Except PlanFault (List Nat)
  | [] => .ok []
  | cell :: cells =>
    if cell ≥ capacity then
      .error (.throws "KVarN compact read-plan cell exceeds cache capacity")
    else if cell ∈ seen then removeSeen capacity seen cells
    else (removeSeen capacity (cell :: seen) cells).map (cell :: ·)

/-- `groups` and `group_seen`, an array of `size` bits: the groups of the cells in the order in
which they are met. -/
def touchedGroups (groupAlign size : Nat) (groups : List Nat) :
    List Nat → Except PlanFault (List Nat)
  | [] => .ok groups
  | cell :: cells =>
    let g := cell / groupAlign
    if g < size then
      touchedGroups groupAlign size (if g ∈ groups then groups else groups ++ [g]) cells
    else .error .outOfBounds

/-- The cells `begin .. end` that are seen go to the plan from `slot` on. -/
def fillGroup (seen : List Nat) (aligned : List Int) (slot : Nat) :
    List Nat → Option (List Int)
  | [] => some aligned
  | cell :: cells =>
    if cell ∈ seen then
      (writeAt aligned slot cell).bind fun aligned => fillGroup seen aligned (slot + 1) cells
    else fillGroup seen aligned slot cells

/-- The loop over the groups: each takes `group_align` entries of the plan. -/
def fillGroups (seen : List Nat) (capacity groupAlign : Nat) (aligned : List Int) (out : Nat) :
    List Nat → Option (List Int)
  | [] => some aligned
  | g :: gs =>
    let begin_ := u32 (g * groupAlign)
    let end_ := min (u32 (begin_ + groupAlign)) capacity
    (fillGroup seen aligned out (List.range' begin_ (end_ - begin_))).bind fun aligned =>
      fillGroups seen capacity groupAlign aligned (out + groupAlign) gs

/-- `used` rounded up to the padding, at least one padding and at most the capacity. -/
def paddedLength (capacity padding rounded : Nat) : Nat := min capacity (max padding rounded)

/-- The aligned form of the plan, if it is not too long. -/
def alignedPlan (cells : List Nat) (capacity padding groupAlign alignGrowthPercent : Nat) :
    Except PlanFault (Option (List Int)) :=
  let size := u32 (capacity + groupAlign - 1) / groupAlign
  match touchedGroups groupAlign size [] cells with
  | .error e => .error e
  | .ok groups =>
    let groups := groups.insertionSort (· ≤ ·)
    let alignedUsed := groups.length * groupAlign
    let limit := cells.length * u32 (100 + alignGrowthPercent) / 100
    if alignedUsed ≤ limit ∧ alignedUsed ≤ capacity then
      let alignedPadded :=
        paddedLength capacity padding ((alignedUsed + padding - 1) / padding * padding)
      match fillGroups cells capacity groupAlign (List.replicate alignedPadded (-1)) 0 groups with
      | some aligned => .ok (some aligned)
      | none => .error .outOfBounds
    else .ok none

/-- The dense form: the cells one after another. -/
def densePlan (cells : List Nat) (capacity padding : Nat) : Except PlanFault (List Int) :=
  let used := cells.length
  let padded := paddedLength capacity padding (u32 (u32 (used + padding - 1) / padding * padding))
  match writeFrom (List.replicate padded (-1)) 0 (cells.map Int.ofNat) with
  | some result => .ok result
  | none => .error .outOfBounds

/-- `llama_kvarn_compact_read_plan`. -/
def llamaKvarnCompactReadPlan (occupiedCells pendingCells : List Nat)
    (capacity padding groupAlign alignGrowthPercent : Nat) : Except PlanFault (List Int) :=
  if capacity = 0 ∨ padding = 0 then
    .error (.throws "invalid KVarN compact read-plan extent")
  else do
    let cells ← removeSeen capacity [] (occupiedCells ++ pendingCells)
    if cells.length > capacity then
      .error (.throws "KVarN compact read plan exceeds cache capacity")
    else
      let aligned ← if groupAlign > 0 then
          alignedPlan cells capacity padding groupAlign alignGrowthPercent
        else .ok none
      match aligned with
      | some plan => .ok plan
      | none => densePlan cells capacity padding

/-! ## The distinct cells -/

section Cells

variable {capacity : Nat} {seen cells r : List Nat}

theorem removeSeen_throws (h : ∃ c ∈ cells, capacity ≤ c) : removeSeen capacity seen cells =
      .error (.throws "KVarN compact read-plan cell exceeds cache capacity") := by
  induction cells generalizing seen with
  | nil =>
    obtain ⟨c, hc, -⟩ := h
    exact absurd hc not_mem_nil
  | cons x cells ih =>
    rw [removeSeen]
    split
    · rfl
    · next hx =>
      have ht : ∃ c ∈ cells, capacity ≤ c := by
        obtain ⟨c, hc, hle⟩ := h
        rcases mem_cons.mp hc with rfl | hc
        · exact absurd hle hx
        · exact ⟨c, hc, hle⟩
      split
      · exact ih ht
      · rw [ih ht]
        rfl

/-- The cells that are left are the distinct ones. -/
theorem removeSeen_spec (h : ∀ c ∈ cells, c < capacity) :
    ∃ r, removeSeen capacity seen cells = .ok r ∧ r.Nodup ∧ ∀ c, c ∈ r ↔ c ∈ cells ∧ c ∉ seen := by
  induction cells generalizing seen with
  | nil => exact ⟨[], rfl, nodup_nil, fun c => by simp⟩
  | cons x cells ih =>
    obtain ⟨hx, ht⟩ := forall_mem_cons.mp h
    rw [removeSeen, if_neg (Nat.not_le.mpr hx)]
    by_cases hs : x ∈ seen
    · obtain ⟨r, hr, hnd, hmem⟩ := ih ht
      refine ⟨r, by rw [if_pos hs, hr], hnd, fun c => ?_⟩
      rw [hmem, mem_cons]
      constructor
      · rintro ⟨hc, hn⟩
        exact ⟨.inr hc, hn⟩
      · rintro ⟨rfl | hc, hn⟩
        · exact absurd hs hn
        · exact ⟨hc, hn⟩
    · obtain ⟨r, hr, hnd, hmem⟩ := ih ht
      refine ⟨x :: r, by rw [if_neg hs, hr]; rfl, ?_, fun c => ?_⟩
      · rw [nodup_cons, hmem]
        exact ⟨fun hxr => hxr.2 mem_cons_self, hnd⟩
      · rw [mem_cons, hmem, mem_cons, mem_cons]
        constructor
        · rintro (rfl | ⟨hc, hn⟩)
          · exact ⟨.inl rfl, hs⟩
          · exact ⟨.inr hc, fun h => hn (.inr h)⟩
        · rintro ⟨rfl | hc, hn⟩
          · exact .inl rfl
          · by_cases hcx : c = x
            · exact .inl hcx
            · exact .inr ⟨hc, fun h => h.elim hcx hn⟩

end Cells

/-! ## The touched groups -/

section Groups

variable {groupAlign size : Nat} {groups cells : List Nat}

/-- Without a bit for the first cell the code reads outside `group_seen`. -/
theorem touchedGroups_none (h : cells ≠ []) :
    touchedGroups groupAlign 0 groups cells = .error .outOfBounds := by
  obtain ⟨c, cs, rfl⟩ := exists_cons_of_ne_nil h
  rw [touchedGroups, if_neg (Nat.not_lt_zero _)]

theorem touchedGroups_spec (h : ∀ c ∈ cells, c / groupAlign < size) (hg : groups.Nodup) :
    ∃ gs, touchedGroups groupAlign size groups cells = .ok gs ∧ gs.Nodup ∧
      ∀ g, g ∈ gs ↔ g ∈ groups ∨ ∃ c ∈ cells, c / groupAlign = g := by
  induction cells generalizing groups with
  | nil => exact ⟨groups, rfl, hg, fun g => by simp⟩
  | cons x cells ih =>
    obtain ⟨hx, ht⟩ := forall_mem_cons.mp h
    rw [touchedGroups, if_pos hx]
    by_cases hm : x / groupAlign ∈ groups
    · obtain ⟨gs, hgs, hnd, hmem⟩ := ih ht hg
      refine ⟨gs, by rw [if_pos hm, hgs], hnd, fun g => ?_⟩
      rw [hmem, exists_mem_cons_iff]
      constructor
      · exact fun h => h.imp_right .inr
      · rintro (h | rfl | h)
        · exact .inl h
        · exact .inl hm
        · exact .inr h
    · have hnd' : (groups ++ [x / groupAlign]).Nodup :=
        nodup_append.mpr ⟨hg, nodup_singleton _, fun a ha b hb hab =>
          hm (mem_singleton.mp hb ▸ hab ▸ ha)⟩
      obtain ⟨gs, hgs, hnd, hmem⟩ := ih ht hnd'
      refine ⟨gs, by rw [if_neg hm, hgs], hnd, fun g => ?_⟩
      rw [hmem, exists_mem_cons_iff, mem_append, mem_singleton, or_assoc, eq_comm (a := g)]

end Groups

/-! ## The blocks of the groups -/

/-- The cells of the group that are in the plan, in order. -/
def groupMembers (cells : List Nat) (capacity groupAlign g : Nat) : List Nat :=
  (List.range' (g * groupAlign)
    (min (g * groupAlign + groupAlign) capacity - g * groupAlign)).filter (· ∈ cells)

/-- The entries of the group: its cells, then `-1`. -/
def groupBlock (cells : List Nat) (capacity groupAlign g : Nat) : List Int :=
  (groupMembers cells capacity groupAlign g).map Int.ofNat ++
    List.replicate (groupAlign - (groupMembers cells capacity groupAlign g).length) (-1)

section Blocks

variable {cells gs : List Nat} {capacity groupAlign g : Nat}

theorem groupMembers_sorted : (groupMembers cells capacity groupAlign g).Pairwise (· < ·) :=
  List.Pairwise.filter _ pairwise_lt_range'

theorem groupMembers_length_le :
    (groupMembers cells capacity groupAlign g).length ≤ groupAlign := by
  refine (length_filter_le _ _).trans ?_
  rw [length_range']
  omega

theorem mem_groupMembers (hA : 0 < groupAlign) (hc : ∀ c ∈ cells, c < capacity) {c : Nat} :
    c ∈ groupMembers cells capacity groupAlign g ↔ c ∈ cells ∧ c / groupAlign = g := by
  have hdiv : c / groupAlign = g ↔ g * groupAlign ≤ c ∧ c < g * groupAlign + groupAlign := by
    rw [Nat.div_eq_iff hA, Nat.add_sub_assoc hA]
    omega
  rw [groupMembers, mem_filter, mem_range'_1, decide_eq_true_iff, hdiv]
  constructor
  · rintro ⟨h, hm⟩
    exact ⟨hm, by omega⟩
  · rintro ⟨hm, h⟩
    have := hc c hm
    exact ⟨by omega, hm⟩

@[simp] theorem groupBlock_length :
    (groupBlock cells capacity groupAlign g).length = groupAlign := by
  have := @groupMembers_length_le cells capacity groupAlign g
  simp only [groupBlock, length_append, length_map, length_replicate]
  omega

theorem flatMap_groupBlock_length :
    (gs.flatMap (groupBlock cells capacity groupAlign)).length = gs.length * groupAlign := by
  induction gs with
  | nil => simp
  | cons g gs ih =>
    rw [flatMap_cons, length_append, groupBlock_length, ih, length_cons, succ_mul, Nat.add_comm]

/-- The loop over a group writes the cells that are seen one after another. -/
theorem fillGroup_eq (aligned : List Int) (slot : Nat) (cs : List Nat) :
    fillGroup cells aligned slot cs =
      writeFrom aligned slot ((cs.filter (· ∈ cells)).map Int.ofNat) := by
  induction cs generalizing aligned slot with
  | nil => rfl
  | cons c cs ih =>
    by_cases hc : c ∈ cells
    · have hd : decide (c ∈ cells) = true := decide_eq_true hc
      rw [fillGroup, if_pos hc, filter_cons, if_pos hd, map_cons, writeFrom]
      refine congrArg _ (funext fun aligned => ?_)
      exact ih aligned (slot + 1)
    · have hd : ¬decide (c ∈ cells) = true := by rwa [decide_eq_true_iff]
      rw [fillGroup, if_neg hc, filter_cons, if_neg hd]
      exact ih aligned slot

/-- The loop over the groups writes their blocks one after another. -/
theorem fillGroups_eq (hA : 0 < groupAlign) (hfit : capacity + groupAlign - 1 < 2 ^ 32)
    (hgs : ∀ g ∈ gs, g * groupAlign < capacity) (pre : List Int) {n : Nat}
    (hn : gs.length * groupAlign ≤ n) :
    fillGroups cells capacity groupAlign (pre ++ List.replicate n (-1)) pre.length gs =
      some (pre ++ gs.flatMap (groupBlock cells capacity groupAlign) ++
        List.replicate (n - gs.length * groupAlign) (-1)) := by
  induction gs generalizing pre n with
  | nil => simp [fillGroups]
  | cons g gs ih =>
    obtain ⟨hg, hgs⟩ := forall_mem_cons.mp hgs
    have hb : u32 (g * groupAlign) = g * groupAlign := mod_eq_of_lt (by omega)
    have he : u32 (g * groupAlign + groupAlign) = g * groupAlign + groupAlign :=
      mod_eq_of_lt (by omega)
    rw [length_cons, succ_mul] at hn
    have hlen := @groupMembers_length_le cells capacity groupAlign g
    let members := (groupMembers cells capacity groupAlign g).map Int.ofNat
    have hml : members.length = (groupMembers cells capacity groupAlign g).length := length_map _
    have hsplit : pre ++ List.replicate n (-1) = pre ++ List.replicate members.length (-1) ++
        List.replicate (n - members.length) (-1) := by
      rw [append_assoc, replicate_append_replicate, Nat.add_sub_cancel' (by omega)]
    have hjoin : pre ++ members ++ List.replicate (n - members.length) (-1) =
        (pre ++ groupBlock cells capacity groupAlign g) ++
          List.replicate (n - groupAlign) (-1) := by
      have hrest : n - members.length = (groupAlign - members.length) + (n - groupAlign) := by omega
      rw [hrest, ← replicate_append_replicate, groupBlock, ← hml]
      simp only [append_assoc, members]
    have hpre : pre.length + groupAlign =
        (pre ++ groupBlock cells capacity groupAlign g).length := by
      rw [length_append, groupBlock_length]
    have hfill : fillGroup cells (pre ++ List.replicate n (-1)) pre.length
        (List.range' (g * groupAlign)
          (min (g * groupAlign + groupAlign) capacity - g * groupAlign)) =
        some ((pre ++ groupBlock cells capacity groupAlign g) ++
          List.replicate (n - groupAlign) (-1)) := by
      rw [fillGroup_eq, hsplit]
      exact (writeFrom_append pre _ _ length_replicate).trans (congrArg some hjoin)
    simp only [fillGroups, hb, he, hfill, Option.bind_some, hpre]
    rw [ih hgs _ (by omega), flatMap_cons, length_cons, succ_mul,
      Nat.sub_sub, Nat.add_comm groupAlign, append_assoc pre]

/-- The loop over the groups in a plan of `-1`. -/
theorem fillGroups_fresh (hA : 0 < groupAlign) (hfit : gs = [] ∨ capacity + groupAlign - 1 < 2 ^ 32)
    (hgs : ∀ g ∈ gs, g * groupAlign < capacity) {n : Nat} (hn : gs.length * groupAlign ≤ n) :
    fillGroups cells capacity groupAlign (List.replicate n (-1)) 0 gs =
      some (gs.flatMap (groupBlock cells capacity groupAlign) ++
        List.replicate (n - gs.length * groupAlign) (-1)) := by
  rcases hfit with rfl | hfit
  · simp [fillGroups]
  · exact fillGroups_eq hA hfit hgs [] hn

end Blocks

/-! ## The two forms -/

section Forms

variable {cells : List Nat} {capacity padding groupAlign growth : Nat}

/-- The length is the capacity or a positive multiple of the padding. -/
theorem paddedLength_eq (m : Nat) : paddedLength capacity padding (m * padding) = capacity ∨
      ∃ k, 0 < k ∧ paddedLength capacity padding (m * padding) = k * padding := by
  unfold paddedLength
  rcases Nat.le_total capacity (max padding (m * padding)) with h | h
  · exact .inl (Nat.min_eq_left h)
  · rw [Nat.min_eq_right h]
    refine .inr ?_
    rcases Nat.eq_zero_or_pos m with rfl | hm
    · exact ⟨1, Nat.one_pos, by rw [Nat.zero_mul, Nat.one_mul, Nat.max_eq_left (Nat.zero_le _)]⟩
    · exact ⟨m, hm, Nat.max_eq_right (Nat.le_mul_of_pos_left _ hm)⟩

theorem le_paddedLength {n rounded : Nat} (hc : n ≤ capacity) (hr : n ≤ rounded) :
    n ≤ paddedLength capacity padding rounded :=
  Nat.le_min.mpr ⟨hc, hr.trans (Nat.le_max_right _ _)⟩

theorem le_roundUp (n : Nat) (hp : 0 < padding) : n ≤ (n + padding - 1) / padding * padding := by
  have h := div_add_mod (n + padding - 1) padding
  have hlt := mod_lt (n + padding - 1) hp
  rw [Nat.mul_comm] at h
  omega

/-- A multiple of the alignment lies below the rounded up capacity. -/
theorem group_lt {c : Nat} (hA : 0 < groupAlign) (hc : c < capacity) :
    c / groupAlign < (capacity + groupAlign - 1) / groupAlign := by
  rw [Nat.div_lt_iff_lt_mul hA]
  have := @le_roundUp groupAlign capacity hA
  omega

/-- The aligned form is the list of the blocks of the touched groups, if it is not too long. -/
theorem alignedPlan_spec (hA : 0 < groupAlign) (hp : 0 < padding) (hc : ∀ c ∈ cells, c < capacity)
    (hfit : cells = [] ∨ capacity + groupAlign - 1 < 2 ^ 32) :
    ∃ groups : List Nat, groups.Pairwise (· < ·) ∧
      (∀ g, g ∈ groups ↔ ∃ c ∈ cells, c / groupAlign = g) ∧
      alignedPlan cells capacity padding groupAlign growth =
        .ok (if groups.length * groupAlign ≤ cells.length * u32 (100 + growth) / 100 ∧
            groups.length * groupAlign ≤ capacity then
          some (groups.flatMap (groupBlock cells capacity groupAlign) ++
            List.replicate (paddedLength capacity padding
              ((groups.length * groupAlign + padding - 1) / padding * padding) -
                groups.length * groupAlign) (-1))
        else none) := by
  have hsize : ∀ c ∈ cells, c / groupAlign < u32 (capacity + groupAlign - 1) / groupAlign := by
    intro c hm
    rcases hfit with rfl | hfit
    · exact absurd hm not_mem_nil
    · rw [u32, mod_eq_of_lt hfit]
      exact group_lt hA (hc c hm)
  obtain ⟨gs, hgs, hnd, hmem⟩ := touchedGroups_spec hsize nodup_nil
  have hperm := perm_insertionSort (· ≤ ·) gs
  have hsorted : (gs.insertionSort (· ≤ ·)).Pairwise (· < ·) := by
    have hle := pairwise_insertionSort (· ≤ ·) gs
    exact List.Pairwise.imp₂ (fun _ _ h hne => Nat.lt_of_le_of_ne h hne) hle
      (hperm.nodup_iff.mpr hnd)
  have hmem' : ∀ g, g ∈ gs.insertionSort (· ≤ ·) ↔ ∃ c ∈ cells, c / groupAlign = g := by
    intro g
    rw [hperm.mem_iff, hmem]
    exact or_iff_right not_mem_nil
  refine ⟨gs.insertionSort (· ≤ ·), hsorted, hmem', ?_⟩
  simp only [alignedPlan, hgs]
  split
  · next hsel =>
    have hn := @le_paddedLength _ padding _ _ hsel.2 (le_roundUp _ hp)
    have hnil : gs.insertionSort (· ≤ ·) = [] ∨ capacity + groupAlign - 1 < 2 ^ 32 := by
      refine hfit.imp_left fun h => eq_nil_iff_forall_not_mem.mpr fun g hg => ?_
      obtain ⟨c, hcm, -⟩ := (hmem' g).mp hg
      exact not_mem_nil (h ▸ hcm)
    rw [fillGroups_fresh hA hnil (fun g hg => ?_) hn]
    obtain ⟨c, hcm, rfl⟩ := (hmem' g).mp hg
    exact (div_mul_le_self c groupAlign).trans_lt (hc c hcm)
  · rfl

/-- The dense form is the list of the cells, then `-1`. -/
theorem densePlan_ok (hp : 0 < padding) (hle : cells.length ≤ capacity)
    (hfit : cells.length ≤ padding ∨ cells.length + padding - 1 < 2 ^ 32) :
    ∃ m, densePlan cells capacity padding = .ok (cells.map Int.ofNat ++
        List.replicate (paddedLength capacity padding (m * padding) - cells.length) (-1)) ∧
      cells.length ≤ paddedLength capacity padding (m * padding) := by
  have hmul : ∀ n, u32 (n / padding * padding) = n / padding * padding ∨ 2 ^ 32 ≤ n := by
    intro n
    have := div_mul_le_self n padding
    rcases Nat.lt_or_ge n (2 ^ 32) with h | h
    · exact .inl (mod_eq_of_lt (by omega))
    · exact .inr h
  have hround : u32 (u32 (cells.length + padding - 1) / padding * padding) =
      u32 (cells.length + padding - 1) / padding * padding :=
    (hmul _).resolve_right (Nat.not_le.mpr (mod_lt _ (by decide)))
  have hlen : cells.length ≤ paddedLength capacity padding
      (u32 (cells.length + padding - 1) / padding * padding) := by
    rcases hfit with h | h
    · exact Nat.le_min.mpr ⟨hle, h.trans (Nat.le_max_left _ _)⟩
    · rw [u32, mod_eq_of_lt h]
      exact le_paddedLength hle (le_roundUp _ hp)
  refine ⟨u32 (cells.length + padding - 1) / padding, ?_, hlen⟩
  have hwrite : writeFrom (List.replicate (paddedLength capacity padding
      (u32 (cells.length + padding - 1) / padding * padding)) (-1)) 0 (cells.map Int.ofNat) =
      some (cells.map Int.ofNat ++ List.replicate (paddedLength capacity padding
        (u32 (cells.length + padding - 1) / padding * padding) - cells.length) (-1)) := by
    rw [writeFrom_eq (by rw [length_map, length_replicate]; omega)]
    simp
  simp only [densePlan, hround, hwrite]

theorem densePlan_form {plan : List Int} (h : densePlan cells capacity padding = .ok plan) :
    ∃ n, plan = cells.map Int.ofNat ++ List.replicate n (-1) := by
  have hwrite : ∀ padded result, writeFrom (List.replicate padded (-1)) 0
      (cells.map Int.ofNat) = some result →
      ∃ n, result = cells.map Int.ofNat ++ List.replicate n (-1) := by
    intro padded result hres
    by_cases hle : cells.length ≤ padded
    · rw [writeFrom_eq (by rwa [Nat.zero_add, length_map, length_replicate])] at hres
      refine ⟨padded - cells.length, ?_⟩
      rw [← Option.some.inj hres]
      simp
    · have hne : cells.map Int.ofNat ≠ [] := by
        rw [Ne, map_eq_nil_iff, ← length_eq_zero_iff]
        omega
      rw [writeFrom_none hne (by rw [Nat.zero_add, length_map, length_replicate]; omega)]
        at hres
      cases hres
  simp only [densePlan] at h
  split at h
  · next result hres =>
    rw [← Except.ok.inj h]
    exact hwrite _ _ hres
  · cases h

/-- Where the sum wraps around and the cells are more than one padding, `std::copy` leaves the
vector. -/
theorem densePlan_outOfBounds (hused : cells.length < 2 ^ 32) (hp : padding < 2 ^ 32)
    (hlt : padding < cells.length) (hwrap : 2 ^ 32 ≤ cells.length + padding - 1) :
    densePlan cells capacity padding = .error .outOfBounds := by
  have hu : u32 (cells.length + padding - 1) < padding := by
    unfold u32
    omega
  have hz : u32 (u32 (cells.length + padding - 1) / padding * padding) = 0 := by
    rw [div_eq_of_lt hu, Nat.zero_mul]
    rfl
  have hne : cells.map Int.ofNat ≠ [] := by
    rw [Ne, map_eq_nil_iff, ← length_eq_zero_iff]
    omega
  have hpad : paddedLength capacity padding 0 ≤ padding := by
    unfold paddedLength
    omega
  have hwrite : writeFrom (List.replicate (paddedLength capacity padding 0) (-1)) 0
      (cells.map Int.ofNat) = none :=
    writeFrom_none hne (by rw [length_map, length_replicate]; omega)
  simp only [densePlan, hz, hwrite]

/-- Where the rounded up capacity wraps around, `group_seen` is empty. -/
theorem alignedPlan_outOfBounds (hcap : capacity < 2 ^ 32) (hA : groupAlign < 2 ^ 32)
    (hne : cells ≠ []) (hwrap : 2 ^ 32 ≤ capacity + groupAlign - 1) :
    alignedPlan cells capacity padding groupAlign growth = .error .outOfBounds := by
  have hsize : u32 (capacity + groupAlign - 1) / groupAlign = 0 := by
    refine div_eq_of_lt ?_
    unfold u32
    omega
  simp only [alignedPlan, hsize, touchedGroups_none hne]

end Forms

/-! ## The plan -/

/-- Capacity and padding are positive and every cell is below the capacity. -/
def ValidExtent (occupiedCells pendingCells : List Nat) (capacity padding : Nat) : Prop :=
  capacity ≠ 0 ∧ padding ≠ 0 ∧ ∀ c ∈ occupiedCells ++ pendingCells, c < capacity

/-- The number of distinct cells. -/
def usedCells (occupiedCells pendingCells : List Nat) : Nat :=
  (occupiedCells ++ pendingCells).dedup.length

/-- The number of groups with a cell. -/
def usedGroups (occupiedCells pendingCells : List Nat) (groupAlign : Nat) : Nat :=
  ((occupiedCells ++ pendingCells).map (· / groupAlign)).dedup.length

/-- The plan is aligned: the blocks of the touched groups are not much more than the cells. -/
def AlignedChosen (occupiedCells pendingCells : List Nat) (capacity groupAlign growth : Nat) :
    Prop :=
  0 < groupAlign ∧
    usedGroups occupiedCells pendingCells groupAlign * groupAlign ≤
      usedCells occupiedCells pendingCells * u32 (100 + growth) / 100 ∧
    usedGroups occupiedCells pendingCells groupAlign * groupAlign ≤ capacity

/-- The rounding up of the capacity to groups does not wrap around, or is not used. -/
def GroupsFit (occupiedCells pendingCells : List Nat) (capacity groupAlign : Nat) : Prop :=
  groupAlign = 0 ∨ occupiedCells ++ pendingCells = [] ∨ capacity + groupAlign - 1 < 2 ^ 32

instance {occupiedCells pendingCells : List Nat} {capacity groupAlign growth : Nat} :
    Decidable (AlignedChosen occupiedCells pendingCells capacity groupAlign growth) :=
  inferInstanceAs (Decidable (_ ∧ _ ∧ _))

section Plan

variable {occupied pending cells : List Nat} {capacity padding groupAlign growth : Nat}

theorem nodup_length_eq {l l' : List Nat} (h : l.Nodup) (h' : l'.Nodup)
    (hm : ∀ x, x ∈ l ↔ x ∈ l') : l.length = l'.length :=
  ((perm_ext_iff_of_nodup h h').mpr hm).length_eq

/-- What the cells without the repeated ones are. -/
structure Distinct (l cells : List Nat) : Prop where
  nodup : cells.Nodup
  mem : ∀ c, c ∈ cells ↔ c ∈ l

theorem Distinct.length (h : Distinct (occupied ++ pending) cells) :
    cells.length = usedCells occupied pending :=
  nodup_length_eq h.nodup (nodup_dedup _) fun c => by rw [h.mem, mem_dedup]

theorem Distinct.groups_length (h : Distinct (occupied ++ pending) cells) {groups : List Nat}
    (hs : groups.Pairwise (· < ·)) (hg : ∀ g, g ∈ groups ↔ ∃ c ∈ cells, c / groupAlign = g) :
    groups.length = usedGroups occupied pending groupAlign :=
  nodup_length_eq (hs.imp fun h => Nat.ne_of_lt h) (nodup_dedup _) fun g => by
    rw [hg, mem_dedup, mem_map]
    exact exists_congr fun c => and_congr_left' (h.mem c)

theorem Distinct.eq_nil (h : Distinct (occupied ++ pending) cells) :
    cells = [] ↔ occupied ++ pending = [] := by
  rw [eq_nil_iff_forall_not_mem, eq_nil_iff_forall_not_mem]
  exact forall_congr' fun c => not_congr (h.mem c)

/-- With a valid extent only the two forms are left. -/
theorem readPlan_valid (hv : ValidExtent occupied pending capacity padding) :
    ∃ cells, Distinct (occupied ++ pending) cells ∧ cells.length ≤ capacity ∧
      (∀ c ∈ cells, c < capacity) ∧
      llamaKvarnCompactReadPlan occupied pending capacity padding groupAlign growth =
        (if groupAlign > 0 then alignedPlan cells capacity padding groupAlign growth
          else .ok none) >>= fun aligned =>
            match aligned with
            | some plan => .ok plan
            | none => densePlan cells capacity padding := by
  obtain ⟨hcap, hp, hlt⟩ := hv
  obtain ⟨cells, hr, hnd, hmem⟩ := @removeSeen_spec _ [] _ hlt
  have hd : Distinct (occupied ++ pending) cells :=
    ⟨hnd, fun c => (hmem c).trans (and_iff_left not_mem_nil)⟩
  have hc : ∀ c ∈ cells, c < capacity := fun c hm => hlt c ((hd.mem c).mp hm)
  have hle : cells.length ≤ capacity := by
    have hsub : cells ⊆ List.range capacity := fun c hm => mem_range.mpr (hc c hm)
    simpa using (subperm_of_subset hnd hsub).length_le
  refine ⟨cells, hd, hle, hc, ?_⟩
  rw [llamaKvarnCompactReadPlan, if_neg (not_or.mpr ⟨hcap, hp⟩), hr]
  refine (if_neg (Nat.not_lt.mpr hle)).trans ?_
  split <;> rfl

/-- What the function does with a valid extent. -/
theorem readPlan_spec (hv : ValidExtent occupied pending capacity padding)
    (hcap : capacity < 2 ^ 32) (hA : groupAlign < 2 ^ 32) :
    ∃ cells, Distinct (occupied ++ pending) cells ∧ cells.length ≤ capacity ∧
      (∀ c ∈ cells, c < capacity) ∧
      (¬GroupsFit occupied pending capacity groupAlign →
        llamaKvarnCompactReadPlan occupied pending capacity padding groupAlign growth =
          .error .outOfBounds) ∧
      (GroupsFit occupied pending capacity groupAlign →
        ¬AlignedChosen occupied pending capacity groupAlign growth →
        llamaKvarnCompactReadPlan occupied pending capacity padding groupAlign growth =
          densePlan cells capacity padding) ∧
      (GroupsFit occupied pending capacity groupAlign →
        AlignedChosen occupied pending capacity groupAlign growth →
        ∃ groups : List Nat, groups.Pairwise (· < ·) ∧
          (∀ g, g ∈ groups ↔ ∃ c ∈ cells, c / groupAlign = g) ∧
          llamaKvarnCompactReadPlan occupied pending capacity padding groupAlign growth =
            .ok (groups.flatMap (groupBlock cells capacity groupAlign) ++
              List.replicate (paddedLength capacity padding
                ((groups.length * groupAlign + padding - 1) / padding * padding) -
                  groups.length * groupAlign) (-1))) := by
  obtain ⟨cells, hd, hle, hc, heq⟩ := @readPlan_valid _ _ _ _ groupAlign growth hv
  refine ⟨cells, hd, hle, hc, fun hfit => ?_, fun hfit hn => ?_, fun hfit hch => ?_⟩
  · obtain ⟨h0, hne, hwrap⟩ := not_or.mp hfit |>.imp_right not_or.mp
    rw [heq, if_pos (Nat.pos_of_ne_zero h0),
      alignedPlan_outOfBounds hcap hA (mt hd.eq_nil.mp hne) (Nat.not_lt.mp hwrap)]
    rfl
  · rcases Nat.eq_zero_or_pos groupAlign with h0 | hpos
    · rw [heq, if_neg (by omega)]
      rfl
    · have hfit' := (hfit.resolve_left (by omega)).imp_left hd.eq_nil.mpr
      obtain ⟨groups, hs, hg, hplan⟩ := @alignedPlan_spec _ _ padding _ growth hpos
        (Nat.pos_of_ne_zero hv.2.1) hc hfit'
      have hsel : ¬(groups.length * groupAlign ≤ cells.length * u32 (100 + growth) / 100 ∧
          groups.length * groupAlign ≤ capacity) := by
        rw [hd.length, hd.groups_length hs hg]
        exact fun h => hn ⟨hpos, h⟩
      rw [heq, if_pos hpos, hplan, if_neg hsel]
      rfl
  · obtain ⟨hpos, hsel⟩ := hch
    have hfit' := (hfit.resolve_left (by omega)).imp_left hd.eq_nil.mpr
    obtain ⟨groups, hs, hg, hplan⟩ := @alignedPlan_spec _ _ padding _ growth hpos
      (Nat.pos_of_ne_zero hv.2.1) hc hfit'
    refine ⟨groups, hs, hg, ?_⟩
    rw [← hd.length, ← hd.groups_length hs hg] at hsel
    rw [heq, if_pos hpos, hplan, if_pos hsel]
    rfl

end Plan

/-! ## What the plan lists -/

/-- The entries that are not padding are the cells of `l`, each once. -/
structure CompactPlan (l : List Nat) (capacity padding : Nat) (plan : List Int) : Prop where
  mem : ∀ v, 0 ≤ v → (v ∈ plan ↔ ∃ c ∈ l, v = Int.ofNat c)
  once : (plan.filter (0 ≤ ·)).Nodup
  length_le : plan.length ≤ capacity
  length_eq : plan.length = capacity ∨ ∃ k, 0 < k ∧ plan.length = k * padding

/-- Each touched group has a block of `groupAlign` entries: its cells in order from the start of the
block, then padding. -/
structure GroupBlocks (l : List Nat) (groupAlign : Nat) (plan : List Int) (groups : List Nat) :
    Prop where
  sorted : groups.Pairwise (· < ·)
  touched : ∀ g, g ∈ groups ↔ ∃ c ∈ l, c / groupAlign = g
  block : ∀ i g, groups[i]? = some g → ∃ members : List Nat, members.Pairwise (· < ·) ∧
    (∀ c, c ∈ members ↔ c ∈ l ∧ c / groupAlign = g) ∧
    (plan.drop (i * groupAlign)).take groupAlign =
      members.map Int.ofNat ++ List.replicate (groupAlign - members.length) (-1)
  full : ∀ i g, groups[i]? = some g → (∀ r < groupAlign, g * groupAlign + r ∈ l) →
    ∀ r < groupAlign, plan[i * groupAlign + r]? = some (Int.ofNat (g * groupAlign + r))

section Listed

variable {l cells groups : List Nat} {capacity padding groupAlign n : Nat}

theorem filter_replicate_neg (n : Nat) : (List.replicate n (-1 : Int)).filter (0 ≤ ·) = [] :=
  filter_eq_nil_iff.mpr fun v hv => by rw [eq_of_mem_replicate hv]; decide

theorem filter_map_ofNat (cs : List Nat) : (cs.map Int.ofNat).filter (0 ≤ ·) = cs.map Int.ofNat :=
  filter_eq_self.mpr fun v hv => by
    obtain ⟨c, -, rfl⟩ := mem_map.mp hv
    exact decide_eq_true (Int.natCast_nonneg c)

/-- A list with the cells `cs` as its entries that are not padding. -/
theorem CompactPlan.of_filter {plan : List Int} {cs : List Nat}
    (hf : plan.filter (0 ≤ ·) = cs.map Int.ofNat) (hnd : cs.Nodup) (hmem : ∀ c, c ∈ cs ↔ c ∈ l)
    (m : Nat) (hlen : plan.length = paddedLength capacity padding (m * padding)) :
    CompactPlan l capacity padding plan where
  mem v hv := by
    have hm : v ∈ plan ↔ v ∈ plan.filter (0 ≤ ·) := by
      rw [mem_filter, decide_eq_true_iff]
      exact (and_iff_left hv).symm
    rw [hm, hf, mem_map]
    exact exists_congr fun c => and_congr (hmem c) eq_comm
  once := by
    rw [hf]
    exact hnd.map fun a b h => Int.ofNat.inj h
  length_le := by
    rw [hlen]
    exact Nat.min_le_left _ _
  length_eq := by
    rw [hlen]
    exact paddedLength_eq m

theorem densePlan_compact (hd : Distinct l cells) (m : Nat)
    (hlen : cells.length ≤ paddedLength capacity padding (m * padding)) :
    CompactPlan l capacity padding (cells.map Int.ofNat ++
      List.replicate (paddedLength capacity padding (m * padding) - cells.length) (-1)) := by
  refine CompactPlan.of_filter ?_ hd.nodup hd.mem m ?_
  · rw [filter_append, filter_replicate_neg, filter_map_ofNat, append_nil]
  · simp only [length_append, length_map, length_replicate]
    omega

theorem filter_groupBlocks :
    (groups.flatMap (groupBlock cells capacity groupAlign)).filter (0 ≤ ·) =
      (groups.flatMap (groupMembers cells capacity groupAlign)).map Int.ofNat := by
  induction groups with
  | nil => rfl
  | cons g gs ih =>
    rw [flatMap_cons, flatMap_cons, filter_append, map_append, ih, groupBlock,
      filter_append, filter_replicate_neg, filter_map_ofNat, append_nil]

/-- The cells of the groups in order are in order. -/
theorem flatMap_groupMembers_sorted (hA : 0 < groupAlign) (hc : ∀ c ∈ cells, c < capacity)
    (hs : groups.Pairwise (· < ·)) :
    (groups.flatMap (groupMembers cells capacity groupAlign)).Pairwise (· < ·) := by
  rw [pairwise_flatMap]
  refine ⟨fun g _ => groupMembers_sorted, hs.imp fun {g g'} hlt c hm c' hm' => ?_⟩
  obtain ⟨-, rfl⟩ := (mem_groupMembers hA hc).mp hm
  obtain ⟨-, rfl⟩ := (mem_groupMembers hA hc).mp hm'
  by_contra hge
  exact absurd (Nat.div_le_div_right (Nat.not_lt.mp hge)) (Nat.not_le.mpr hlt)

theorem alignedPlan_compact (hA : 0 < groupAlign) (hd : Distinct l cells)
    (hc : ∀ c ∈ cells, c < capacity) (hs : groups.Pairwise (· < ·))
    (hg : ∀ g, g ∈ groups ↔ ∃ c ∈ cells, c / groupAlign = g) (m : Nat)
    (hlen : groups.length * groupAlign ≤ paddedLength capacity padding (m * padding)) :
    CompactPlan l capacity padding (groups.flatMap (groupBlock cells capacity groupAlign) ++
      List.replicate (paddedLength capacity padding (m * padding) -
        groups.length * groupAlign) (-1)) := by
  have hsort := flatMap_groupMembers_sorted hA hc hs
  refine @CompactPlan.of_filter l _ _ _
    (groups.flatMap (groupMembers cells capacity groupAlign)) ?_
    (hsort.imp fun h => Nat.ne_of_lt h) (fun c => ?_) m ?_
  · rw [filter_append, filter_replicate_neg, filter_groupBlocks, append_nil]
  · rw [mem_flatMap, ← hd.mem]
    constructor
    · rintro ⟨g, -, hm⟩
      exact ((mem_groupMembers hA hc).mp hm).1
    · intro hm
      exact ⟨c / groupAlign, (hg _).mpr ⟨c, hm, rfl⟩, (mem_groupMembers hA hc).mpr ⟨hm, rfl⟩⟩
  · rw [length_append, flatMap_groupBlock_length, length_replicate]
    omega

/-- The `i`-th block of the plan. -/
theorem block_eq {i g : Nat} (hi : groups[i]? = some g) (rest : List Int) :
    ((groups.flatMap (groupBlock cells capacity groupAlign) ++ rest).drop (i * groupAlign)).take
      groupAlign = groupBlock cells capacity groupAlign g := by
  induction groups generalizing i with
  | nil => cases hi
  | cons g' gs ih =>
    rw [flatMap_cons, append_assoc]
    cases i with
    | zero =>
      obtain rfl : g' = g := Option.some.inj hi
      rw [Nat.zero_mul, drop_zero, take_append_of_le_length (by simp),
        take_of_length_le (by simp)]
    | succ i =>
      have hle : (groupBlock cells capacity groupAlign g').length ≤ (i + 1) * groupAlign := by
        rw [groupBlock_length, succ_mul]
        exact Nat.le_add_left _ _
      rw [drop_append, drop_eq_nil_of_le hle, nil_append, groupBlock_length,
        succ_mul, Nat.add_sub_cancel]
      exact ih hi

theorem alignedPlan_blocks (hA : 0 < groupAlign) (hd : Distinct l cells)
    (hc : ∀ c ∈ cells, c < capacity) (hs : groups.Pairwise (· < ·))
    (hg : ∀ g, g ∈ groups ↔ ∃ c ∈ cells, c / groupAlign = g) (rest : List Int) :
    GroupBlocks l groupAlign
      (groups.flatMap (groupBlock cells capacity groupAlign) ++ rest) groups where
  sorted := hs
  touched g := (hg g).trans (exists_congr fun c => and_congr_left' (hd.mem c))
  block i g hi := ⟨groupMembers cells capacity groupAlign g, groupMembers_sorted,
    fun c => (mem_groupMembers hA hc).trans (and_congr_left' (hd.mem c)), block_eq hi rest⟩
  full i g hi hall r hr := by
    have hlt : g * groupAlign + groupAlign ≤ capacity := by
      have := hc _ ((hd.mem _).mpr (hall (groupAlign - 1) (by omega)))
      omega
    have hmem : groupMembers cells capacity groupAlign g =
        List.range' (g * groupAlign) groupAlign := by
      rw [groupMembers, Nat.min_eq_left hlt, Nat.add_sub_cancel_left]
      refine filter_eq_self.mpr fun c hm => decide_eq_true ?_
      obtain ⟨h1, h2⟩ := mem_range'_1.mp hm
      have := hall (c - g * groupAlign) (by omega)
      rwa [Nat.add_sub_cancel' h1, ← hd.mem] at this
    have hget : ∀ plan : List Int, (plan.drop (i * groupAlign)).take groupAlign =
        groupBlock cells capacity groupAlign g →
        plan[i * groupAlign + r]? = (groupBlock cells capacity groupAlign g)[r]? := by
      intro plan h
      rw [← h, getElem?_take_of_lt hr, getElem?_drop]
    rw [hget _ (block_eq hi rest), groupBlock, hmem,
      getElem?_append_left (by rw [length_map, length_range']; exact hr),
      getElem?_map, getElem?_range' (by simpa using hr)]
    simp

end Listed

/-- The plan is as meant: an exception for an invalid extent only, and otherwise the distinct cells
in one of the two forms. -/
def ReadPlanMeets (occupiedCells pendingCells : List Nat)
    (capacity padding groupAlign growth : Nat) : Prop :=
  ((∃ what, llamaKvarnCompactReadPlan occupiedCells pendingCells capacity padding groupAlign
      growth = .error (.throws what)) ↔
    capacity = 0 ∨ padding = 0 ∨ ∃ c ∈ occupiedCells ++ pendingCells, capacity ≤ c) ∧
  (ValidExtent occupiedCells pendingCells capacity padding →
    ∃ plan, llamaKvarnCompactReadPlan occupiedCells pendingCells capacity padding groupAlign
        growth = .ok plan ∧
      CompactPlan (occupiedCells ++ pendingCells) capacity padding plan ∧
      (AlignedChosen occupiedCells pendingCells capacity groupAlign growth →
        ∃ groups, GroupBlocks (occupiedCells ++ pendingCells) groupAlign plan groups))

/-- Neither rounding up wraps around where its result is used. -/
def ReadPlanFits (occupiedCells pendingCells : List Nat)
    (capacity padding groupAlign growth : Nat) : Prop :=
  ValidExtent occupiedCells pendingCells capacity padding →
    GroupsFit occupiedCells pendingCells capacity groupAlign ∧
    (AlignedChosen occupiedCells pendingCells capacity groupAlign growth ∨
      usedCells occupiedCells pendingCells ≤ padding ∨
      usedCells occupiedCells pendingCells + padding - 1 < 2 ^ 32)

section Meets

variable {occupied pending : List Nat} {capacity padding groupAlign growth : Nat}

theorem not_validExtent : ¬ValidExtent occupied pending capacity padding ↔
    capacity = 0 ∨ padding = 0 ∨ ∃ c ∈ occupied ++ pending, capacity ≤ c := by
  unfold ValidExtent
  simp only [not_and_or, not_not, not_forall, not_lt, exists_prop]

theorem readPlan_throws (h : ¬ValidExtent occupied pending capacity padding) :
    ∃ what, llamaKvarnCompactReadPlan occupied pending capacity padding groupAlign growth =
      .error (.throws what) := by
  by_cases h0 : capacity = 0 ∨ padding = 0
  · exact ⟨_, if_pos h0⟩
  · have hc : ∃ c ∈ occupied ++ pending, capacity ≤ c := by
      rcases not_validExtent.mp h with h | h | h
      · exact absurd (.inl h) h0
      · exact absurd (.inr h) h0
      · exact h
    rw [llamaKvarnCompactReadPlan, if_neg h0, removeSeen_throws hc]
    exact ⟨_, rfl⟩

/-- With a valid extent and no wrap around there is a plan, and it is as meant. -/
theorem readPlan_ok (hcap : capacity < 2 ^ 32) (hA : groupAlign < 2 ^ 32)
    (hv : ValidExtent occupied pending capacity padding)
    (hfit : GroupsFit occupied pending capacity groupAlign)
    (hlen : AlignedChosen occupied pending capacity groupAlign growth ∨
      usedCells occupied pending ≤ padding ∨ usedCells occupied pending + padding - 1 < 2 ^ 32) :
    ∃ plan, llamaKvarnCompactReadPlan occupied pending capacity padding groupAlign growth =
        .ok plan ∧
      CompactPlan (occupied ++ pending) capacity padding plan ∧
      (AlignedChosen occupied pending capacity groupAlign growth →
        ∃ groups, GroupBlocks (occupied ++ pending) groupAlign plan groups) := by
  obtain ⟨cells, hd, hle, hc, -, hdense, haligned⟩ := @readPlan_spec _ _ _ _ _ growth hv hcap hA
  by_cases hch : AlignedChosen occupied pending capacity groupAlign growth
  · obtain ⟨groups, hs, hg, hplan⟩ := haligned hfit hch
    have hused : groups.length * groupAlign ≤ capacity := by
      rw [hd.groups_length hs hg]
      exact hch.2.2
    have hpad := @le_paddedLength _ padding _ _ hused (le_roundUp _ (Nat.pos_of_ne_zero hv.2.1))
    exact ⟨_, hplan, alignedPlan_compact hch.1 hd hc hs hg _ hpad,
      fun _ => ⟨groups, alignedPlan_blocks hch.1 hd hc hs hg _⟩⟩
  · have hlen' := hlen.resolve_left hch
    rw [← hd.length] at hlen'
    obtain ⟨m, hplan, hpad⟩ := densePlan_ok (Nat.pos_of_ne_zero hv.2.1) hle hlen'
    exact ⟨_, (hdense hfit hch).trans hplan, densePlan_compact hd m hpad, fun h => absurd h hch⟩

/-- Where a rounding up wraps around, the code leaves an array. -/
theorem readPlan_outOfBounds (hcap : capacity < 2 ^ 32) (hp : padding < 2 ^ 32)
    (hA : groupAlign < 2 ^ 32) (hv : ValidExtent occupied pending capacity padding)
    (h : ¬(GroupsFit occupied pending capacity groupAlign ∧
      (AlignedChosen occupied pending capacity groupAlign growth ∨
        usedCells occupied pending ≤ padding ∨
        usedCells occupied pending + padding - 1 < 2 ^ 32))) :
    llamaKvarnCompactReadPlan occupied pending capacity padding groupAlign growth =
      .error .outOfBounds := by
  obtain ⟨cells, hd, hle, -, hwrap, hdense, -⟩ := @readPlan_spec _ _ _ _ _ growth hv hcap hA
  by_cases hfit : GroupsFit occupied pending capacity groupAlign
  · obtain ⟨hch, hlt, hw⟩ := not_or.mp (fun hn => h ⟨hfit, hn⟩) |>.imp_right not_or.mp
    rw [← hd.length] at hlt hw
    rw [hdense hfit hch]
    exact densePlan_outOfBounds (by omega) hp (Nat.not_le.mp hlt) (Nat.not_lt.mp hw)
  · exact hwrap hfit

end Meets

/-- The plan is as meant if and only if no rounding up wraps around where its result is used. -/
theorem readPlanMeets_iff {occupiedCells pendingCells : List Nat}
    {capacity padding groupAlign growth : Nat} (hcap : capacity < 2 ^ 32) (hp : padding < 2 ^ 32)
    (hA : groupAlign < 2 ^ 32) :
    ReadPlanMeets occupiedCells pendingCells capacity padding groupAlign growth ↔
      ReadPlanFits occupiedCells pendingCells capacity padding groupAlign growth := by
  constructor
  · rintro ⟨-, hok⟩ hv
    obtain ⟨plan, hplan, -⟩ := hok hv
    by_contra h
    rw [readPlan_outOfBounds hcap hp hA hv h] at hplan
    cases hplan
  · intro hfits
    refine ⟨⟨fun hthrows => ?_, fun h => readPlan_throws (not_validExtent.mpr h)⟩, fun hv =>
      readPlan_ok hcap hA hv (hfits hv).1 (hfits hv).2⟩
    obtain ⟨what, hw⟩ := hthrows
    rw [← not_validExtent]
    intro hv
    obtain ⟨plan, hplan, -⟩ := readPlan_ok hcap hA hv (hfits hv).1 (hfits hv).2
    rw [hplan] at hw
    cases hw

/-- Two groups of four cells, the second one with a single cell, and no wrap around. -/
theorem readPlanMeets_small : ReadPlanMeets [0, 1, 2, 3] [4] 16 4 4 60 :=
  (readPlanMeets_iff (by decide) (by decide) (by decide)).mpr
    fun _ => ⟨.inr (.inr (by decide)), .inl (by decide)⟩

/-- The largest capacity, and the bit of group `0` is outside `group_seen`. -/
theorem not_readPlanMeets_wrap : ¬ReadPlanMeets [0] [] (2 ^ 32 - 1) 1 128 25 := by
  rintro ⟨-, hok⟩
  obtain ⟨plan, hplan, -⟩ := hok ⟨by decide, by decide, by decide⟩
  have herr : llamaKvarnCompactReadPlan [0] [] (2 ^ 32 - 1) 1 128 25 = .error .outOfBounds := by
    decide +kernel
  rw [herr] at hplan
  cases hplan

end BeeLlama
