import Mathlib.Data.List.Sort

/-!
# The greatest items of a list

`IsTop f l top`: the list `top` has items of `l` in descending order of `f`, and no item that is
left over is greater than one of them.

* `IsTop.append`: the greatest items are those of the greatest class, and behind them the greatest
  ones of the rest.
* `IsTop.map_eq`: two selections of one size only differ in items that are equal under `f`.
-/

namespace BeeLlama

open List

variable {α L : Type} [LinearOrder L] {f : α → L} {l l' top top' : List α}

/-- The greatest items of a list, in descending order. -/
structure IsTop (f : α → L) (l top : List α) : Prop where
  sorted : top.Pairwise fun a b => f b ≤ f a
  rest : ∃ rest, (top ++ rest).Perm l ∧ ∀ a ∈ top, ∀ b ∈ rest, f b ≤ f a

namespace IsTop

theorem perm (h : IsTop f l top) (hp : l.Perm l') : IsTop f l' top := by
  obtain ⟨rest, hperm, hle⟩ := h.rest
  exact ⟨h.sorted, rest, hperm.trans hp, hle⟩

/-- Every item is there at most as often as in the list. -/
theorem subperm (h : IsTop f l top) : top.Subperm l := by
  obtain ⟨rest, hperm, -⟩ := h.rest
  exact (sublist_append_left top rest).subperm.trans hperm.subperm

theorem mem (h : IsTop f l top) {a : α} (ha : a ∈ top) : a ∈ l := h.subperm.subset ha

/-- The items of a greater class go in front. -/
theorem append {more moreTop : List α} (h : top.Perm l)
    (hs : top.Pairwise fun a b => f b ≤ f a) (hm : IsTop f more moreTop)
    (hlt : ∀ a ∈ l, ∀ b ∈ more, f b ≤ f a) : IsTop f (l ++ more) (top ++ moreTop) := by
  obtain ⟨rest, hperm, hle⟩ := hm.rest
  refine ⟨pairwise_append.mpr ⟨hs, hm.sorted, fun a ha b hb => ?_⟩, rest, ?_, ?_⟩
  · exact hlt a (h.subset ha) b (hm.mem hb)
  · rw [append_assoc]
    exact h.append hperm
  · intro a ha b hb
    rcases mem_append.mp ha with ha | ha
    · exact hlt a (h.subset ha) b (hperm.subset (mem_append_right _ hb))
    · exact hle a ha b hb

/-- Items that are less than all that were selected do not count. -/
theorem append_right (h : IsTop f l top) (hlt : ∀ a ∈ top, ∀ b ∈ l', f b ≤ f a) :
    IsTop f (l ++ l') top := by
  obtain ⟨rest, hperm, hle⟩ := h.rest
  refine ⟨h.sorted, rest ++ l', ?_, fun a ha b hb => ?_⟩
  · rw [← append_assoc]
    exact hperm.append_right l'
  · exact (mem_append.mp hb).elim (hle a ha b) (hlt a ha b)

/-- Two selections of one size have equal values. -/
theorem map_eq (h : IsTop f l top) (h' : IsTop f l top') (hlen : top.length = top'.length) :
    top.map f = top'.map f := by
  have hsort : ∀ {t : List α}, IsTop f l t →
      ∃ r : List L, (t.map f ++ r).Perm (l.map f) ∧ (t.map f ++ r).Pairwise (· ≥ ·) := by
    intro t ht
    obtain ⟨rest, hperm, hle⟩ := ht.rest
    refine ⟨(rest.map f).insertionSort (· ≥ ·), ?_, pairwise_append.mpr
      ⟨pairwise_map.mpr ht.sorted, pairwise_insertionSort _ _, fun a ha b hb => ?_⟩⟩
    · have := (perm_insertionSort (· ≥ ·) (rest.map f)).append_left (t.map f)
      rw [← map_append] at this
      exact this.trans (hperm.map f)
    · obtain ⟨x, hx, rfl⟩ := mem_map.mp ha
      obtain ⟨y, hy, rfl⟩ := mem_map.mp ((perm_insertionSort _ _).subset hb)
      exact hle x hx y hy
  obtain ⟨r, hp, hs⟩ := hsort h
  obtain ⟨r', hp', hs'⟩ := hsort h'
  have heq := (hp.trans hp'.symm).eq_of_pairwise (fun a b _ _ hab hba => le_antisymm hba hab) hs hs'
  exact (append_inj heq (by simpa using hlen)).1

end IsTop
end BeeLlama
