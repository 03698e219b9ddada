import Mathlib.Data.List.Infix

/-!
# The longest suffix in a set of words

A set `P` of words that has the prefixes of its words is what a trie holds. An automaton that
searches for words keeps the longest suffix of what it has read that is in the set.

* `Longest.snoc`: the suffix after one more character only depends on the suffix before it.
* `Longest.of_tail`: where the word itself is not in the set, its longest suffix is that of its
  tail.
* `endsIn_iff`: whether one of the words ends here is seen on the suffix.
-/

namespace BeeLlama.Suffix

open List

variable {α : Type} {P Q : List α → Prop}

/-- `v` is the longest suffix of `w` in the set. -/
structure Longest (P : List α → Prop) (w v : List α) : Prop where
  suffix : v <:+ w
  mem : P v
  longest : ∀ u, u <:+ w → P u → u <:+ v

/-- The set has the prefixes of its words. -/
structure PrefixClosed (P : List α → Prop) : Prop where
  nil : P []
  init : ∀ w c, P (w ++ [c]) → P w

theorem PrefixClosed.of_prefix (hP : PrefixClosed P) {u w : List α} (h : u <+: w) (hw : P w) :
    P u := by
  obtain ⟨z, rfl⟩ := h
  induction z using List.reverseRecOn with
  | nil => rwa [append_nil] at hw
  | append_singleton z c ih =>
    rw [← append_assoc] at hw
    exact ih (hP.init _ c hw)

theorem Longest.unique {w v v' : List α} (h : Longest P w v) (h' : Longest P w v') : v = v' := by
  have h1 := h'.longest v h.suffix h.mem
  have h2 := h.longest v' h'.suffix h'.mem
  exact h1.eq_of_length (le_antisymm h1.length_le h2.length_le)

theorem Longest.self {w : List α} (h : P w) : Longest P w w :=
  ⟨suffix_refl w, h, fun _ hu _ => hu⟩

theorem Longest.nil (hP : PrefixClosed P) : Longest P [] [] := .self hP.nil

/-- A suffix of a word that goes on is empty, or it goes on, too. -/
theorem suffix_snoc {u w : List α} {c : α} (h : u <:+ w ++ [c]) :
    u = [] ∨ ∃ u', u = u' ++ [c] ∧ u' <:+ w := by
  obtain ⟨l, hl⟩ := h
  rcases eq_nil_or_concat u with rfl | ⟨u', d, rfl⟩
  · exact .inl rfl
  · refine .inr ⟨u', ?_⟩
    rw [concat_eq_append, ← append_assoc] at hl
    obtain ⟨h1, h2⟩ := append_inj' hl rfl
    rw [concat_eq_append, singleton_inj.mp h2]
    exact ⟨rfl, l, h1⟩

theorem suffix_snoc_snoc {u w : List α} {c : α} (h : u <:+ w) : u ++ [c] <:+ w ++ [c] := by
  obtain ⟨l, rfl⟩ := h
  exact ⟨l, by simp⟩

/-- The suffix after one more character only depends on the suffix before it. -/
theorem Longest.snoc (hP : PrefixClosed P) {w v v' : List α} {c : α} (h : Longest P w v)
    (h' : Longest P (v ++ [c]) v') : Longest P (w ++ [c]) v' := by
  refine ⟨h'.suffix.trans (suffix_snoc_snoc h.suffix), h'.mem, fun u hu hPu => ?_⟩
  rcases suffix_snoc hu with rfl | ⟨u', rfl, hu'⟩
  · exact nil_suffix
  · exact h'.longest _ (suffix_snoc_snoc (h.longest u' hu' (hP.init u' c hPu))) hPu

/-- The longest suffix of a word that is not in the set is that of its tail. -/
theorem Longest.of_tail {a : α} {w v : List α} (hn : ¬ P (a :: w)) (h : Longest P w v) :
    Longest P (a :: w) v := by
  refine ⟨h.suffix.trans (suffix_cons a w), h.mem, fun u hu hPu => ?_⟩
  rcases suffix_cons_iff.mp hu with rfl | hu
  · exact absurd hPu hn
  · exact h.longest u hu hPu

/-- A word of the set ends here. -/
def EndsIn (Q : List α → Prop) (w : List α) : Prop := ∃ u, Q u ∧ u <:+ w

/-- Whether a word ends here is seen on the longest suffix. -/
theorem endsIn_iff {w v : List α} (hQ : ∀ u, Q u → P u) (h : Longest P w v) :
    EndsIn Q w ↔ EndsIn Q v := by
  constructor
  · rintro ⟨u, hu, hsuf⟩
    exact ⟨u, hu, h.longest u hsuf (hQ u hu)⟩
  · rintro ⟨u, hu, hsuf⟩
    exact ⟨u, hu, hsuf.trans h.suffix⟩

/-- A word ends here if it is this one, or if it ends in the tail. -/
theorem endsIn_cons {a : α} {w : List α} : EndsIn Q (a :: w) ↔ Q (a :: w) ∨ EndsIn Q w := by
  constructor
  · rintro ⟨u, hu, hsuf⟩
    rcases suffix_cons_iff.mp hsuf with rfl | hsuf
    · exact .inl hu
    · exact .inr ⟨u, hu, hsuf⟩
  · rintro (h | ⟨u, hu, hsuf⟩)
    · exact ⟨_, h, suffix_refl _⟩
    · exact ⟨u, hu, hsuf.trans (suffix_cons a w)⟩

/-- A word contains one of the set if one ends at a prefix of it. -/
theorem exists_infix_iff {w : List α} : (∃ u, Q u ∧ u <:+: w) ↔ ∃ v, v <+: w ∧ EndsIn Q v := by
  constructor
  · rintro ⟨u, hu, s, t, e⟩
    exact ⟨s ++ u, ⟨t, e⟩, u, hu, suffix_append s u⟩
  · rintro ⟨v, hv, u, hu, hsuf⟩
    exact ⟨u, hu, hsuf.isInfix.trans hv.isInfix⟩

end BeeLlama.Suffix
