import Mathlib.Data.List.DropRight
import Mathlib.Data.List.Infix

/-!
# How long a word agrees with itself

`Overlaps w k m`: the word goes on at place `k` with its own first `m` items. `Overlap w k m`: and
`m` is as long as it gets. A part of the word that repeats its beginning (a box, from `lt` up to
`rt`) tells overlaps inside of it.

* `Overlap.of_box`: an overlap that ends in the box is that of the place it repeats.
* `Overlap.min_of_box`: a bound on the lengths does not disturb that.
* `Overlap.longest`: for the reverse of a word these are the suffixes that it has in common with
  itself without its last `k` items.
-/

namespace BeeLlama

open List

variable {α : Type} {w : List α} {k m m' : Nat}

/-- The first `m` items are also those from place `k` on. -/
structure Overlaps (w : List α) (k m : Nat) : Prop where
  le : k + m ≤ w.length ∨ m = 0
  eq : ∀ i < m, w[i]? = w[k + i]?

/-- The longest such overlap. -/
structure Overlap (w : List α) (k m : Nat) : Prop extends Overlaps w k m where
  stop : k + m < w.length → w[m]? ≠ w[k + m]?

namespace Overlaps

theorem zero (w : List α) (k : Nat) : Overlaps w k 0 := ⟨.inr rfl, by simp⟩

theorem mono (h : Overlaps w k m) (hm : m' ≤ m) : Overlaps w k m' where
  le := by
    have := h.le
    omega
  eq i hi := h.eq i (by omega)

theorem succ (h : Overlaps w k m) (hlt : k + m < w.length) (e : w[m]? = w[k + m]?) :
    Overlaps w k (m + 1) where
  le := .inl hlt
  eq i hi := by
    rcases Nat.lt_or_eq_of_le (Nat.lt_succ_iff.mp hi) with hi | rfl
    · exact h.eq i hi
    · exact e

/-- An overlap is no longer than the longest one. -/
theorem le_overlap (h : Overlaps w k m) (h' : Overlap w k m') : m ≤ m' := by
  by_contra hlt
  have := h.le
  exact h'.stop (by omega) (h.eq m' (by omega))

/-- Inside of a box the word repeats its beginning. -/
theorem in_box {lt n q : Nat} (hbox : Overlaps w lt n) (hle : lt ≤ k) (hq : k - lt + q < n) :
    w[k - lt + q]? = w[k + q]? := by
  have := hbox.eq (k - lt + q) hq
  rwa [show lt + (k - lt + q) = k + q by omega] at this

/-- An overlap at the place that is repeated, as far as the box goes. -/
theorem of_box {lt n : Nat} (hbox : Overlaps w lt n) (hle : lt ≤ k)
    (h : Overlaps w (k - lt) m) (hm : k - lt + m ≤ n) : Overlaps w k m where
  le := by
    have := hbox.le
    omega
  eq i hi := (h.eq i hi).trans (in_box hbox hle (by omega))

end Overlaps

namespace Overlap

/-- An overlap that ends in the box is that of the place it repeats. -/
theorem of_box {lt n : Nat} (hbox : Overlaps w lt n) (hle : lt ≤ k)
    (h : Overlap w (k - lt) m) (hm : k - lt + m < n) : Overlap w k m where
  toOverlaps := hbox.of_box hle h.toOverlaps (by omega)
  stop _ e := by
    have hlen := hbox.le
    exact h.stop (by omega) (e.trans (Overlaps.in_box hbox hle hm).symm)

/-- With lengths cut at a limit: what ends in the box is that of the place it repeats. -/
theorem min_of_box {lt n limit : Nat} (hbox : Overlaps w lt n) (hle : lt ≤ k)
    (h : Overlap w (k - lt) m) (hm : k - lt + min m limit < n) (h' : Overlap w k m') :
    min m' limit = min m limit := by
  rcases Nat.lt_or_ge (k - lt + m) n with hin | hout
  · have h'' := Overlap.of_box hbox hle h hin
    rw [le_antisymm (h'.toOverlaps.le_overlap h'') (h''.toOverlaps.le_overlap h')]
  · -- the limit is reached before the box ends
    have hov := hbox.of_box hle (h.toOverlaps.mono (show n - (k - lt) ≤ m by omega)) (by omega)
    have := hov.le_overlap h'
    omega

end Overlap

theorem exists_overlap (w : List α) (k : Nat) : ∃ m, Overlap w k m := by
  have hstep : ∀ n m, w.length - m ≤ n → Overlaps w k m → ∃ m', Overlap w k m' := by
    intro n
    induction n with
    | zero =>
      intro m hn h
      exact ⟨m, h, fun hlt => by omega⟩
    | succ n ih =>
      intro m hn h
      by_cases hstop : k + m < w.length ∧ w[m]? = w[k + m]?
      · exact ih (m + 1) (by omega) (h.succ hstop.1 hstop.2)
      · exact ⟨m, h, fun hlt e => hstop ⟨hlt, e⟩⟩
  exact hstep w.length 0 (by omega) (.zero w k)

/-! ## Common suffixes -/

/-- The length of the longest common suffix. -/
structure LongestCommonSuffix (a b : List α) (m : Nat) : Prop where
  is_common : ∃ s, s.length = m ∧ s <:+ a ∧ s <:+ b
  longest : ∀ s, s <:+ a → s <:+ b → s.length ≤ m

theorem overlaps_of_begins {s : List α} (h : s <+: w) (hk : s <+: w.drop k) :
    Overlaps w k s.length where
  le := by
    have := hk.length_le
    rw [length_drop] at this
    omega
  eq i hi := by
    obtain ⟨t, ht⟩ := h
    obtain ⟨t', ht'⟩ := hk
    rw [← getElem?_drop, ← ht', ← ht, getElem?_append_left hi, getElem?_append_left hi]

theorem Overlaps.prefix_drop (h : Overlaps w k m) : w.take m <+: w.drop k := by
  rw [prefix_iff_getElem?]
  intro i hi
  rw [length_take] at hi
  rw [getElem?_drop, ← h.eq i (by omega), getElem_take]
  exact getElem?_eq_getElem (by omega)

/-- In the reverse of a word the overlap is the longest common suffix with the word without its
last `k` items. -/
theorem Overlap.longest (h : Overlap w.reverse k m) : LongestCommonSuffix w (w.rdrop k) m where
  is_common := by
    have hle := h.le
    rw [length_reverse] at hle
    refine ⟨(w.reverse.take m).reverse, ?_, ?_, ?_⟩
    · rw [length_reverse, length_take, length_reverse]
      omega
    · rw [← reverse_prefix, reverse_reverse]
      exact take_prefix m _
    · rw [← reverse_prefix, reverse_reverse, rdrop_eq_reverse_drop_reverse, reverse_reverse]
      exact h.toOverlaps.prefix_drop
  longest s hs hs' := by
    rw [← reverse_prefix] at hs hs'
    rw [rdrop_eq_reverse_drop_reverse, reverse_reverse] at hs'
    have := (overlaps_of_begins hs hs').le_overlap h
    rwa [length_reverse] at this

end BeeLlama
