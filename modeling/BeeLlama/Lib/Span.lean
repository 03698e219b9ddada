import Mathlib.Data.List.Basic
import Mathlib.Algebra.Order.Group.Nat

/-!
# Spans of memory

A `Span` is an interval of natural numbers, by its start and its size. A list of spans `Tiles` the
numbers below `n` if each of them is in exactly one span, and it is `Gapped` if it is sorted and
there is a gap between any two spans.

* `Tiles.split`, `Tiles.join`: a span is cut in two, two spans become one. The order does not matter
  (`Tiles.perm`).
* `Gapped.shrink`, `Gapped.join`: a span loses an end, some spans are replaced by one.
-/

namespace BeeLlama

open List

/-- The numbers from `offset` up to `offset + size`. -/
@[ext]
structure Span where
  offset : Nat
  size : Nat
  deriving DecidableEq, Repr

namespace Span

/-- The end of a span, which is not part of it. -/
def stop (s : Span) : Nat := s.offset + s.size

/-- The number `x` is in the span. -/
def Has (s : Span) (x : Nat) : Prop := s.offset ≤ x ∧ x < s.stop

/-- The spans share no number. -/
def Disj (a b : Span) : Prop := ∀ x, ¬ (a.Has x ∧ b.Has x)

/-- One span ends before the other begins. -/
def Apart (a b : Span) : Prop := a.stop ≤ b.offset ∨ b.stop ≤ a.offset

/-- Some span of the list has the number. -/
def Covered (l : List Span) (x : Nat) : Prop := ∃ s ∈ l, s.Has x

/-- No two spans share a number. -/
def Scattered (l : List Span) : Prop := l.Pairwise Disj

/-- The spans are sorted, with gaps between them. -/
def Gapped (l : List Span) : Prop := l.Pairwise fun a b => a.stop < b.offset

/-- The spans of the list cover the numbers below `n`, each of them once. -/
structure Tiles (l : List Span) (n : Nat) : Prop where
  scattered : Scattered l
  covered : ∀ x, Covered l x ↔ x < n

@[simp] theorem stop_mk (o n : Nat) : (⟨o, n⟩ : Span).stop = o + n := rfl

theorem has_iff {s : Span} {x : Nat} : s.Has x ↔ s.offset ≤ x ∧ x < s.offset + s.size := Iff.rfl

theorem Disj.symm {a b : Span} (h : Disj a b) : Disj b a := fun x hx => h x ⟨hx.2, hx.1⟩

theorem Apart.symm {a b : Span} (h : Apart a b) : Apart b a := Or.symm h

/-- Spans that have a number are apart if they share none. -/
theorem Disj.apart {a b : Span} (h : Disj a b) (ha : 0 < a.size) (hb : 0 < b.size) : Apart a b := by
  unfold Apart
  by_contra hn
  refine h (max a.offset b.offset) ?_
  simp only [has_iff, stop] at *
  omega

/-- Apart, unless the start of the empty span is inside of the other one. -/
theorem Apart.of_not_inside {a b : Span} (hb : b.size = 0)
    (h : ¬ (a.offset < b.offset ∧ b.offset < a.stop)) : Apart a b := by
  simp only [Apart, stop] at *
  omega

section Lists

variable {l l' pre post : List Span} {a b j s t : Span} {x n : Nat}

theorem covered_cons : Covered (b :: l) x ↔ b.Has x ∨ Covered l x := by
  simp [Covered]

/-! ## Tilings, which do not look at the order -/

theorem Tiles.perm (h : Tiles l n) (hp : l.Perm l') : Tiles l' n where
  scattered := (hp.pairwise_iff fun hab => Disj.symm hab).mp h.scattered
  covered x := by
    rw [← h.covered]
    simp [Covered, hp.mem_iff]

/-- A span is cut in two. -/
theorem Tiles.split (h : Tiles (b :: l) n) (hb : ∀ x, b.Has x ↔ s.Has x ∨ t.Has x)
    (hst : Disj s t) : Tiles (s :: t :: l) n where
  scattered := by
    obtain ⟨hbl, hl⟩ := pairwise_cons.mp h.scattered
    refine pairwise_cons.mpr ⟨fun c hc => ?_, pairwise_cons.mpr ⟨fun c hc x hx => ?_, hl⟩⟩
    · rcases mem_cons.mp hc with rfl | hc
      · exact hst
      · exact fun x hx => hbl c hc x ⟨(hb x).mpr (.inl hx.1), hx.2⟩
    · exact hbl c hc x ⟨(hb x).mpr (.inr hx.1), hx.2⟩
  covered x := by
    rw [← h.covered]
    simp only [covered_cons, hb, or_assoc]

/-- Two spans become one. -/
theorem Tiles.join (h : Tiles (s :: t :: l) n) (hj : ∀ x, j.Has x ↔ s.Has x ∨ t.Has x) :
    Tiles (j :: l) n where
  scattered := by
    obtain ⟨hs, h'⟩ := pairwise_cons.mp h.scattered
    obtain ⟨ht, hl⟩ := pairwise_cons.mp h'
    refine pairwise_cons.mpr ⟨fun c hc x hx => ?_, hl⟩
    rcases (hj x).mp hx.1 with hx' | hx'
    · exact hs c (mem_cons_of_mem _ hc) x ⟨hx', hx.2⟩
    · exact ht c hc x ⟨hx', hx.2⟩
  covered x := by
    rw [← h.covered]
    simp only [covered_cons, hj, or_assoc]

theorem Tiles.of_cons_empty (h : Tiles (b :: l) n) (hb : b.size = 0) : Tiles l n where
  scattered := (pairwise_cons.mp h.scattered).2
  covered x := by
    rw [← h.covered, covered_cons, or_iff_right]
    rintro ⟨h1, h2⟩
    simp only [stop] at h2
    omega

theorem Tiles.single : Tiles [⟨0, n⟩] n where
  scattered := pairwise_singleton _ _
  covered x := by simp [Covered, Has]

/-! ## Sorted lists with gaps -/

/-- The span `j` is a piece of `b`, which it replaces. -/
theorem Gapped.shrink (h : Gapped (pre ++ b :: post)) (ho : b.offset ≤ j.offset)
    (hs : j.stop ≤ b.stop) : Gapped (pre ++ j :: post) := by
  simp only [Gapped, pairwise_append, pairwise_cons, mem_cons] at h ⊢
  obtain ⟨hpre, ⟨hb, hpost⟩, hcross⟩ := h
  refine ⟨hpre, ⟨fun c hc => lt_of_le_of_lt hs (hb c hc), hpost⟩, fun a ha c hc => ?_⟩
  rcases hc with rfl | hc
  · exact lt_of_lt_of_le (hcross a ha b (.inl rfl)) ho
  · exact hcross a ha c (.inr hc)

theorem Gapped.erase (h : Gapped (pre ++ b :: post)) : Gapped (pre ++ post) :=
  List.Pairwise.sublist (List.Sublist.append_left (sublist_cons_self b post) pre) h

/-- The spans `mid` are replaced by the span `j`. -/
theorem Gapped.join (mid : List Span) (h : Gapped (pre ++ (mid ++ post)))
    (hpre : ∀ a ∈ pre, a.stop < j.offset) (hpost : ∀ c ∈ post, j.stop < c.offset) :
    Gapped (pre ++ j :: post) := by
  simp only [Gapped, pairwise_append, pairwise_cons, mem_cons, mem_append] at h ⊢
  obtain ⟨h1, ⟨-, h2, -⟩, hcross⟩ := h
  refine ⟨h1, ⟨hpost, h2⟩, fun a ha c hc => ?_⟩
  rcases hc with rfl | hc
  · exact hpre a ha
  · exact hcross a ha c (.inr hc)

/-- Without a gap there is one span. -/
theorem Tiles.eq_single (h : Tiles l n) (hg : Gapped l) (hs : ∀ b ∈ l, b.stop ≤ n) (hn : 0 < n) :
    l = [⟨0, n⟩] := by
  cases l with
  | nil => exact absurd ((h.covered 0).mpr hn) (by simp [Covered])
  | cons b l =>
    have hb := (pairwise_cons.mp hg).1
    have hle := hs b mem_cons_self
    have h0 : b.Has 0 := by
      rcases covered_cons.mp ((h.covered 0).mpr hn) with h0 | ⟨c, hc, h0⟩
      · exact h0
      · exact absurd (hb c hc) (by simp [h0.1.antisymm (Nat.zero_le _)])
    -- what follows the end of the first span is in no other one
    have hstop : b.stop = n := by
      by_contra hne
      rcases covered_cons.mp ((h.covered b.stop).mpr (hle.lt_of_ne hne)) with hx | ⟨c, hc, hx⟩
      · exact lt_irrefl _ hx.2
      · exact absurd hx.1 (Nat.not_le.mpr (hb c hc))
    have hl : l = [] := eq_nil_iff_forall_not_mem.mpr fun c hc => by
      have h1 := hb c hc
      have h2 := hs c (mem_cons_of_mem _ hc)
      simp only [stop] at *
      omega
    rw [hl, ← hstop, stop, Nat.le_zero.mp h0.1, Nat.zero_add, ← Nat.le_zero.mp h0.1]

end Lists

end Span
end BeeLlama
