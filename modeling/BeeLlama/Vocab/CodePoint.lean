import Mathlib.Data.List.Basic

/-!
# The steps of one code point

The tokenizers go through a text by the length that the first byte of a code point announces,
valid or not.

* `codeUnits_pos`, `add_codeUnits_le`: a step is not empty and stays in the text.
* `IsBoundary.next_le`: no place where a code point begins lies within another code point.
-/

namespace BeeLlama

/-- `unicode_len_utf8`. -/
def unicodeLenUtf8 (src : UInt8) : Nat :=
  [1, 1, 1, 1, 1, 1, 1, 1, 1, 1, 1, 1, 2, 2, 3, 4].getD (src.toNat >>> 4) 1

theorem unicodeLenUtf8_pos (src : UInt8) : 0 < unicodeLenUtf8 src := by
  have hlt : src.toNat >>> 4 < 16 := by
    have := src.toNat_lt
    rw [Nat.shiftRight_eq_div_pow]
    omega
  have htable : ∀ i < 16, 0 < [1, 1, 1, 1, 1, 1, 1, 1, 1, 1, 1, 1, 2, 2, 3, 4].getD i 1 := by
    decide
  exact htable _ hlt

/-- The code units of the code point at `offs`, as far as the text has them. -/
def codeUnits (text : List UInt8) (offs : Nat) : Nat :=
  match text[offs]? with
  | some c => min (unicodeLenUtf8 c) (text.length - offs)
  | none => 0

/-- A code point begins at the offset, or the text ends there. -/
inductive IsBoundary (text : List UInt8) : Nat → Prop where
  | zero : IsBoundary text 0
  | next {offs : Nat} : IsBoundary text offs → offs < text.length →
      IsBoundary text (offs + codeUnits text offs)

variable {text : List UInt8} {offs : Nat}

theorem codeUnits_pos (h : offs < text.length) : 0 < codeUnits text offs := by
  rw [codeUnits, List.getElem?_eq_getElem h]
  have := unicodeLenUtf8_pos text[offs]
  dsimp only
  omega

theorem add_codeUnits_le (h : offs ≤ text.length) : offs + codeUnits text offs ≤ text.length := by
  rw [codeUnits]
  split
  · omega
  · omega

namespace IsBoundary

theorem le (h : IsBoundary text offs) : offs ≤ text.length := by
  induction h with
  | zero => exact Nat.zero_le _
  | next _ hlt _ => exact add_codeUnits_le (Nat.le_of_lt hlt)

/-- The next boundary is not beyond a later one. -/
theorem next_le {a b : Nat} (ha : IsBoundary text a) (hb : IsBoundary text b) (h : a < b) :
    a + codeUnits text a ≤ b := by
  induction b using Nat.strongRecOn generalizing a with
  | _ b ih =>
    cases hb with
    | zero => omega
    | @next b0 hb0 hlt =>
      have hpos := codeUnits_pos hlt
      rcases Nat.lt_trichotomy a b0 with hab | rfl | hab
      · have := ih b0 (by omega) ha hb0 hab
        omega
      · exact Nat.le_refl _
      · -- `a` would lie within the code point at `b0`
        have := ih a h hb0 ha hab
        omega

end IsBoundary
end BeeLlama
