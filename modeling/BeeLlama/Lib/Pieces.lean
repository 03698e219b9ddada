import BeeLlama.Lib.Buffer

/-!
# Pieces that go to their own places in a buffer

* `Overlaid`: every piece is at its place and the rest of the buffer is as before. It fixes the
  buffer (`Overlaid.unique`) and does not depend on the order of the pieces
  (`Overlaid.congr`).
* `Overlaid.append`: two lists of pieces one after the other, if no piece of the second covers
  a place of the first.
* `Outcome`: a procedure that fails, or places; `Outcome.bind` composes them and
  `Outcome.unique` compares them.
-/

namespace BeeLlama

open List

variable {α : Type}

/-- Items and the place of the first. -/
structure Piece (α : Type) where
  start : Nat
  items : List α
  deriving DecidableEq, Repr

/-- Place `j` holds an item of the piece. -/
def Piece.Covers (p : Piece α) (j : Nat) : Prop := p.start ≤ j ∧ j < p.start + p.items.length

/-- No place belongs to both. -/
def Piece.Apart (p q : Piece α) : Prop := ∀ j, p.Covers j → ¬q.Covers j

/-- The buffer `out` is `buf` with the pieces at their places. -/
structure Overlaid (l : List (Piece α)) (buf out : List α) : Prop where
  length : out.length = buf.length
  items : ∀ p ∈ l, ∀ k, k < p.items.length → out[p.start + k]? = p.items[k]?
  rest : ∀ j, (∀ p ∈ l, ¬p.Covers j) → out[j]? = buf[j]?

namespace Overlaid

variable {l l' : List (Piece α)} {buf mid out out' : List α}

/-- A covered place holds the piece's item. -/
theorem covered (h : Overlaid l buf out) {p : Piece α} (hp : p ∈ l) {j : Nat}
    (hj : p.Covers j) : out[j]? = p.items[j - p.start]? := by
  obtain ⟨hle, hlt⟩ := hj
  have := h.items p hp (j - p.start) (by omega)
  rwa [Nat.add_sub_cancel' hle] at this

/-- The pieces fix the buffer. -/
theorem unique (h : Overlaid l buf out) (h' : Overlaid l buf out') : out = out' := by
  refine ext_getElem? fun j => ?_
  by_cases hj : ∃ p ∈ l, p.Covers j
  · obtain ⟨p, hp, hc⟩ := hj
    rw [h.covered hp hc, h'.covered hp hc]
  · have hno : ∀ p ∈ l, ¬p.Covers j := fun p hp hc => hj ⟨p, hp, hc⟩
    rw [h.rest j hno, h'.rest j hno]

/-- Only which pieces there are matters. -/
theorem congr (hl : ∀ p, p ∈ l ↔ p ∈ l') (h : Overlaid l buf out) : Overlaid l' buf out where
  length := h.length
  items p hp := h.items p ((hl p).mpr hp)
  rest j hj := h.rest j fun p hp => hj p ((hl p).mp hp)

/-- Empty pieces change nothing. -/
theorem of_empty (h : ∀ p ∈ l, p.items = []) : Overlaid l buf buf where
  length := rfl
  items p hp k hk := by simp [h p hp] at hk
  rest _ _ := rfl

theorem nil : Overlaid [] buf buf := of_empty (by simp)

/-- Pieces that the second round leaves alone stay. -/
theorem append (h : Overlaid l buf mid) (h' : Overlaid l' mid out)
    (hapart : ∀ p ∈ l, ∀ q ∈ l', p.Apart q) : Overlaid (l ++ l') buf out where
  length := h'.length.trans h.length
  items p hp k hk := by
    rcases mem_append.mp hp with hp | hp
    · have hc : p.Covers (p.start + k) := ⟨by omega, by omega⟩
      rw [h'.rest _ fun q hq => hapart p hp q hq _ hc, h.items p hp k hk]
    · exact h'.items p hp k hk
  rest j hj := by
    rw [h'.rest j fun q hq => hj q (mem_append_right _ hq),
      h.rest j fun p hp => hj p (mem_append_left _ hp)]

/-- Items written one after another are one piece. -/
theorem of_writeFrom (buf xs : List α) (i : Nat) (h : i + xs.length ≤ buf.length) :
    ∃ out, writeFrom buf i xs = some out ∧ Overlaid [⟨i, xs⟩] buf out := by
  refine ⟨_, writeFrom_eq h, ?_, ?_, ?_⟩
  · simp only [length_append, length_take, length_drop]
    omega
  · intro p hp k hk
    obtain rfl := mem_singleton.mp hp
    dsimp only at hk ⊢
    rw [append_assoc, getElem?_append_right (by rw [length_take]; omega), getElem?_append_left]
    · simp [Nat.min_eq_left (show i ≤ buf.length by omega)]
    · simp only [length_take]
      omega
  · intro j hj
    have hj : ¬(i ≤ j ∧ j < i + xs.length) := hj _ mem_cons_self
    rcases Nat.lt_or_ge j i with hlt | hge
    · rw [append_assoc, getElem?_append_left (by rw [length_take]; omega),
        getElem?_take_of_lt hlt]
    · rw [getElem?_append_right (by rw [length_append, length_take]; omega),
        getElem?_drop]
      congr 1
      simp only [length_append, length_take]
      omega

end Overlaid

/-! ## Procedures that may fail -/

/-- The procedure places `l` if `ok` holds, and fails if not. -/
def Outcome (ok : Prop) (l : List (Piece α)) (buf : List α) : Option (List α) → Prop
  | some out => ok ∧ Overlaid l buf out
  | none => ¬ok

namespace Outcome

variable {ok ok' : Prop} {l l' : List (Piece α)} {buf out : List α} {r r' : Option (List α)}

theorem congr (hok : ok ↔ ok') (hl : ∀ p, p ∈ l ↔ p ∈ l') (h : Outcome ok l buf r) :
    Outcome ok' l' buf r := by
  cases r with
  | none => exact fun h' => h (hok.mpr h')
  | some out => exact ⟨hok.mp h.1, h.2.congr hl⟩

/-- what there is to place fixes the result. -/
theorem unique (h : Outcome ok l buf r) (h' : Outcome ok l buf r') : r = r' := by
  cases r with
  | none =>
    cases r' with
    | none => rfl
    | some out' => exact absurd h'.1 h
  | some out =>
    cases r' with
    | none => exact absurd h.1 h'
    | some out' => rw [h.2.unique h'.2]

/-- A procedure on a buffer that has pieces at their places already. -/
theorem after {mid : List α} (h : Overlaid l buf mid) (h' : Outcome ok l' mid r)
    (hapart : ∀ p ∈ l, ∀ q ∈ l', p.Apart q) : Outcome ok (l ++ l') buf r := by
  cases r with
  | none => exact h'
  | some out => exact ⟨h'.1, h.append h'.2 hapart⟩

/-- A second procedure on the buffer that the first leaves. -/
theorem bind {f : List α → Option (List α)} (h : Outcome ok l buf r)
    (hf : ∀ mid, mid.length = buf.length → Outcome ok' l' mid (f mid))
    (hapart : ∀ p ∈ l, ∀ q ∈ l', p.Apart q) :
    Outcome (ok ∧ ok') (l ++ l') buf (r.bind f) := by
  cases r with
  | none => exact fun hok => h hok.1
  | some mid => exact (after h.2 (hf mid h.2.length) hapart).congr (by simp [h.1]) fun _ => Iff.rfl

end Outcome

end BeeLlama
