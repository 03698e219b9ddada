import Mathlib.Tactic.Common

/-!
# Loops that break

`breakLoop body` runs `body` until it breaks with a value, for a number of rounds at most.
`breakLoop_spec` turns a proof about the loop into one about a single round: an invariant, a measure
that a round without a break makes smaller, and what holds of the value at the break.
-/

namespace BeeLlama

variable {σ β : Type}

/-- `while (true)`: a round goes on with a state or breaks with a value. There is no result if the
loop is still running after `fuel` rounds. -/
def breakLoop (body : σ → σ ⊕ β) : Nat → σ → Option β
  | 0, _ => none
  | fuel + 1, s =>
    match body s with
    | .inl s => breakLoop body fuel s
    | .inr b => some b

variable {body : σ → σ ⊕ β}

theorem breakLoop_mono {fuel k : Nat} {s : σ} {b : β} (e : breakLoop body fuel s = some b)
    (h : fuel ≤ k) : breakLoop body k s = some b := by
  induction fuel generalizing s k with
  | zero => cases e
  | succ fuel ih =>
    obtain ⟨k, rfl⟩ : ∃ k', k = k' + 1 := ⟨k - 1, by omega⟩
    rw [breakLoop] at e ⊢
    cases hb : body s with
    | inl s' =>
      rw [hb] at e
      exact ih e (by omega)
    | inr b' =>
      rw [hb] at e
      exact e

theorem breakLoop_spec (inv : σ → Prop) (m : σ → Nat) (post : β → Prop)
    (next : ∀ s s', inv s → body s = .inl s' → inv s' ∧ m s' < m s)
    (done : ∀ s b, inv s → body s = .inr b → post b) {s : σ} (h : inv s) {fuel : Nat}
    (hf : m s < fuel) : ∃ b, breakLoop body fuel s = some b ∧ post b := by
  induction fuel generalizing s with
  | zero => omega
  | succ fuel ih =>
    cases e : body s with
    | inl s' =>
      obtain ⟨h', hlt⟩ := next s s' h e
      obtain ⟨b, hb, hp⟩ := ih h' (by omega)
      exact ⟨b, by rw [breakLoop, e]; exact hb, hp⟩
    | inr b => exact ⟨b, by rw [breakLoop, e], done s b h e⟩

end BeeLlama
