import Mathlib.Algebra.GroupWithZero.Nat
/-!
# Fallible computations in sequence

* `bind_ok`: if the sequence has a result, the first computation has one and the rest has it.
* `ok_bind`: and the other way round.
* `bind_error`: if it fails, the first computation fails or the rest fails after its result.
-/

namespace BeeLlama

variable {ε α β : Type} {x : Except ε α} {f : α → Except ε β}

theorem bind_ok {r : β} (h : x >>= f = .ok r) : ∃ a, x = .ok a ∧ f a = .ok r := by
  cases x with
  | error e => cases h
  | ok a => exact ⟨a, rfl, h⟩

theorem ok_bind {a : α} {r : β} (hx : x = .ok a) (hf : f a = .ok r) : x >>= f = .ok r := by
  rw [hx]
  exact hf

theorem bind_error {e : ε} (h : x >>= f = .error e) :
    x = .error e ∨ ∃ a, x = .ok a ∧ f a = .error e := by
  cases x with
  | error e' => exact .inl (congrArg _ (Except.error.inj h))
  | ok a => exact .inr ⟨a, rfl, h⟩

end BeeLlama
