import Mathlib.Data.List.Basic

/-!
# Greedy assignment

Items get values one after the other. Each item gets the first value of its own order that fits,
given the values of the items before it.

* `Assigns`: the relation between the items and the pairs that they get.
* `Assigns.inv`: the invariant rule.
* `Stuck.not_assigns`: an item without a fitting value leaves no assignment.
-/

namespace BeeLlama.Greedy

open List

variable {α β : Type} {fits : List (α × β) → α → β → Prop} {order : α → List β}

/-- `b` is the first value for `a` that fits after `taken`. -/
def First (fits : List (α × β) → α → β → Prop) (order : α → List β) (taken : List (α × β)) (a : α)
    (b : β) : Prop :=
  ∃ l₁ l₂, order a = l₁ ++ b :: l₂ ∧ fits taken a b ∧ ∀ x ∈ l₁, ¬ fits taken a x

/-- The items get their values, after those of `taken`. -/
inductive Assigns (fits : List (α × β) → α → β → Prop) (order : α → List β) :
    List α → List (α × β) → List (α × β) → Prop where
  | nil (taken : List (α × β)) : Assigns fits order [] taken taken
  | cons {a : α} {b : β} {as : List α} {taken out : List (α × β)} :
    First fits order taken a b → Assigns fits order as (taken ++ [(a, b)]) out →
      Assigns fits order (a :: as) taken out

/-- The items up to one get their values, and nothing fits for that one. -/
def Stuck (fits : List (α × β) → α → β → Prop) (order : α → List β) (as : List α)
    (taken : List (α × β)) : Prop :=
  ∃ as₁ a as₂ out, as = as₁ ++ a :: as₂ ∧ Assigns fits order as₁ taken out ∧
    ∀ b ∈ order a, ¬ fits out a b

variable {as : List α} {taken out out' : List (α × β)} {a : α} {b b' : β}

theorem First.mem (h : First fits order taken a b) : b ∈ order a := by
  obtain ⟨l1, l2, e, -, -⟩ := h
  rw [e]
  exact mem_append_right l1 mem_cons_self

theorem First.holds (h : First fits order taken a b) : fits taken a b := by
  obtain ⟨_, _, -, hf, -⟩ := h
  exact hf

/-- Of two splits of a list the first one ends first, or they are the same. -/
theorem First.unique (h : First fits order taken a b) (h' : First fits order taken a b') :
    b = b' := by
  obtain ⟨l1, l2, e, hf, hn⟩ := h
  obtain ⟨k1, k2, e', hf', hn'⟩ := h'
  rw [e] at e'
  rcases append_eq_append_iff.mp e' with ⟨m, rfl, hm⟩ | ⟨m, rfl, hm⟩
  · cases m with
    | nil => exact (List.cons.inj hm).1
    | cons x m =>
      cases hm
      exact absurd hf (hn' b (mem_append_right l1 mem_cons_self))
  · cases m with
    | nil => exact (List.cons.inj hm).1.symm
    | cons x m =>
      cases hm
      exact absurd hf' (hn b' (mem_append_right k1 mem_cons_self))

/-- What every fitting pair keeps holds at the end. -/
theorem Assigns.inv {P : List (α × β) → Prop} (h : Assigns fits order as taken out)
    (step : ∀ taken a b, P taken → b ∈ order a → fits taken a b → P (taken ++ [(a, b)]))
    (h₀ : P taken) : P out := by
  induction h with
  | nil taken => exact h₀
  | cons hf _ ih => exact ih (step _ _ _ h₀ hf.mem hf.holds)

theorem Stuck.cons (hf : First fits order taken a b)
    (h : Stuck fits order as (taken ++ [(a, b)])) : Stuck fits order (a :: as) taken := by
  obtain ⟨as1, a', as2, out, rfl, ho, hn⟩ := h
  exact ⟨a :: as1, a', as2, out, rfl, .cons hf ho, hn⟩

/-- An item for which nothing fits leaves no assignment of all items. -/
theorem Stuck.not_assigns (h : Stuck fits order as taken) : ¬ Assigns fits order as taken out := by
  obtain ⟨as1, a, as2, mid, rfl, ho, hn⟩ := h
  induction ho with
  | nil taken =>
    rintro (_ | ⟨hf, -⟩)
    exact hn _ hf.mem hf.holds
  | cons hf _ ih =>
    rintro (_ | ⟨hf', h⟩)
    obtain rfl := hf.unique hf'
    exact ih hn h

end BeeLlama.Greedy
