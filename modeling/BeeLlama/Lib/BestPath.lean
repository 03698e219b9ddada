import Mathlib.Algebra.Order.Monoid.WithTop
import Mathlib.Algebra.Order.Group.Defs
import Mathlib.Algebra.BigOperators.Group.List.Basic

/-!
# Best paths by a table of scores

Positions are natural numbers, and every edge leads to a later one. A table has for each position
a score, which is `⊥` where no path ends, and the last edge of a best path.

* `EdgePath`: the edges from 0 to a position.
* `BestTable`: what a table has to satisfy at each position.
* `BestTable.le`: no path has a higher score than the table.
* `BestTable.path_of_trace`: going back through the table gives a path of the score in the table.
-/

namespace BeeLlama

variable {π σ : Type} [AddCommGroup σ] [LinearOrder σ] [IsOrderedAddMonoid σ]

/-- The labels of the edges of a path from 0. -/
inductive EdgePath (edge : Nat → Nat → π → Prop) : Nat → List π → Prop where
  | nil : EdgePath edge 0 []
  | snoc {o p : Nat} {l : List π} {x : π} :
      EdgePath edge o l → edge o p x → EdgePath edge p (l ++ [x])

/-- The sum of the labels' weights. -/
def pathScore (w : π → σ) (l : List π) : σ := (l.map w).sum

omit [LinearOrder σ] [IsOrderedAddMonoid σ] in

omit [LinearOrder σ] [IsOrderedAddMonoid σ] in
@[simp] theorem pathScore_snoc (w : π → σ) (l : List π) (x : π) :
    pathScore w (l ++ [x]) = pathScore w l + w x := by
  simp [pathScore]

/-- The score at 0 is 0. A score comes from the position before the last edge, and no edge leads
to a higher one. -/
structure BestTable (edge : Nat → Nat → π → Prop) (w : π → σ) (score : Nat → WithBot σ)
    (origin : Nat → Nat) (label : Nat → π) : Prop where
  zero : score 0 = 0
  back : ∀ p, p ≠ 0 → score p ≠ ⊥ → origin p < p ∧ score (origin p) ≠ ⊥ ∧
    edge (origin p) p (label p) ∧ score p = score (origin p) + w (label p)
  max : ∀ o p x, edge o p x → score o + w x ≤ score p

/-- The labels from 0 to `p` that the table remembers, and the positions after 0 on the way, in
at most `fuel` steps back. -/
def trace (origin : Nat → Nat) (label : Nat → π) : Nat → Nat → Option (List π × List Nat)
  | 0, _ => none
  | fuel + 1, p =>
    if origin p = 0 then some ([label p], [p])
    else (trace origin label fuel (origin p)).map fun t => (t.1 ++ [label p], t.2 ++ [p])

namespace BestTable

variable {edge : Nat → Nat → π → Prop} {w : π → σ} {score : Nat → WithBot σ}
  {origin : Nat → Nat} {label : Nat → π}

/-- No path has a higher score than the table. -/
theorem le (h : BestTable edge w score origin label) {p : Nat} {l : List π}
    (hl : EdgePath edge p l) : ((pathScore w l : σ) : WithBot σ) ≤ score p := by
  induction hl with
  | nil => exact h.zero.ge
  | @snoc o p l x hpath hedge ih =>
    calc ((pathScore w (l ++ [x]) : σ) : WithBot σ) = ((pathScore w l : σ) : WithBot σ) + w x := by
          rw [pathScore_snoc, WithBot.coe_add]
      _ ≤ score o + w x := add_le_add_left ih _
      _ ≤ score p := h.max o p x hedge

omit [IsOrderedAddMonoid σ] in
/-- Going back ends at 0, visits positions that have a score only, and gives a path of the score
in the table. -/
theorem path_of_trace (h : BestTable edge w score origin label) {p fuel : Nat} (hp : p ≠ 0)
    (hscore : score p ≠ ⊥) (hfuel : p ≤ fuel) :
    ∃ l visited, trace origin label fuel p = some (l, visited) ∧ EdgePath edge p l ∧
      score p = ((pathScore w l : σ) : WithBot σ) ∧ ∀ q ∈ visited, score q ≠ ⊥ := by
  induction fuel generalizing p with
  | zero => omega
  | succ fuel ih =>
    obtain ⟨hlt, hreached, hedge, hsum⟩ := h.back p hp hscore
    rw [trace]
    split
    next h0 =>
      rw [h0] at hedge hsum
      refine ⟨_, _, rfl, EdgePath.snoc EdgePath.nil hedge, ?_, by simpa using hscore⟩
      rw [hsum, h.zero, zero_add]
      simp [pathScore]
    next h0 =>
      obtain ⟨l, visited, htrace, hpath, hs, hvisited⟩ := ih h0 hreached (by omega)
      refine ⟨_, _, by rw [htrace]; rfl, EdgePath.snoc hpath hedge, ?_, ?_⟩
      · rw [hsum, hs, pathScore_snoc, WithBot.coe_add]
      · intro q hq
        rcases List.mem_append.mp hq with hq | hq
        · exact hvisited q hq
        · rwa [List.mem_singleton.mp hq]

end BestTable
end BeeLlama
