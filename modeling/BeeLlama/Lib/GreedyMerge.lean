import Mathlib.Data.List.Basic
import Mathlib.Order.Lattice

/-!
# Greedy merging of adjacent pieces

Some adjacent pairs of pieces have a rank. While there are such pairs, the one of least rank is
merged, the leftmost of several.

* `bestPair_eq_some_iff`: what `bestPair` finds.
* `greedyMerge_eq_of_best`: merging the best pair does not change the result.
-/

namespace BeeLlama

variable {α κ : Type}

/-- The pieces at `i` and `i + 1` become one. -/
def mergeAt : Nat → List (List α) → List (List α)
  | 0, a :: b :: rest => (a ++ b) :: rest
  | i + 1, a :: rest => a :: mergeAt i rest
  | _, ps => ps

/-- The rank of the pair at `i`. -/
def pairRank (rank : List α → List α → Option κ) (ps : List (List α)) (i : Nat) : Option κ :=
  match ps[i]?, ps[i + 1]? with
  | some a, some b => rank a b
  | _, _ => none

section PairRank

variable {rank : List α → List α → Option κ} {ps : List (List α)} {i : Nat} {k : κ}

@[simp] theorem pairRank_cons_succ (a : List α) (ps : List (List α)) (i : Nat) :
    pairRank rank (a :: ps) (i + 1) = pairRank rank ps i := rfl

@[simp] theorem pairRank_cons_zero (a b : List α) (ps : List (List α)) :
    pairRank rank (a :: b :: ps) 0 = rank a b := rfl

@[simp] theorem pairRank_nil (i : Nat) : pairRank rank [] i = none := rfl

@[simp] theorem pairRank_singleton (a : List α) (i : Nat) : pairRank rank [a] i = none := by
  cases i <;> rfl

theorem pairRank_lt (h : pairRank rank ps i = some k) : i + 1 < ps.length := by
  unfold pairRank at h
  split at h
  next hb => exact (List.getElem?_eq_some_iff.mp hb).1
  next => cases h

end PairRank

variable [LinearOrder κ]

/-- The place and the rank of the leftmost pair of least rank. -/
def bestPair (rank : List α → List α → Option κ) : List (List α) → Option (Nat × κ)
  | [] => none
  | [_] => none
  | a :: b :: rest =>
    match rank a b, bestPair rank (b :: rest) with
    | some k, some (i, k') => if k ≤ k' then some (0, k) else some (i + 1, k')
    | some k, none => some (0, k)
    | none, r => r.map fun (i, k') => (i + 1, k')

/-- At most `n` merges. -/
def greedySteps (rank : List α → List α → Option κ) : Nat → List (List α) → List (List α)
  | 0, ps => ps
  | n + 1, ps =>
    match bestPair rank ps with
    | some (i, _) => greedySteps rank n (mergeAt i ps)
    | none => ps

/-- Merges the best pair until no pair has a rank. -/
def greedyMerge (rank : List α → List α → Option κ) (ps : List (List α)) : List (List α) :=
  greedySteps rank ps.length ps

/-- The pair at `i` has rank `k`, no pair has a lower one, and none to the left has the same. -/
structure IsBest (rank : List α → List α → Option κ) (ps : List (List α)) (i : Nat) (k : κ) :
    Prop where
  rank_eq : pairRank rank ps i = some k
  le : ∀ j k', pairRank rank ps j = some k' → k ≤ k'
  leftmost : ∀ j, pairRank rank ps j = some k → i ≤ j

variable {rank : List α → List α → Option κ} {ps : List (List α)} {i : Nat} {k : κ}

/-- There is one best pair. -/
theorem IsBest.unique {i' : Nat} {k' : κ} (h : IsBest rank ps i k) (h' : IsBest rank ps i' k') :
    i = i' ∧ k = k' := by
  have hk : k = k' := le_antisymm (h.le _ _ h'.rank_eq) (h'.le _ _ h.rank_eq)
  subst hk
  exact ⟨Nat.le_antisymm (h.leftmost _ h'.rank_eq) (h'.leftmost _ h.rank_eq), rfl⟩

theorem bestPair_eq_none_iff : bestPair rank ps = none ↔ ∀ i, pairRank rank ps i = none := by
  induction ps with
  | nil => simp [bestPair]
  | cons a ps ih =>
    obtain - | ⟨b, rest⟩ := ps
    · simp [bestPair]
    constructor
    · intro h i
      rw [bestPair] at h
      split at h
      · split at h <;> cases h
      · cases h
      next hr =>
        cases i with
        | zero => exact hr
        | succ i => exact ih.mp (Option.map_eq_none_iff.mp h) i
    · intro h
      have hr : rank a b = none := h 0
      have hrest : bestPair rank (b :: rest) = none := ih.mpr fun i => h (i + 1)
      rw [bestPair, hr, hrest]
      rfl

theorem isBest_of_bestPair (h : bestPair rank ps = some (i, k)) : IsBest rank ps i k := by
  induction ps generalizing i k with
  | nil => cases h
  | cons a ps ih =>
    obtain - | ⟨b, rest⟩ := ps
    · cases h
    rw [bestPair] at h
    split at h
    next k0 i1 k1 hr hrest =>
      have hb := ih hrest
      split at h
      next hle =>
        cases h
        refine ⟨hr, fun j k' hj => ?_, fun j _ => Nat.zero_le j⟩
        cases j with
        | zero => exact le_of_eq (Option.some.inj (hr.symm.trans hj))
        | succ j => exact hle.trans (hb.le j k' hj)
      next hnle =>
        cases h
        have hlt := lt_of_not_ge hnle
        refine ⟨hb.rank_eq, fun j k' hj => ?_, fun j hj => ?_⟩
        · cases j with
          | zero => exact (Option.some.inj (hr.symm.trans hj)) ▸ hlt.le
          | succ j => exact hb.le j k' hj
        · cases j with
          | zero => exact absurd (Option.some.inj (hr.symm.trans hj)) hlt.ne'
          | succ j => exact Nat.succ_le_succ (hb.leftmost j hj)
    next k0 hr hrest =>
      cases h
      have hno := bestPair_eq_none_iff.mp hrest
      refine ⟨hr, fun j k' hj => ?_, fun j _ => Nat.zero_le j⟩
      cases j with
      | zero => exact le_of_eq (Option.some.inj (hr.symm.trans hj))
      | succ j => rw [pairRank_cons_succ, hno j] at hj; cases hj
    next hr =>
      obtain ⟨⟨i1, k1⟩, hrest, he⟩ := Option.map_eq_some_iff.mp h
      cases he
      have hb := ih hrest
      refine ⟨hb.rank_eq, fun j k' hj => ?_, fun j hj => ?_⟩
      · cases j with
        | zero => rw [pairRank_cons_zero, hr] at hj; cases hj
        | succ j => exact hb.le j k' hj
      · cases j with
        | zero => rw [pairRank_cons_zero, hr] at hj; cases hj
        | succ j => exact Nat.succ_le_succ (hb.leftmost j hj)

/-- `bestPair` finds the leftmost pair of least rank. -/
theorem bestPair_eq_some_iff : bestPair rank ps = some (i, k) ↔ IsBest rank ps i k := by
  refine ⟨isBest_of_bestPair, fun h => ?_⟩
  cases hp : bestPair rank ps with
  | none =>
    have := bestPair_eq_none_iff.mp hp i
    rw [h.rank_eq] at this
    cases this
  | some p =>
    obtain ⟨hi, hk⟩ := (isBest_of_bestPair hp).unique h
    rw [← hi, ← hk]

/-! ## Merging -/

theorem length_mergeAt (h : i + 1 < ps.length) : (mergeAt i ps).length + 1 = ps.length := by
  induction ps generalizing i with
  | nil => cases h
  | cons a ps ih =>
    cases i with
    | zero =>
      cases ps with
      | nil => simp at h
      | cons b ps => rfl
    | succ i =>
      rw [mergeAt, List.length_cons, List.length_cons, ih (Nat.lt_of_succ_lt_succ h)]

theorem mergeAt_append (pre : List (List α)) (a b : List α) (post : List (List α)) :
    mergeAt pre.length (pre ++ a :: b :: post) = pre ++ (a ++ b) :: post := by
  induction pre with
  | nil => rfl
  | cons p pre ih => rw [List.cons_append, List.length_cons, mergeAt, ih, List.cons_append]

theorem greedyMerge_of_none (h : bestPair rank ps = none) : greedyMerge rank ps = ps := by
  unfold greedyMerge
  cases ps.length with
  | zero => rfl
  | succ n => rw [greedySteps, h]

/-- After a merge of the best pair the result is the same. -/
theorem greedyMerge_eq_of_best (h : IsBest rank ps i k) :
    greedyMerge rank ps = greedyMerge rank (mergeAt i ps) := by
  have hlen := length_mergeAt (pairRank_lt h.rank_eq)
  rw [greedyMerge, ← hlen, greedySteps, bestPair_eq_some_iff.mpr h]
  rfl

/-- Of two pairs that share a piece the one of lower rank is merged. -/
example : greedyMerge (fun a b => if a ++ b = [1, 2] then some 5 else
    if a ++ b = [2, 3] then some 4 else none) [[1], [2], [3]] = [[1], [2, 3]] := by decide

end BeeLlama
