import Mathlib.Data.Prod.Lex
import Mathlib.Order.Interval.Finset.Nat

/-!
# Repeated n-grams (`server_loop_guard::check_ngram_dominance`)

* `collect`: the loop over the starts, which links a start with the first equal one before it.
  `mem_collect` says that every repeated n-gram is covered by its intervals.
* `mergeCoverage`: the loop over the sorted intervals. `mergeCoverage_eq` says that it counts their
  union.
* `checkNgramDominance_exact`: what triggers, for every hash.
-/

namespace BeeLlama.Server

open List

section Defs

/-- `server_loop_guard_hash_ngram`, of the tokens that it reads. -/
def hashNgram (gram : List Int32) : UInt64 :=
  gram.foldl (fun hash token =>
    (hash ^^^ (token.toUInt32.toUInt64 + 0x9e3779b97f4a7c15)) * 1099511628211) 1469598103934665603

variable (hash : List Int32 → UInt64) (tokens : List Int32) (ngram : Nat)

/-- The n-gram at a start. -/
def gram (start : Nat) : List Int32 := (List.range ngram).map fun i => tokens.getD (start + i) 0

/-- `server_loop_guard_equal_ngram`. -/
def EqualNgram (a b : Nat) : Prop :=
  ∀ i < ngram, tokens.getD (a + i) 0 = tokens.getD (b + i) 0

instance (a : Nat) : DecidablePred (EqualNgram tokens ngram a) :=
  fun _ => inferInstanceAs (Decidable (∀ _ < ngram, _))

/-- A begin and an end, in the order of `std::pair`. -/
abbrev Interval := Nat ×ₗ Nat

/-- One start: `starts_by_hash` and `intervals`. -/
def visit (st : (UInt64 → List Nat) × List Interval) (start : Nat) :
    (UInt64 → List Nat) × List Interval :=
  let starts := st.1 (hash (gram tokens ngram start))
  (Function.update st.1 (hash (gram tokens ngram start)) (starts ++ [start]),
    match starts.find? fun previous => decide (EqualNgram tokens ngram previous start) with
    | some previous => st.2 ++ [toLex (previous, previous + ngram), toLex (start, start + ngram)]
    | none => st.2)

/-- The loop over the first `n` starts. -/
def collect (n : Nat) : (UInt64 → List Nat) × List Interval :=
  (List.range n).foldl (visit hash tokens ngram) (fun _ => [], [])

/-- The loop over the sorted intervals. -/
def mergeCoverage (coverage curBegin curEnd : Nat) : List Interval → Nat
  | [] => coverage + (curEnd - curBegin)
  | x :: xs =>
    if (ofLex x).1 ≤ curEnd then mergeCoverage coverage curBegin (max curEnd (ofLex x).2) xs
    else mergeCoverage (coverage + (curEnd - curBegin)) (ofLex x).1 (ofLex x).2 xs

/-- The coverage for one length, if there are intervals. -/
def ngramCoverage : Option Nat :=
  match (collect hash tokens ngram (tokens.length + 1 - ngram)).2.insertionSort (· ≤ ·) with
  | [] => none
  | x :: xs => some (mergeCoverage 0 (ofLex x).1 (ofLex x).2 xs)

/-- One round of `check_ngram_dominance`: the length and the coverage, if it triggers. -/
def checkLength (minRepeatedCoverage : Int) : Option (Nat × Nat) :=
  if tokens.length < ngram * 2 then none
  else
    match ngramCoverage hash tokens ngram with
    | none => none
    | some coverage =>
      if minRepeatedCoverage ≤ coverage ∧ tokens.length ≤ coverage * 2 then some (ngram, coverage)
      else none

/-- `check_ngram_dominance`. -/
def checkNgramDominance (minRepeatedCoverage : Int) : Option (Nat × Nat) :=
  if tokens.length < minRepeatedCoverage then none
  else [8, 16, 32].findSome? fun ngram => checkLength hash tokens ngram minRepeatedCoverage

/-- An n-gram at `p` that is elsewhere in the first `n` starts too. -/
def Repeats (n p : Nat) : Prop := p < n ∧ ∃ q < n, q ≠ p ∧ EqualNgram tokens ngram p q

instance (n : Nat) : DecidablePred (Repeats tokens ngram n) :=
  fun _ => inferInstanceAs (Decidable (_ ∧ ∃ _ < n, _))

/-- The number of places in an occurrence of a repeated n-gram. -/
def covered : Nat :=
  ((Finset.range tokens.length).filter fun i => ∃ p < tokens.length + 1 - ngram,
    Repeats tokens ngram (tokens.length + 1 - ngram) p ∧ p ≤ i ∧ i < p + ngram).card

/-- The length should trigger. -/
def Dominates (minRepeatedCoverage : Int) : Prop :=
  ngram * 2 ≤ tokens.length ∧ minRepeatedCoverage ≤ covered tokens ngram ∧
    tokens.length ≤ covered tokens ngram * 2

instance (minRepeatedCoverage : Int) : Decidable (Dominates tokens ngram minRepeatedCoverage) :=
  inferInstanceAs (Decidable (_ ∧ _ ∧ _))

end Defs

variable {hash : List Int32 → UInt64} {tokens : List Int32} {ngram n : Nat}

theorem equalNgram_iff {a b : Nat} :
    EqualNgram tokens ngram a b ↔ gram tokens ngram a = gram tokens ngram b := by
  rw [gram, gram, map_inj_left]
  exact forall_congr' fun i => by rw [mem_range]

/-- A hash has the starts with it, and the intervals are those of the repeated n-grams. -/
theorem mem_collect (n : Nat) : (∀ h, (collect hash tokens ngram n).1 h =
      (List.range n).filter fun p => hash (gram tokens ngram p) = h) ∧
    ∀ x, x ∈ (collect hash tokens ngram n).2 ↔
      ∃ p, Repeats tokens ngram n p ∧ x = toLex (p, p + ngram) := by
  induction n with
  | zero => exact ⟨fun _ => rfl, fun x => ⟨nofun, fun ⟨p, hp, _⟩ => absurd hp.1 (by omega)⟩⟩
  | succ n ih =>
    obtain ⟨hm, hi⟩ := ih
    have hstep : collect hash tokens ngram (n + 1) =
        visit hash tokens ngram (collect hash tokens ngram n) n := by
      rw [collect, range_succ, foldl_append]
      rfl
    rw [hstep]
    refine ⟨fun h => ?_, fun x => ?_⟩
    · rw [visit]
      dsimp only
      rw [Function.update_apply, range_succ, filter_append, hm, hm]
      split
      · next e => simp [e]
      · next e => simp [Ne.symm e]
    · rw [visit]
      dsimp only
      rw [hm]
      split
      · next previous e =>
        have hp := find?_some e
        have he := equalNgram_iff.mp (of_decide_eq_true hp)
        have hlt : previous < n := by
          have := mem_of_find?_eq_some e
          rw [mem_filter, mem_range] at this
          exact this.1
        -- a start with the n-gram of `n` is the linked one, or was repeated before
        simp only [mem_append, hi, mem_cons, not_mem_nil, or_false, Repeats, equalNgram_iff]
        constructor
        · rintro (⟨p, ⟨hp, q, hq, hpq⟩, rfl⟩ | rfl | rfl)
          · exact ⟨p, ⟨by omega, q, by omega, hpq⟩, rfl⟩
          · exact ⟨previous, ⟨by omega, n, by omega, by omega, he⟩, rfl⟩
          · exact ⟨n, ⟨by omega, previous, by omega, by omega, he.symm⟩, rfl⟩
        · rintro ⟨p, ⟨hp, q, hq, hne, hpq⟩, rfl⟩
          by_cases hpn : p = n
          · exact .inr (.inr (by rw [hpn]))
          by_cases hpp : p = previous
          · exact .inr (.inl (by rw [hpp]))
          refine .inl ⟨p, ⟨by omega, ?_⟩, rfl⟩
          by_cases hqn : q = n
          · exact ⟨previous, hlt, Ne.symm hpp, hpq.trans (hqn ▸ he.symm)⟩
          · exact ⟨q, by omega, hne, hpq⟩
      · next e =>
        have hnone : ∀ p < n, gram tokens ngram p ≠ gram tokens ngram n := fun p hp h => by
          have hmem : p ∈ (List.range n).filter fun p =>
              hash (gram tokens ngram p) = hash (gram tokens ngram n) :=
            mem_filter.mpr ⟨mem_range.mpr hp, decide_eq_true (congrArg hash h)⟩
          exact find?_eq_none.mp e p hmem (decide_eq_true (equalNgram_iff.mpr h))
        rw [hi]
        refine exists_congr fun p => and_congr_left' ?_
        simp only [Repeats, equalNgram_iff]
        constructor
        · rintro ⟨hp, q, hq, hpq⟩
          exact ⟨by omega, q, by omega, hpq⟩
        · rintro ⟨hp, q, hq, hne, hpq⟩
          have hpn : p ≠ n := fun e => hnone q (by omega) (e ▸ hpq.symm)
          have hqn : q ≠ n := fun e => hnone p (by omega) (e ▸ hpq)
          exact ⟨by omega, q, by omega, hne, hpq⟩

/-- The places in some interval. -/
def union (xs : List Interval) : Finset Nat :=
  xs.toFinset.biUnion fun x => Finset.Ico (ofLex x).1 (ofLex x).2

theorem mem_union {xs : List Interval} {i : Nat} :
    i ∈ union xs ↔ ∃ x ∈ xs, (ofLex x).1 ≤ i ∧ i < (ofLex x).2 := by
  simp [union]

/-- The invariant of the merge: what is counted lies before the open interval. -/
theorem mergeCoverage_eq {coverage curBegin curEnd : Nat} {xs : List Interval}
    (hs : xs.Pairwise (· ≤ ·)) (hb : ∀ x ∈ xs, curBegin ≤ (ofLex x).1) :
    mergeCoverage coverage curBegin curEnd xs =
      coverage + (Finset.Ico curBegin curEnd ∪ union xs).card := by
  induction xs generalizing coverage curBegin curEnd with
  | nil => simp [mergeCoverage, union]
  | cons x xs ih =>
    obtain ⟨hx, hs⟩ := pairwise_cons.mp hs
    have hfirst : ∀ y ∈ xs, (ofLex x).1 ≤ (ofLex y).1 := fun y hy =>
      Prod.Lex.monotone_fst _ _ (hx y hy)
    have hxb := hb x mem_cons_self
    rw [mergeCoverage]
    split
    · next hle =>
      rw [ih hs fun y hy => hb y (mem_cons_of_mem _ hy)]
      congr 2
      ext i
      simp only [Finset.mem_union, Finset.mem_Ico, mem_union, exists_mem_cons_iff]
      rw [← or_assoc]
      exact or_congr_left (by omega)
    · next hle =>
      rw [ih hs hfirst, Nat.add_assoc, ← Nat.card_Ico, ← Finset.card_union_of_disjoint]
      · congr 2
        ext i
        simp only [Finset.mem_union, Finset.mem_Ico, mem_union, exists_mem_cons_iff]
      · rw [Finset.disjoint_left]
        intro i hi hu
        simp only [Finset.mem_union, Finset.mem_Ico, mem_union] at hi hu
        rcases hu with hu | ⟨y, hy, hu⟩
        · omega
        · have := hfirst y hy
          omega

theorem card_union (hash : List Int32 → UInt64) :
    (union (collect hash tokens ngram (tokens.length + 1 - ngram)).2).card =
      covered tokens ngram := by
  rw [covered]
  congr 1
  ext i
  simp only [mem_union, (mem_collect _).2, Finset.mem_filter, Finset.mem_range]
  constructor
  · rintro ⟨_, ⟨p, hp, rfl⟩, h1, h2⟩
    have := hp.1
    dsimp only [ofLex_toLex] at h1 h2
    exact ⟨by omega, p, hp.1, hp, h1, h2⟩
  · rintro ⟨-, p, -, hp, h1, h2⟩
    exact ⟨_, ⟨p, hp, rfl⟩, h1, h2⟩

/-- What the code computes is the number of the covered places. -/
theorem ngramCoverage_eq : (ngramCoverage hash tokens ngram).getD 0 = covered tokens ngram := by
  rw [← card_union hash, ngramCoverage]
  have hs := pairwise_insertionSort (· ≤ ·)
    (collect hash tokens ngram (tokens.length + 1 - ngram)).2
  have hu : union (collect hash tokens ngram (tokens.length + 1 - ngram)).2 =
      union ((collect hash tokens ngram (tokens.length + 1 - ngram)).2.insertionSort (· ≤ ·)) := by
    ext i
    simp only [mem_union, mem_insertionSort]
  rw [hu]
  revert hs
  cases List.insertionSort (· ≤ ·) (collect hash tokens ngram (tokens.length + 1 - ngram)).2 with
  | nil => exact fun _ => rfl
  | cons x xs =>
    intro hs
    obtain ⟨hx, hs⟩ := pairwise_cons.mp hs
    dsimp only [Option.getD_some]
    rw [mergeCoverage_eq hs fun y hy => Prod.Lex.monotone_fst _ _ (hx y hy), Nat.zero_add]
    congr 1
    ext i
    simp only [Finset.mem_union, Finset.mem_Ico, mem_union, exists_mem_cons_iff]

theorem checkLength_eq (h : 0 < ngram) (minRepeatedCoverage : Int) :
    checkLength hash tokens ngram minRepeatedCoverage =
      if Dominates tokens ngram minRepeatedCoverage then some (ngram, covered tokens ngram)
      else none := by
  have hc := @ngramCoverage_eq hash tokens ngram
  rw [checkLength]
  split
  · next hlt => exact (if_neg fun hd => absurd hd.1 (Nat.not_le_of_lt hlt)).symm
  next hlt =>
  cases e : ngramCoverage hash tokens ngram with
  | none =>
    rw [e, Option.getD_none] at hc
    refine (if_neg fun hd => ?_).symm
    have := hd.2.2
    omega
  | some coverage =>
    rw [e, Option.getD_some] at hc
    rw [hc]
    exact if_congr (by simp [Dominates, Nat.le_of_not_lt hlt]) rfl rfl

/-- The coverage is exact for every length, and the least length that dominates triggers. -/
theorem checkNgramDominance_exact (hash : List Int32 → UInt64) (tokens : List Int32)
    (minRepeatedCoverage : Int) :
    (∀ ngram, (ngramCoverage hash tokens ngram).getD 0 = covered tokens ngram) ∧
    checkNgramDominance hash tokens minRepeatedCoverage =
      ([8, 16, 32].find? fun ngram => Dominates tokens ngram minRepeatedCoverage).map
        fun ngram => (ngram, covered tokens ngram) := by
  refine ⟨fun _ => ngramCoverage_eq, ?_⟩
  have hle : ∀ ngram, covered tokens ngram ≤ tokens.length := fun ngram =>
    (Finset.card_filter_le _ _).trans_eq (Finset.card_range _)
  rw [checkNgramDominance]
  split
  · next h =>
    rw [find?_eq_none.mpr fun ngram _ hd => ?_]
    · rfl
    · have := (of_decide_eq_true hd).2.1
      have := hle ngram
      omega
  · simp only [findSome?_cons, findSome?_nil, find?_cons, find?_nil,
      checkLength_eq (by decide : 0 < 8), checkLength_eq (by decide : 0 < 16),
      checkLength_eq (by decide : 0 < 32)]
    by_cases h8 : Dominates tokens 8 minRepeatedCoverage
    · simp [h8]
    by_cases h16 : Dominates tokens 16 minRepeatedCoverage
    · simp [h8, h16]
    by_cases h32 : Dominates tokens 32 minRepeatedCoverage <;> simp [h8, h16, h32]

end BeeLlama.Server
