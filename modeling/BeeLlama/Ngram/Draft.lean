import Mathlib.Algebra.BigOperators.Group.List.Basic
import Mathlib.Algebra.GroupWithZero.Nat
import Mathlib.Data.List.MinMax

/-!
# Drafts from the n-gram caches (`common_ngram_cache_draft`)

A round reads the tokens before the next one, of the input and of the draft, and takes the token
that followed them most often.

* `judge`: one n-gram of `try_draft`; `none` stands for an overflow of `int32_t`.
  `judge_exact` says when its products and tests are those of the integers.
* `draft`: the rounds. `draft_inRange` says when every index is in a list.
-/

namespace BeeLlama.Ngram

open List Option

/-- `LLAMA_TOKEN_NULL`. -/
abbrev tokenNull : Int32 := -1

/-- `LLAMA_NGRAM_STATIC`. -/
abbrev ngramStatic : Nat := 2

/-- `common_ngram`: the tokens, and `LLAMA_TOKEN_NULL` up to `LLAMA_NGRAM_MAX`. -/
def common_ngram (input : List Int32) : List Int32 := (input ++ List.replicate 4 tokenNull).take 4

/-- `common_ngram_cache_part` in the order of its iteration: the tokens and their counts. -/
abbrev Part := List (Int32 × Nat)

/-- `common_ngram_cache::find`. -/
abbrev Find := List Int32 → Option Part

/-- A value of `int32_t` that is not negative. -/
def int32 (n : Nat) : Option Nat := if n < 2 ^ 31 then some n else none

/-- `count_static`. -/
def countStatic (partStatic : Part) (token : Int32) : Nat :=
  match partStatic.lookup token with
  | some count => 100 * count
  | none => 1

/-- The variables of the loop over a part. -/
structure Selection where
  maxToken : Int32 := tokenNull
  maxCountPrimary : Nat := 0
  maxCountStatic : Nat := 0
  sumCountPrimary : Nat := 0

/-- One token of a part. -/
def select (partStatic : Part) (s : Selection) (p : Int32 × Nat) : Option Selection := do
  let count ← int32 (countStatic partStatic p.1)
  let product ← int32 (p.2 * count)
  let best ← int32 (s.maxCountPrimary * s.maxCountStatic)
  let sum ← int32 (s.sumCountPrimary + p.2)
  if best < product then some ⟨p.1, p.2, count, sum⟩ else some { s with sumCountPrimary := sum }

/-- The loop over a part and its two tests. -/
def judge (partStatic part : Part) (minSampleSize minPercent : Nat) : Option (Option Int32) := do
  let s ← part.foldlM (select partStatic) {}
  if s.sumCountPrimary < minSampleSize then some none
  else
    let left ← int32 (100 * s.maxCountPrimary)
    let right ← int32 (minPercent * s.sumCountPrimary)
    if left < right then some none else some (some s.maxToken)

/-- `try_draft` with a primary cache: the n-grams and their places in the tables, the last one
first. -/
def tryDraft (primary : Find) (partStatic : Part) (minSampleSize minPercent : List Nat) :
    List (List Int32 × Nat) → Option Int32
  | [] => some tokenNull
  | (ngram, i) :: rest =>
    match primary ngram with
    | none => tryDraft primary partStatic minSampleSize minPercent rest
    | some part => do
      match ← judge partStatic part (minSampleSize.getD i 0) (minPercent.getD i 0) with
      | none => tryDraft primary partStatic minSampleSize minPercent rest
      | some token =>
        if token = tokenNull then tryDraft primary partStatic minSampleSize minPercent rest
        else some token

/-- `try_draft` with the static cache alone: the same loop, where a token has no other count. -/
def tryDraftStatic (static : Find) (ngram : List Int32) : Option Int32 :=
  match static ngram with
  | none => some tokenNull
  | some part => (judge [] part 2 50).map (·.getD tokenNull)

/-- The token of a round. -/
def pick (context dynamic static : Find) (ngramsCd : List (List Int32)) (ngram : List Int32) :
    Option Int32 := do
  let partStatic := (static ngram).getD []
  let ngrams := ngramsCd.zipIdx.reverse
  let token ← tryDraft context partStatic [2, 2, 1, 1] [66, 50, 50, 50] ngrams
  if token ≠ tokenNull then some token
  else
    let token ← tryDraft dynamic partStatic [4, 3, 2, 2] [75, 66, 66, 66] ngrams
    if token ≠ tokenNull then some token else tryDraftStatic static ngram

/-- What a draft must not do. -/
inductive Fault where
  | outOfRange
  | overflow
  deriving DecidableEq

/-- `get_token`. As a `size_t` a negative index is past the end of both lists. -/
def getToken (inp draft : List Int32) (i : Int) : Except Fault Int32 :=
  if i < 0 then .error .outOfRange
  else if i < inp.length then .ok (inp.getD i.toNat 0)
  else if 1 + i.toNat - inp.length < draft.length then
    .ok (draft.getD (1 + i.toNat - inp.length) 0)
  else .error .outOfRange

/-- The last tokens, as an n-gram. -/
def window (inp draft : List Int32) (ngramSize : Nat) : Except Fault (List Int32) :=
  let ngramStart : Int := inp.length - ngramSize + draft.length - 1
  ((List.range ngramSize).mapM fun j : Nat =>
    getToken inp draft (ngramStart + (j : Int))).map common_ngram

/-- `while ((int) draft.size()-1 < n_draft)`, by the tokens that are still allowed. -/
def rounds (context dynamic static : Find) (inp : List Int32) (ngramMin ngramMax : Nat) :
    Nat → List Int32 → Except Fault (List Int32)
  | 0, draft => .ok draft
  | n + 1, draft => do
    let ngram ← window inp draft ngramStatic
    let ngramsCd ← (List.range' ngramMin (ngramMax + 1 - ngramMin)).mapM (window inp draft)
    match pick context dynamic static ngramsCd ngram with
    | none => .error .overflow
    | some token =>
      if token = tokenNull then .ok draft
      else rounds context dynamic static inp ngramMin ngramMax n (draft ++ [token])

/-- `common_ngram_cache_draft`. -/
def draft (context dynamic static : Find) (inp : List Int32) (token : Int32) (nDraft : Int)
    (ngramMin ngramMax : Nat) : Except Fault (List Int32) :=
  if inp.length < ngramStatic then .ok [token]
  else rounds context dynamic static inp ngramMin ngramMax nDraft.toNat [token]

/-! ## The indexes -/

section Window

variable {inp draft : List Int32} {n : Nat}

theorem getToken_ok {i : Int} (h0 : 0 ≤ i) (h : i + 1 < inp.length + draft.length)
    (hd : draft ≠ []) : ∃ t, getToken inp draft i = .ok t := by
  have := length_pos_iff.mpr hd
  unfold getToken
  rw [if_neg (by omega)]
  split
  · exact ⟨_, rfl⟩
  · rw [if_pos (by omega)]
    exact ⟨_, rfl⟩

theorem mapM_ok {α β : Type} {f : α → Except Fault β} {l : List α}
    (h : ∀ a ∈ l, ∃ b, f a = .ok b) : ∃ bs, l.mapM f = .ok bs := by
  induction l with
  | nil => exact ⟨[], rfl⟩
  | cons a l ih =>
    obtain ⟨b, hb⟩ := h a mem_cons_self
    obtain ⟨bs, hbs⟩ := ih fun a ha => h a (mem_cons_of_mem _ ha)
    exact ⟨b :: bs, by rw [mapM_cons, hb, hbs]; rfl⟩

/-- A window that is not longer than the input is read. -/
theorem window_ok (hn : n ≤ inp.length) (hd : draft ≠ []) : ∃ g, window inp draft n = .ok g := by
  have := length_pos_iff.mpr hd
  have hr : ∀ j ∈ List.range n,
      ∃ t, getToken inp draft (inp.length - n + draft.length - 1 + j) = .ok t := fun j hj => by
    rw [mem_range] at hj
    exact getToken_ok (by omega) (by omega) hd
  obtain ⟨ts, e⟩ := mapM_ok hr
  exact ⟨common_ngram ts, by rw [window, e]; rfl⟩

/-- In the first round a longer one begins before the input. -/
theorem window_outOfRange {token : Int32} (hn : inp.length < n) :
    window inp [token] n = .error .outOfRange := by
  obtain ⟨n, rfl⟩ := Nat.exists_eq_succ_of_ne_zero (by omega : n ≠ 0)
  rw [window, range_succ_eq_map, mapM_cons, getToken, if_pos]
  · rfl
  · simp only [length_singleton]
    omega

theorem mapM_window_outOfRange {token : Int32} {l : List Nat} (hn : n ∈ l)
    (h : inp.length < n) : l.mapM (window inp [token]) = .error .outOfRange := by
  induction l with
  | nil => cases hn
  | cons m l ih =>
    rw [mapM_cons]
    by_cases hm : inp.length < m
    · rw [window_outOfRange hm]
      rfl
    · obtain ⟨g, e⟩ := window_ok (n := m) (Nat.le_of_not_lt hm) (cons_ne_nil token [])
      have hne : n ≠ m := fun e => hm (e ▸ h)
      rw [e, ih (mem_of_ne_of_mem hne hn)]
      rfl

end Window

section Rounds

variable {context dynamic static : Find} {inp : List Int32} {ngramMin ngramMax : Nat}

/-- Windows within the input stay in range in every round. -/
theorem rounds_inRange (h2 : ngramStatic ≤ inp.length) (hmax : ngramMax ≤ inp.length) (n : Nat)
    {draft : List Int32} (hd : draft ≠ []) :
    rounds context dynamic static inp ngramMin ngramMax n draft ≠ .error .outOfRange := by
  induction n generalizing draft with
  | zero => exact nofun
  | succ n ih =>
    obtain ⟨g, eg⟩ := window_ok h2 hd
    obtain ⟨gs, egs⟩ := mapM_ok (f := window inp draft)
      (l := List.range' ngramMin (ngramMax + 1 - ngramMin)) fun m hm => by
        rw [mem_range'_1] at hm
        exact window_ok (by omega) hd
    rw [rounds, eg, egs]
    simp only [bind, Except.bind]
    split
    · exact nofun
    · split
      · exact nofun
      · exact ih (by simp)

theorem draft_inRange (context dynamic static : Find) (inp : List Int32) (token : Int32)
    (nDraft : Int) (ngramMin ngramMax : Nat) (hle : ngramMin ≤ ngramMax) :
    draft context dynamic static inp token nDraft ngramMin ngramMax ≠ .error .outOfRange ↔
      inp.length < ngramStatic ∨ nDraft ≤ 0 ∨ ngramMax ≤ inp.length := by
  unfold draft
  split
  · next h => exact iff_of_true nofun (.inl h)
  next h =>
  by_cases hn : nDraft ≤ 0
  · rw [Int.toNat_of_nonpos hn]
    exact iff_of_true nofun (.inr (.inl hn))
  by_cases hmax : ngramMax ≤ inp.length
  · exact iff_of_true (rounds_inRange (Nat.le_of_not_lt h) hmax _ (cons_ne_nil _ _))
      (.inr (.inr hmax))
  -- the first round reads before the input
  refine iff_of_false (not_not.mpr ?_) (by simp [h, hn, hmax])
  obtain ⟨n, en⟩ := Nat.exists_eq_succ_of_ne_zero (by omega : nDraft.toNat ≠ 0)
  obtain ⟨g, eg⟩ := window_ok (Nat.le_of_not_lt h) (cons_ne_nil token [])
  have hmem : ngramMax ∈ List.range' ngramMin (ngramMax + 1 - ngramMin) := by
    rw [mem_range'_1]
    omega
  rw [en, rounds, eg, mapM_window_outOfRange hmem (Nat.lt_of_not_le hmax)]
  rfl

theorem draft_inRange_pair :
    draft (fun _ => none) (fun _ => none) (fun _ => none) [5, 6] 7 3 1 2 ≠ .error .outOfRange :=
  (draft_inRange _ _ _ _ _ _ _ _ (by decide)).mpr (by decide)

/-- Two tokens and windows of up to four. -/
theorem draft_pair :
    draft (fun _ => none) (fun _ => none) (fun _ => none) [5, 6] 7 3 1 4 = .error .outOfRange := by
  decide

end Rounds

/-! ## The counts -/

section Judge

variable {partStatic part : Part}

/-- The exact product of a token. -/
def product (partStatic : Part) (p : Int32 × Nat) : Nat := p.2 * countStatic partStatic p.1

/-- The exact number of samples. -/
def samples (part : Part) : Nat := (part.map Prod.snd).sum

/-- The loop without overflow. -/
def selected (partStatic part : Part) : Selection :=
  match part.argmax (product partStatic) with
  | none => { sumCountPrimary := samples part }
  | some p => ⟨p.1, p.2, countStatic partStatic p.1, samples part⟩

/-- The products and the sum are values of `int32_t`. -/
def LoopFits (partStatic part : Part) : Prop :=
  (∀ p ∈ part, product partStatic p < 2 ^ 31) ∧ samples part < 2 ^ 31

instance : Decidable (LoopFits partStatic part) := inferInstanceAs (Decidable (_ ∧ _))

theorem selected_product (h : LoopFits partStatic part) :
    (selected partStatic part).maxCountPrimary * (selected partStatic part).maxCountStatic
      < 2 ^ 31 := by
  unfold selected
  cases e : part.argmax (product partStatic) with
  | none => exact Nat.two_pow_pos 31
  | some p => exact h.1 p (argmax_mem e)

@[simp]
theorem selected_sum : (selected partStatic part).sumCountPrimary = samples part := by
  unfold selected
  cases part.argmax (product partStatic) <;> rfl

theorem int32_of_lt {n : Nat} (h : n < 2 ^ 31) : int32 n = some n := if_pos h

theorem int32_of_not_lt {n : Nat} (h : ¬ n < 2 ^ 31) : int32 n = none := if_neg h

/-- A step of the loop is the step of the greatest element. -/
theorem select_selected (p : Int32 × Nat) (hp : 0 < product partStatic p) :
    (if (selected partStatic part).maxCountPrimary * (selected partStatic part).maxCountStatic <
        product partStatic p
      then (⟨p.1, p.2, countStatic partStatic p.1, samples part + p.2⟩ : Selection)
      else { selected partStatic part with sumCountPrimary := samples part + p.2 }) =
    selected partStatic (part ++ [p]) := by
  have hsum : samples (part ++ [p]) = samples part + p.2 := by simp [samples]
  rw [selected, selected, argmax_concat, hsum]
  cases part.argmax (product partStatic) with
  | none => exact if_pos hp
  | some q =>
    dsimp only
    change (if product partStatic q < _ then _ else _) = _
    split <;> rfl

theorem foldlM_select (hs : ∀ t, 0 < countStatic partStatic t) (hp : ∀ p ∈ part, 0 < p.2) :
    part.foldlM (select partStatic) {} =
      if LoopFits partStatic part then some (selected partStatic part) else none := by
  induction part using List.reverseRecOn with
  | nil => rfl
  | append_singleton part p ih =>
    have hpos := hp p (by simp)
    have hsum : samples (part ++ [p]) = samples part + p.2 := by simp [samples]
    have hfits : LoopFits partStatic (part ++ [p]) ↔ LoopFits partStatic part ∧
        product partStatic p < 2 ^ 31 ∧ samples part + p.2 < 2 ^ 31 := by
      rw [LoopFits, LoopFits, hsum, forall_mem_append, forall_mem_singleton]
      have : samples part + p.2 < 2 ^ 31 → samples part < 2 ^ 31 := by omega
      tauto
    rw [foldlM_append, ih fun q hq => hp q (mem_append_left _ hq)]
    by_cases h : LoopFits partStatic part
    · have hpos' : 0 < product partStatic p := Nat.mul_pos hpos (hs _)
      have hle : countStatic partStatic p.1 ≤ product partStatic p := Nat.le_mul_of_pos_left _ hpos
      rw [if_pos h]
      simp only [bind_eq_bind, bind_some, foldlM_cons, foldlM_nil, select,
        selected_sum, int32_of_lt (selected_product h)]
      by_cases hprod : product partStatic p < 2 ^ 31
      · have hint : int32 (p.2 * countStatic partStatic p.1) = some (product partStatic p) :=
          int32_of_lt hprod
        rw [int32_of_lt (hle.trans_lt hprod), bind_some, hint, bind_some]
        by_cases hsp : samples part + p.2 < 2 ^ 31
        · rw [int32_of_lt hsp, if_pos (hfits.mpr ⟨h, hprod, hsp⟩), ← select_selected p hpos',
            bind_some]
          split <;> rfl
        · rw [int32_of_not_lt hsp, if_neg fun h' => hsp (hfits.mp h').2.2]
          rfl
      · have hint : int32 (p.2 * countStatic partStatic p.1) = none := int32_of_not_lt hprod
        rw [if_neg fun h' => hprod (hfits.mp h').2.1]
        rcases eq_none_or_eq_some (int32 (countStatic partStatic p.1)) with ec | ⟨c, ec⟩
        · rw [ec]
          rfl
        · obtain rfl : countStatic partStatic p.1 = c := by
            unfold int32 at ec
            split at ec
            · exact Option.some.inj ec
            · cases ec
          rw [ec, bind_some, hint]
          rfl
    · rw [if_neg h, if_neg fun h' => h (hfits.mp h').1]
      rfl

/-- The products and the sum are values of `int32_t`, and so are both sides of the second test
where it is made: `p` is the first of the tokens with the greatest product. -/
def Fits (partStatic part : Part) (minSampleSize minPercent : Nat) : Prop :=
  LoopFits partStatic part ∧ (minSampleSize ≤ samples part →
    (∀ p ∈ part.argmax (product partStatic), 100 * p.2 < 2 ^ 31) ∧
      minPercent * samples part < 2 ^ 31)

/-- There is no overflow, the token has the greatest product, and the tests are exact. -/
def JudgesExactly (partStatic part : Part) (minSampleSize minPercent : Nat) : Prop :=
  ∃ p ∈ part, (∀ q ∈ part, product partStatic q ≤ product partStatic p) ∧
    judge partStatic part minSampleSize minPercent = some
      (if samples part < minSampleSize ∨ 100 * p.2 < minPercent * samples part then none
        else some p.1)

section Best

variable {minSampleSize minPercent : Nat} {p : Int32 × Nat}
  (e : part.argmax (product partStatic) = some p)
  (hs : ∀ t, 0 < countStatic partStatic t) (hp : ∀ p ∈ part, 0 < p.2)

include e hs hp

theorem judge_of_fits (h : Fits partStatic part minSampleSize minPercent) :
    judge partStatic part minSampleSize minPercent = some
      (if samples part < minSampleSize ∨ 100 * p.2 < minPercent * samples part then none
        else some p.1) := by
  have hsel : selected partStatic part = ⟨p.1, p.2, countStatic partStatic p.1, samples part⟩ := by
    rw [selected, e]
  rw [judge, foldlM_select hs hp, if_pos h.1, hsel, bind_eq_bind, bind_some]
  by_cases hm : samples part < minSampleSize
  · rw [if_pos hm, if_pos (.inl hm)]
  · obtain ⟨h1, h2⟩ := h.2 (Nat.le_of_not_lt hm)
    rw [if_neg hm, int32_of_lt (h1 p e), int32_of_lt h2]
    simp only [bind_eq_bind, bind_some, hm, false_or]
    split <;> rfl

theorem judge_of_not_fits (h : ¬ Fits partStatic part minSampleSize minPercent) :
    judge partStatic part minSampleSize minPercent = none := by
  have hsel : selected partStatic part = ⟨p.1, p.2, countStatic partStatic p.1, samples part⟩ := by
    rw [selected, e]
  rw [judge, foldlM_select hs hp]
  by_cases hl : LoopFits partStatic part
  · rw [if_pos hl, hsel, bind_eq_bind, bind_some]
    by_cases hm : samples part < minSampleSize
    · exact absurd ⟨hl, fun h => absurd hm (Nat.not_lt_of_le h)⟩ h
    · rw [if_neg hm]
      by_cases h1 : 100 * p.2 < 2 ^ 31
      · have h2 : ¬ minPercent * samples part < 2 ^ 31 := fun h2 =>
          h ⟨hl, fun _ => ⟨fun q hq => Option.some.inj (hq.symm.trans e) ▸ h1, h2⟩⟩
        rw [int32_of_lt h1, int32_of_not_lt h2]
        rfl
      · rw [int32_of_not_lt h1]
        rfl
  · rw [if_neg hl]
    rfl

end Best

theorem countStatic_pos (hs : ∀ p ∈ partStatic, 0 < p.2) (t : Int32) :
    0 < countStatic partStatic t := by
  unfold countStatic
  split
  · next count e =>
    obtain ⟨l1, l2, rfl, -⟩ := lookup_eq_some_iff.mp e
    exact Nat.mul_pos (by decide) (hs (t, count) (by simp))
  · exact Nat.one_pos

theorem judge_exact (partStatic part : Part) (minSampleSize minPercent : Nat) (hne : part ≠ [])
    (hp : ∀ p ∈ part, 0 < p.2) (hs : ∀ p ∈ partStatic, 0 < p.2) :
    JudgesExactly partStatic part minSampleSize minPercent ↔
      Fits partStatic part minSampleSize minPercent := by
  have hn : part.argmax (product partStatic) ≠ none := mt argmax_eq_none.mp hne
  obtain ⟨p, e⟩ := ne_none_iff_exists'.mp hn
  constructor
  · rintro ⟨q, -, -, eq⟩
    by_contra h
    rw [judge_of_not_fits e (countStatic_pos hs) hp h] at eq
    cases eq
  · exact fun h => ⟨p, argmax_mem e, fun q hq => le_of_mem_argmax hq e,
      judge_of_fits e (countStatic_pos hs) hp h⟩

theorem judge_exact_small : JudgesExactly [(7, 2)] [(6, 5), (7, 1)] 2 50 := by
  refine (judge_exact [(7, 2)] [(6, 5), (7, 1)] 2 50 (by decide) ?_ ?_).mpr
    ⟨by decide, fun _ => ⟨fun p hp => ?_, by decide⟩⟩
  · simp
  · simp
  · cases hp
    decide

/-- The first product is 4300000000, which wraps to 5032704. -/
theorem judge_large : ¬ JudgesExactly [(6, 1000000), (7, 1000000)] [(6, 43), (7, 1)] 2 66 := by
  rintro ⟨p, -, -, e⟩
  cases e

end Judge

end BeeLlama.Ngram
