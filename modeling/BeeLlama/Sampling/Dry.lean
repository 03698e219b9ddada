import BeeLlama.Lib.CountMap
import BeeLlama.Lib.Fallible
import BeeLlama.Lib.RingBuffer
import BeeLlama.Lib.SelfOverlap

/-!
# Repeated sequences (`llama_sampler_dry`)

`llama_sampler_dry_apply` looks for the last breaker in the window of the last tokens, which limits
the repeats, and then for each place how long the tokens before it repeat the end of the window.

* `repLimit_spec`: the limit comes from the longest of the breakers that begin last.
* `ZInv.step`: one round of the Z-algorithm, whose stored lengths are limited and whose box is not.
* `dry_exact`: the limit, the lengths and the greatest length for each token.

The factors of the penalty only count by whether they are neutral, and the penalties themselves are
left out.
-/

namespace BeeLlama.Sampling

open List

/-- The constant fields of `llama_sampler_dry`; `enabled` if `dry_multiplier` and `dry_base` have a
penalty. -/
structure DryParams where
  enabled : Bool
  allowedLength : Int
  penaltyLastN : Nat
  deriving DecidableEq

/-- `llama_sampler_dry`. A breaker is its first token and the tokens behind it. -/
structure Dry (p : DryParams) where
  breakers : List (Int × List Int)
  repeatCount : List Nat := []
  maxTokenRepeat : CountMap Int := ∅
  lastTokens : RingBuffer Int p.penaltyLastN := .new _ 0

namespace Dry

variable {p : DryParams} {cap : Nat}

/-- `llama_sampler_dry_accept`. -/
def accept (s : Dry p) (token : Int) : Except String (Dry p) := do
  if p.enabled = false ∨ p.penaltyLastN = 0 then return s
  return { s with lastTokens := ← s.lastTokens.pushBack token }

/-- The tokens of a tail against those behind the token `i` from the end. -/
def matchTail (lastTokens : RingBuffer Int cap) (i : Nat) : List Int → Nat → Except String Bool
  | [], _ => return true
  | t :: tail, offset => do
    if t ≠ (← lastTokens.rat (i - offset - 1)) then return false
    matchTail lastTokens i tail (offset + 1)

/-- The loop over the breakers that begin with a token. -/
def longestMatch (lastTokens : RingBuffer Int cap) (i : Nat) :
    List (List Int) → Int → Except String Int
  | [], longest => return longest
  | tail :: tails, longest => do
    if (tail.length : Int) > longest ∧ tail.length ≤ i then
      if ← matchTail lastTokens i tail 0 then longestMatch lastTokens i tails tail.length
      else longestMatch lastTokens i tails longest
    else longestMatch lastTokens i tails longest

/-- `dry_processed_breakers.equal_range`. -/
def tailsOf (breakers : List (Int × List Int)) (token : Int) : List (List Int) :=
  (breakers.filter fun b => b.1 = token).map Prod.snd

/-- Step 1: the loop over the tokens from the last one on. -/
def repLimit (lastTokens : RingBuffer Int cap) (breakers : List (Int × List Int)) (n : Nat) :
    Nat → Nat → Except String Nat
  | 0, _ => return n
  | rounds + 1, i => do
    let token ← lastTokens.rat i
    let longest ← longestMatch lastTokens i (tailsOf breakers token) (-1)
    if 0 ≤ longest then return i - longest.toNat
    else repLimit lastTokens breakers n rounds (i + 1)

/-- `while (m + k < n && rat(m) == rat(m + k)) ++m`. -/
def extend (lastTokens : RingBuffer Int cap) (n k : Nat) : Nat → Nat → Except String Nat
  | 0, m => return m
  | rounds + 1, m => do
    if m + k < n then
      if (← lastTokens.rat m) = (← lastTokens.rat (m + k)) then
        extend lastTokens n k rounds (m + 1)
      else return m
    else return m

/-- `rt`, `lt` and `dry_repeat_count`. -/
structure ZState where
  rt : Nat := 0
  lt : Nat := 0
  counts : List Nat

/-- Step 2: one round of the Z-algorithm. -/
def zStep (lastTokens : RingBuffer Int cap) (n limit : Nat) (s : ZState) (k : Nat) :
    Except String ZState := do
  let last := n - 1
  if k > s.rt then
    let m ← extend lastTokens n k n 0
    let counts := s.counts.set (last - k) (min m limit)
    if m > 0 then return { rt := k + m - 1, lt := k, counts }
    else return { s with counts }
  else
    let q := k - s.lt
    let rightPartLen := s.rt - k + 1
    if s.counts.getD (last - q) 0 < rightPartLen then
      return { s with counts := s.counts.set (last - k) (min (s.counts.getD (last - q) 0) limit) }
    else
      -- the loop over `i` from `rt + 1` on, with `m = i - k`
      let m ← extend lastTokens n k n (s.rt + 1 - k)
      return { rt := k + m - 1, lt := k, counts := s.counts.set (last - k) (min m limit) }

/-- Step 3: the token that a repeat goes on with, and the greatest length for it. -/
def maxStep (lastTokens : RingBuffer Int cap) (n : Nat) (allowedLength : Int) (counts : List Nat)
    (m : CountMap Int) (i : Nat) : Except String (CountMap Int) := do
  let repeatLen := counts.getD i 0
  if (repeatLen : Int) ≥ allowedLength then
    let token ← lastTokens.rat (n - 2 - i)
    match m.lookup token with
    | none => return m.insert token repeatLen
    | some len => if len < repeatLen then return m.insert token repeatLen else return m
  else return m

/-- `llama_sampler_dry_apply` up to the penalties, and whether it comes to them. -/
def apply (s : Dry p) : Except String (Dry p × Bool) := do
  if p.enabled = false ∨ p.penaltyLastN = 0 then return (s, false)
  let n := min s.lastTokens.sz p.penaltyLastN
  if (n : Int) ≤ p.allowedLength then return (s, false)
  let s := { s with repeatCount := .replicate n 0, maxTokenRepeat := ∅ }
  let limit ← repLimit s.lastTokens s.breakers n n 0
  if (limit : Int) < p.allowedLength then return (s, false)
  let z ← (List.range' 1 (n - 1)).foldlM (zStep s.lastTokens n limit) { counts := s.repeatCount }
  let m ← (List.range (n - 1)).foldlM (maxStep s.lastTokens n p.allowedLength z.counts) ∅
  return ({ s with repeatCount := z.counts, maxTokenRepeat := m }, true)

/-- `llama_sampler_dry_reset`. -/
def reset (s : Dry p) : Dry p :=
  { s with lastTokens := s.lastTokens.clear, repeatCount := [], maxTokenRepeat := ∅ }

/-! ## The limit -/

section Limit

variable {b : RingBuffer Int cap} {i : Nat}

/-- A breaker in the window, its first token `i` tokens from the end. -/
def BreakerAt (window : List Int) (i : Nat) (br : Int × List Int) : Prop :=
  br.1 :: br.2 <+: window.drop (window.length - 1 - i)

/-- The limit: the longest of the breakers that begin last, or the whole window. -/
def IsLimit (breakers : List (Int × List Int)) (window : List Int) (limit : Nat) : Prop :=
  (∃ i < window.length, ∃ br ∈ breakers, BreakerAt window i br ∧
    (∀ j < i, ∀ br' ∈ breakers, ¬ BreakerAt window j br') ∧
    (∀ br' ∈ breakers, BreakerAt window i br' → br'.2.length ≤ br.2.length) ∧
    limit = i - br.2.length) ∨
  (∀ i < window.length, ∀ br ∈ breakers, ¬ BreakerAt window i br) ∧ limit = window.length

/-- The item `i` from the end, and the items behind it. -/
theorem rat_drop (h : i < b.sz) :
    ∃ y, b.rat i = .ok y ∧ b.toList.drop (b.sz - 1 - i) = y :: b.toList.drop (b.sz - i) := by
  obtain ⟨y, hrat, hy⟩ := b.rat_eq h
  refine ⟨y, hrat, ?_⟩
  rw [List.getElem?_reverse (by simpa using h), b.length_toList] at hy
  obtain ⟨hlt, rfl⟩ := List.getElem?_eq_some_iff.mp hy
  rw [drop_eq_getElem_cons hlt, show b.sz - 1 - i + 1 = b.sz - i by omega]

theorem matchTail_spec (hi : i < b.sz) (tail : List Int) (offset : Nat)
    (h : offset + tail.length ≤ i) :
    ∃ r, matchTail b i tail offset = .ok r ∧
      (r = true ↔ tail <+: b.toList.drop (b.sz - i + offset)) := by
  induction tail generalizing offset with
  | nil => exact ⟨true, rfl, by simp⟩
  | cons t tail ih =>
    rw [length_cons] at h
    obtain ⟨y, hrat, hy⟩ := rat_drop (b := b) (i := i - offset - 1) (by omega)
    rw [show b.sz - 1 - (i - offset - 1) = b.sz - i + offset by omega,
      show b.sz - (i - offset - 1) = b.sz - i + (offset + 1) by omega] at hy
    obtain ⟨r, hr, hiff⟩ := ih (offset + 1) (by omega)
    rw [hy, cons_prefix_cons, ← hiff]
    simp only [matchTail, hrat, bind, Except.bind]
    by_cases e : t = y
    · exact ⟨r, by rw [if_neg (not_not.mpr e)]; exact hr, by simp [e]⟩
    · exact ⟨false, by rw [if_pos e]; rfl, by simp [e]⟩

/-- The longest of the tails that follow the token, or the length of before. -/
theorem longestMatch_spec (hi : i < b.sz) (tails : List (List Int)) (longest : Int) :
    ∃ r, longestMatch b i tails longest = .ok r ∧ longest ≤ r ∧
      (r = longest ∨ ∃ tail ∈ tails, tail <+: b.toList.drop (b.sz - i) ∧ r = tail.length) ∧
      ∀ tail ∈ tails, tail <+: b.toList.drop (b.sz - i) → (tail.length : Int) ≤ r := by
  induction tails generalizing longest with
  | nil => exact ⟨longest, rfl, le_rfl, .inl rfl, by simp⟩
  | cons tail tails ih =>
    simp only [longestMatch, mem_cons, forall_eq_or_imp, exists_eq_or_imp]
    by_cases hlong : (tail.length : Int) > longest ∧ tail.length ≤ i
    · obtain ⟨m, hm, hiff⟩ := matchTail_spec hi tail 0 (by omega)
      simp only [if_pos hlong, hm, bind, Except.bind]
      cases m with
      | true =>
        obtain ⟨r, hr, hle, hfrom, hall⟩ := ih tail.length
        have hpre := hiff.mp rfl
        refine ⟨r, hr, by omega, .inr ?_, fun _ => hle, hall⟩
        exact hfrom.imp (fun e => ⟨hpre, e⟩) id
      | false =>
        obtain ⟨r, hr, hle, hfrom, hall⟩ := ih longest
        exact ⟨r, hr, hle, hfrom.imp_right .inr, fun hp => absurd (hiff.mpr hp) (by simp), hall⟩
    · obtain ⟨r, hr, hle, hfrom, hall⟩ := ih longest
      refine ⟨r, by rw [if_neg hlong]; exact hr, hle, hfrom.imp_right .inr, fun hp => ?_, hall⟩
      -- a tail that follows the token is in the window
      have := hp.length_le
      rw [length_drop, b.length_toList] at this
      omega

theorem mem_tailsOf {breakers : List (Int × List Int)} {token : Int} {tail : List Int} :
    tail ∈ tailsOf breakers token ↔ (token, tail) ∈ breakers := by
  simp [tailsOf]

theorem repLimit_spec (breakers : List (Int × List Int)) (rounds : Nat) (hr : i + rounds = b.sz)
    (hno : ∀ j < i, ∀ br ∈ breakers, ¬ BreakerAt b.toList j br) :
    ∃ limit, repLimit b breakers b.sz rounds i = .ok limit ∧ IsLimit breakers b.toList limit := by
  induction rounds generalizing i with
  | zero =>
    refine ⟨b.sz, rfl, .inr ⟨?_, b.length_toList.symm⟩⟩
    rw [b.length_toList]
    exact fun j hj => hno j (by omega)
  | succ rounds ih =>
    have hi : i < b.sz := by omega
    obtain ⟨token, hrat, hdrop⟩ := rat_drop hi
    obtain ⟨r, hlm, hle, hfrom, hall⟩ := longestMatch_spec hi (tailsOf breakers token) (-1)
    have hat : ∀ br : Int × List Int, BreakerAt b.toList i br ↔
        br.1 = token ∧ br.2 <+: b.toList.drop (b.sz - i) := by
      intro br
      rw [BreakerAt, b.length_toList, hdrop, cons_prefix_cons]
    have hmem : ∀ br ∈ breakers, BreakerAt b.toList i br →
        br.2 ∈ tailsOf breakers token ∧ br.2 <+: b.toList.drop (b.sz - i) := by
      rintro ⟨head, tail⟩ hbr h
      obtain ⟨rfl, hp⟩ := (hat _).mp h
      exact ⟨mem_tailsOf.mpr hbr, hp⟩
    simp only [repLimit, hrat, hlm, bind, Except.bind]
    by_cases h0 : 0 ≤ r
    · obtain ⟨tail, htail, hp, rfl⟩ := hfrom.resolve_left (by omega)
      refine ⟨i - tail.length, by rw [if_pos h0]; rfl, .inl ⟨i, by simpa using hi,
        (token, tail), mem_tailsOf.mp htail, (hat _).mpr ⟨rfl, hp⟩, hno, ?_, rfl⟩⟩
      intro br hbr h
      obtain ⟨hbr, hp⟩ := hmem br hbr h
      exact_mod_cast hall br.2 hbr hp
    · rw [if_neg h0]
      refine ih (i := i + 1) (by omega) fun j hj br hbr h => ?_
      rcases Nat.lt_or_eq_of_le (Nat.lt_succ_iff.mp hj) with hj | rfl
      · exact hno j hj br hbr h
      · obtain ⟨hbr, hp⟩ := hmem br hbr h
        have := hall br.2 hbr hp
        omega

end Limit

/-! ## The lengths -/

section Lengths

variable {b : RingBuffer Int cap} {k m limit : Nat}

theorem extend_spec (rounds : Nat) (h : Overlaps b.toList.reverse k m)
    (hn : b.sz ≤ m + k + rounds) :
    ∃ m', extend b b.sz k rounds m = .ok m' ∧ m ≤ m' ∧ Overlap b.toList.reverse k m' := by
  induction rounds generalizing m with
  | zero => exact ⟨m, rfl, le_rfl, h, fun hlt => by simp at hlt; omega⟩
  | succ rounds ih =>
    by_cases hlt : m + k < b.sz
    · obtain ⟨x, hx, hx'⟩ := b.rat_eq (show m < b.sz by omega)
      obtain ⟨y, hy, hy'⟩ := b.rat_eq hlt
      rw [Nat.add_comm m k] at hy'
      simp only [extend, if_pos hlt, hx, hy, bind, Except.bind]
      by_cases e : x = y
      · have hlen : k + m < b.toList.reverse.length := by simp; omega
        obtain ⟨m', hm', hle, hov⟩ :=
          ih (h.succ hlen (by rw [hx', hy', e])) (by omega)
        exact ⟨m', by rw [if_pos e]; exact hm', by omega, hov⟩
      · refine ⟨m, by rw [if_neg e]; rfl, le_rfl, h, fun _ he => e ?_⟩
        rw [hx', hy'] at he
        exact Option.some.inj he
    · exact ⟨m, by simp only [extend, if_neg hlt]; rfl, le_rfl, h,
        fun hlt' => absurd hlt' (by simp; omega)⟩

/-- The lengths below `k` are stored up to the limit, and the box is one. -/
structure ZInv (b : RingBuffer Int cap) (limit k : Nat) (s : ZState) : Prop where
  length : s.counts.length = b.sz
  counts : ∀ j, 1 ≤ j → j < k →
    ∃ m, Overlap b.toList.reverse j m ∧ s.counts[b.sz - 1 - j]? = some (min m limit)
  box : s.rt = 0 ∨ 1 ≤ s.lt ∧ s.lt < k ∧ s.lt ≤ s.rt ∧
    Overlaps b.toList.reverse s.lt (s.rt + 1 - s.lt)

/-- The length at `k` is stored. -/
theorem ZInv.set {s : ZState} (h : ZInv b limit k s) (hk : k < b.sz)
    (hm : Overlap b.toList.reverse k m) {lt rt : Nat}
    (hbox : rt = 0 ∨ 1 ≤ lt ∧ lt < k + 1 ∧ lt ≤ rt ∧ Overlaps b.toList.reverse lt (rt + 1 - lt)) :
    ZInv b limit (k + 1) ⟨rt, lt, s.counts.set (b.sz - 1 - k) (min m limit)⟩ where
  length := by simpa using h.length
  counts j h1 hj := by
    rcases Nat.lt_or_eq_of_le (Nat.lt_succ_iff.mp hj) with hj | rfl
    · obtain ⟨mj, hov, hget⟩ := h.counts j h1 hj
      exact ⟨mj, hov, by rw [getElem?_set_ne (by omega)]; exact hget⟩
    · exact ⟨m, hm, getElem?_set_self (by have := h.length; omega)⟩
  box := hbox

/-- One round: a length that ends in the box is that of the pair index, as far as the limit tells,
and any other one is counted on from the end of the box. -/
theorem ZInv.step {s : ZState} (h : ZInv b limit k s) (h1 : 1 ≤ k) (hk : k < b.sz) :
    ∃ s', zStep b b.sz limit s k = .ok s' ∧ ZInv b limit (k + 1) s' := by
  unfold zStep
  by_cases hout : k > s.rt
  · obtain ⟨m, hm, -, hov⟩ := extend_spec b.sz (.zero b.toList.reverse k) (by omega)
    simp only [if_pos hout, hm, bind, Except.bind]
    by_cases h0 : m > 0
    · refine ⟨_, if_pos h0, h.set hk hov (.inr ⟨h1, by omega, by omega, ?_⟩)⟩
      rw [show k + m - 1 + 1 - k = m by omega]
      exact hov.toOverlaps
    · refine ⟨_, if_neg h0, h.set hk hov (h.box.imp_right fun hbox => ?_)⟩
      exact ⟨hbox.1, by omega, hbox.2.2⟩
  · obtain ⟨hl1, hlk, hlr, hbox⟩ := h.box.resolve_left (by omega)
    obtain ⟨q, hq, hget⟩ := h.counts (k - s.lt) (by omega) (by omega)
    have hgetD : s.counts.getD (b.sz - 1 - (k - s.lt)) 0 = min q limit := by
      rw [getD_eq_getElem?_getD, hget, Option.getD_some]
    simp only [if_neg hout, hgetD]
    by_cases hshort : min q limit < s.rt - k + 1
    · obtain ⟨m, hov⟩ := exists_overlap b.toList.reverse k
      have hmin : min m limit = min q limit :=
        Overlap.min_of_box hbox (by omega) hq (by omega) hov
      refine ⟨_, if_pos hshort, ?_⟩
      rw [← hmin, show min (min m limit) limit = min m limit by omega]
      refine h.set hk hov (.inr ⟨hl1, by omega, hlr, hbox⟩)
    · have hin := hbox.of_box (by omega) (hq.toOverlaps.mono (show s.rt + 1 - k ≤ q by omega))
        (by omega)
      obtain ⟨m, hm, hle, hov⟩ := extend_spec b.sz hin (by omega)
      simp only [if_neg hshort, hm, bind, Except.bind]
      refine ⟨_, rfl, h.set hk hov (.inr ⟨h1, by omega, by omega, ?_⟩)⟩
      rw [show k + m - 1 + 1 - k = m by omega]
      exact hov.toOverlaps

/-- All rounds. -/
theorem ZInv.run {s : ZState} (h : ZInv b limit k s) (h1 : 1 ≤ k) {len : Nat}
    (hlen : k + len = b.sz) :
    ∃ s', (List.range' k len).foldlM (zStep b b.sz limit) s = .ok s' ∧ ZInv b limit b.sz s' := by
  induction len generalizing k s with
  | zero => exact ⟨s, rfl, by rwa [← hlen]⟩
  | succ len ih =>
    obtain ⟨s₁, hs1, h₁⟩ := h.step h1 (by omega)
    obtain ⟨s', hs', h'⟩ := ih h₁ (by omega) (by omega)
    exact ⟨s', ok_bind hs1 hs', h'⟩

end Lengths

/-! ## The greatest lengths -/

section Greatest

variable {b : RingBuffer Int cap}

/-- The map has the greatest item of each set that is not empty. -/
def Maxima (m : CountMap Int) (S : Int → Set Nat) : Prop :=
  ∀ t, m.lookup t = none ∧ S t = ∅ ∨ ∃ r, m.lookup t = some r ∧ IsGreatest (S t) r

theorem Maxima.lookup_iff {m : CountMap Int} {S : Int → Set Nat} (h : Maxima m S) (t : Int)
    (r : Nat) : m.lookup t = some r ↔ IsGreatest (S t) r := by
  rcases h t with ⟨hn, he⟩ | ⟨r', hr', hg⟩
  · simp [hn, he, IsGreatest]
  · rw [hr']
    constructor
    · intro e
      exact Option.some.inj e ▸ hg
    · intro hg'
      rw [hg.unique hg']

/-- One more length for a token. -/
theorem Maxima.add {m m' : CountMap Int} {S S' : Int → Set Nat} (h : Maxima m S) {token : Int}
    {c : Nat} (hS : S' token = insert c (S token)) (hne : ∀ t ≠ token, S' t = S t)
    (hm : m'.lookup token = some (max ((m.lookup token).getD c) c))
    (hmne : ∀ t ≠ token, m'.lookup t = m.lookup t) : Maxima m' S' := by
  intro t
  by_cases e : t = token
  · subst e
    refine .inr ⟨_, hm, ?_⟩
    rw [hS]
    rcases h t with ⟨hn, he⟩ | ⟨r, hr, hg⟩
    · simp [hn, he]
    · rw [hr, Option.getD_some, max_comm]
      exact hg.insert c
  · rw [hne t e, hmne t e]
    exact h t

/-- The lengths of the repeats that a token follows, of those that are stored before `i`. -/
def lengthsBefore (window : List Int) (counts : List Nat) (allowed : Int) (i : Nat) (t : Int) :
    Set Nat :=
  {c | allowed ≤ c ∧ ∃ j < i, window[j + 1]? = some t ∧ counts[j]? = some c}

variable {counts : List Nat} {i : Nat} {m : CountMap Int}

/-- One round stores the length for the token behind it. -/
theorem Maxima.step {allowed : Int} (h : Maxima m (lengthsBefore b.toList counts allowed i))
    (hc : counts.length = b.sz) (hi : i < b.sz - 1) :
    ∃ m', maxStep b b.sz allowed counts m i = .ok m' ∧
      Maxima m' (lengthsBefore b.toList counts allowed (i + 1)) := by
  obtain ⟨c, hget⟩ : ∃ c, counts[i]? = some c := ⟨_, getElem?_eq_getElem (by omega)⟩
  have hgetD : counts.getD i 0 = c := by
    rw [getD_eq_getElem?_getD, hget, Option.getD_some]
  obtain ⟨token, hrat, htok⟩ := b.rat_eq (show b.sz - 2 - i < b.sz by omega)
  rw [getElem?_reverse (by rw [b.length_toList]; omega), b.length_toList,
    show b.sz - 1 - (b.sz - 2 - i) = i + 1 by omega] at htok
  have hmem : ∀ t n, n ∈ lengthsBefore b.toList counts allowed (i + 1) t ↔
      n ∈ lengthsBefore b.toList counts allowed i t ∨ allowed ≤ n ∧ t = token ∧ n = c := by
    intro t n
    simp only [lengthsBefore, Set.mem_ofPred_eq, Nat.lt_succ_iff_lt_or_eq]
    grind
  unfold maxStep
  simp only [hgetD]
  by_cases hall : (c : Int) ≥ allowed
  · have hS : lengthsBefore b.toList counts allowed (i + 1) token =
        insert c (lengthsBefore b.toList counts allowed i token) := by
      ext n
      rw [hmem, Set.mem_insert_iff]
      grind
    have hne : ∀ t ≠ token, lengthsBefore b.toList counts allowed (i + 1) t =
        lengthsBefore b.toList counts allowed i t := by
      intro t ht
      ext n
      rw [hmem]
      grind
    simp only [if_pos hall, hrat, bind, Except.bind]
    cases hl : m.lookup token with
    | none =>
      refine ⟨_, rfl, h.add hS hne ?_ fun t ht => Finmap.lookup_insert_of_ne _ ht⟩
      simp [hl]
    | some len =>
      by_cases hlt : len < c
      · refine ⟨_, if_pos hlt, h.add hS hne ?_ fun t ht => Finmap.lookup_insert_of_ne _ ht⟩
        simp [hl, Nat.le_of_lt hlt]
      · refine ⟨_, if_neg hlt, h.add hS hne ?_ fun _ _ => rfl⟩
        simp [hl, Nat.le_of_not_lt hlt]
  · refine ⟨m, if_neg hall, fun t => ?_⟩
    have hsame : lengthsBefore b.toList counts allowed (i + 1) t =
        lengthsBefore b.toList counts allowed i t := by
      ext n
      rw [hmem]
      grind
    rw [hsame]
    exact h t

/-- All rounds. -/
theorem Maxima.run (allowed : Int) (hc : counts.length = b.sz) {n : Nat} (hn : n ≤ b.sz - 1) :
    ∃ m, (List.range n).foldlM (maxStep b b.sz allowed counts) ∅ = .ok m ∧
      Maxima m (lengthsBefore b.toList counts allowed n) := by
  induction n with
  | zero => exact ⟨∅, rfl, fun t => .inl ⟨Finmap.lookup_empty t, by simp [lengthsBefore]⟩⟩
  | succ n ih =>
    obtain ⟨m, hm, hmax⟩ := ih (by omega)
    obtain ⟨m', hm', hmax'⟩ := hmax.step hc (by omega)
    refine ⟨m', ?_, hmax'⟩
    rw [range_succ, foldlM_append]
    refine ok_bind hm ?_
    rw [foldlM_cons]
    exact ok_bind hm' rfl

end Greatest

/-! ## The whole step -/

/-- What the sampler has stored for a window. -/
structure Repeats (breakers : List (Int × List Int)) (window : List Int) (s : Dry p) : Prop where
  length : s.repeatCount.length = window.length
  counts : ∃ limit, IsLimit breakers window limit ∧ ∀ k, 1 ≤ k → k < window.length →
    ∃ m, LongestCommonSuffix window (window.rdrop k) m ∧
      s.repeatCount[window.length - 1 - k]? = some (min limit m)
  greatest : ∀ t r, s.maxTokenRepeat.lookup t = some r ↔
    IsGreatest {c : Nat | p.allowedLength ≤ c ∧ ∃ k, 1 ≤ k ∧ k < window.length ∧
      window[window.length - k]? = some t ∧
      s.repeatCount[window.length - 1 - k]? = some c} r

theorem apply_spec (s : Dry p) :
    ∃ s' reached, s.apply = .ok (s', reached) ∧ s'.lastTokens = s.lastTokens ∧
      s'.breakers = s.breakers ∧
      (reached = true → Repeats s.breakers s.lastTokens.toList s') := by
  unfold apply
  by_cases hoff : p.enabled = false ∨ p.penaltyLastN = 0
  · exact ⟨s, false, if_pos hoff, rfl, rfl, by simp⟩
  by_cases hshort : (s.lastTokens.sz : Int) ≤ p.allowedLength
  · refine ⟨s, false, ?_, rfl, rfl, by simp⟩
    simp only [if_neg hoff, Nat.min_eq_left s.lastTokens.sz_le, if_pos hshort]
    rfl
  obtain ⟨limit, hlimit, hspec⟩ := repLimit_spec (b := s.lastTokens) (i := 0) s.breakers
    s.lastTokens.sz (by omega) (by simp)
  simp only [if_neg hoff, Nat.min_eq_left s.lastTokens.sz_le, if_neg hshort, hlimit, bind,
    Except.bind]
  by_cases hlow : (limit : Int) < p.allowedLength
  · exact ⟨_, false, if_pos hlow, rfl, rfl, by simp⟩
  rw [if_neg hlow]
  have hinit : ZInv s.lastTokens limit 1 { counts := .replicate s.lastTokens.sz 0 } :=
    ⟨by simp, fun j h1 hj => by omega, .inl rfl⟩
  obtain ⟨z, hz, hzinv⟩ : ∃ z, (List.range' 1 (s.lastTokens.sz - 1)).foldlM
      (zStep s.lastTokens s.lastTokens.sz limit) { counts := .replicate s.lastTokens.sz 0 } =
        .ok z ∧ ZInv s.lastTokens limit s.lastTokens.sz z := by
    by_cases h0 : s.lastTokens.sz = 0
    · rw [h0]
      exact ⟨_, rfl, by simpa using h0.symm, fun j h1 hj => by omega, .inl rfl⟩
    · exact hinit.run le_rfl (by omega)
  obtain ⟨m, hm, hmax⟩ := Maxima.run (b := s.lastTokens) p.allowedLength hzinv.length le_rfl
  rw [hz]
  refine ⟨_, true, ok_bind hm rfl, rfl, rfl, fun _ => ?_⟩
  have hlen := s.lastTokens.length_toList
  refine ⟨by rw [hlen]; exact hzinv.length, ⟨limit, hspec, fun k h1 hk => ?_⟩, fun t r => ?_⟩
  · rw [hlen] at hk ⊢
    obtain ⟨c, hov, hget⟩ := hzinv.counts k h1 hk
    exact ⟨c, hov.longest, by rw [min_comm]; exact hget⟩
  · rw [hlen, hmax.lookup_iff]
    -- the length for `k` is at `n - 1 - k`
    have hset : lengthsBefore s.lastTokens.toList z.counts p.allowedLength (s.lastTokens.sz - 1) t =
        {c : Nat | p.allowedLength ≤ c ∧ ∃ k, 1 ≤ k ∧ k < s.lastTokens.sz ∧
          s.lastTokens.toList[s.lastTokens.sz - k]? = some t ∧
          z.counts[s.lastTokens.sz - 1 - k]? = some c} := by
      ext c
      refine and_congr_right fun _ => ⟨?_, ?_⟩
      · rintro ⟨j, hj, ht, hget⟩
        refine ⟨s.lastTokens.sz - 1 - j, by omega, by omega, ?_, ?_⟩
        · rwa [show s.lastTokens.sz - (s.lastTokens.sz - 1 - j) = j + 1 by omega]
        · rwa [show s.lastTokens.sz - 1 - (s.lastTokens.sz - 1 - j) = j by omega]
      · rintro ⟨k, h1, hk, ht, hget⟩
        refine ⟨s.lastTokens.sz - 1 - k, by omega, ?_, hget⟩
        rwa [show s.lastTokens.sz - 1 - k + 1 = s.lastTokens.sz - k by omega]
    rw [hset]

/-- The calls of the sampler. -/
inductive Call where
  | accept (token : Int)
  | apply
  | reset

/-- The sampler after a call. -/
def call (s : Dry p) : Call → Except String (Dry p)
  | .accept token => s.accept token
  | .apply => do return (← s.apply).1
  | .reset => .ok s.reset

/-- The tokens that were accepted since the last reset. -/
def since (accepted : List Int) : Call → List Int
  | .accept token => accepted ++ [token]
  | .reset => []
  | .apply => accepted

/-- The buffer has the last tokens since the last reset. -/
theorem call_spec {s : Dry p} {accepted : List Int} {breakers : List (Int × List Int)}
    (hb : s.breakers = breakers)
    (h : p.enabled = true → s.lastTokens.toList = accepted.rtake p.penaltyLastN) (c : Call) :
    ∃ s', s.call c = .ok s' ∧ s'.breakers = breakers ∧
      (p.enabled = true → s'.lastTokens.toList = (since accepted c).rtake p.penaltyLastN) := by
  cases c with
  | accept token =>
    by_cases hoff : p.enabled = false ∨ p.penaltyLastN = 0
    · refine ⟨s, if_pos hoff, hb, fun hon => ?_⟩
      have h0 : p.penaltyLastN = 0 := hoff.resolve_left (by simp [hon])
      rw [h hon, h0, rtake_zero, rtake_zero]
    · obtain ⟨b', hb', hl⟩ :=
        s.lastTokens.toList_pushBack (fun h0 => hoff (.inr h0)) token
      refine ⟨{ s with lastTokens := b' }, ?_, hb, fun hon => ?_⟩
      · simp only [call, accept, if_neg hoff, hb', bind, Except.bind]
        rfl
      · show b'.toList = _
        rw [hl, h hon, RingBuffer.rtake_concat]
        rfl
  | apply =>
    obtain ⟨s', reached, hs', hl, hb', -⟩ := apply_spec s
    exact ⟨s', ok_bind hs' rfl, hb'.trans hb, fun hon => by rw [hl]; exact h hon⟩
  | reset => exact ⟨s.reset, rfl, hb, fun _ => by simp [reset, since]⟩

/-- In every state that calls reach: the limit comes from the last breaker in the window of the last
tokens, each length is that of the longest suffix that is repeated, up to the limit, and each token
behind a repeat that is long enough has the greatest of these lengths. -/
theorem dry_exact (p : DryParams) (breakers : List (Int × List Int)) (calls : List Call) :
    ∃ s : Dry p, calls.foldlM call { breakers } = .ok s ∧
      ∃ s' reached, s.apply = .ok (s', reached) ∧ (reached = true →
        Repeats breakers ((calls.foldl since []).rtake p.penaltyLastN) s') := by
  have hrun : ∀ (calls : List Call) (s : Dry p) (accepted : List Int), s.breakers = breakers →
      (p.enabled = true → s.lastTokens.toList = accepted.rtake p.penaltyLastN) →
      ∃ s' : Dry p, calls.foldlM call s = .ok s' ∧ s'.breakers = breakers ∧ (p.enabled = true →
        s'.lastTokens.toList = (calls.foldl since accepted).rtake p.penaltyLastN) := by
    intro calls
    induction calls with
    | nil => exact fun s accepted hb h => ⟨s, rfl, hb, h⟩
    | cons c calls ih =>
      intro s accepted hb h
      obtain ⟨s₁, hs1, hb1, h1⟩ := call_spec hb h c
      obtain ⟨s', hs', hb', h'⟩ := ih s₁ (since accepted c) hb1 h1
      exact ⟨s', ok_bind hs1 hs', hb', h'⟩
  obtain ⟨s, hs, hb, h⟩ := hrun calls { breakers } [] rfl fun _ => by simp
  obtain ⟨s', reached, hs', -, -, hrep⟩ := apply_spec s
  refine ⟨s, hs, s', reached, hs', fun hreached => ?_⟩
  have hon : p.enabled = true := by
    by_contra hoff
    have hskip : s.apply = .ok (s, false) := by
      unfold apply
      exact if_pos (.inl (by simpa using hoff))
    rw [hskip] at hs'
    cases hs'
    cases hreached
  rw [← h hon, ← hb]
  exact hrep hreached

/-- Of `1 2 3 1 2 3 1 2` the last five tokens are also the first five. -/
example : (do
    let s ← [1, 2, 3, 1, 2, 3, 1, 2].foldlM accept ({ breakers := [] } : Dry ⟨true, 2, 8⟩)
    let r ← s.apply
    return (r.1.repeatCount, r.1.maxTokenRepeat.lookup 3, r.2)) =
      .ok ([0, 2, 0, 0, 5, 0, 0, 0], some 5, true) := by decide +kernel

end Dry
end BeeLlama.Sampling
