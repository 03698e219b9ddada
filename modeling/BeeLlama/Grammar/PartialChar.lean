import BeeLlama.Grammar.Utf8

/-!
# Characters that are not complete (`llama_grammar_match_partial_char`)

`Completes u c`: the bytes that led to the state `u` can be completed to the character `c`. The code
takes the code points from `lowest u` to `highest u` for that, and looks for a common point of this
interval with those of the range (`Meets`).

* `completes_iff`: the interval is right, but not all of its code points are characters.
* `matchPartialChar_eq`: what the code computes.
* `matchPartialChar_exact_iff`: when this is what it should compute. A range that excludes a part of
  the interval leaves the others, but the code does not look for them.
-/

namespace BeeLlama.Grammar

open List Nat

/-! ## Completions -/

/-- A state that `decode_utf8` leaves after some calls. -/
inductive DecodeState : PartialUtf8 → Prop where
  | start : DecodeState {}
  | decode {u : PartialUtf8} (h : DecodeState u) (bs : List UInt8) :
    DecodeState (decodeUtf8 bs u).2

/-- Bytes that lead to the state `u` are completed to the character `c` by the bytes that remain. -/
def Completes (u : PartialUtf8) (c : Char) : Prop :=
  ∃ l r, String.utf8EncodeChar c = l ++ r ∧ (r.length : Int) = u.nRemain ∧ (decodeUtf8 l {}).2 = u

theorem decodeLoop_nRemain_le {bs : List UInt8} {v : Nat} {n : Int} (h : n ≤ 3) (acc : List Nat) :
    (decodeLoop bs v n acc).2.nRemain ≤ 3 := by
  induction bs generalizing v n acc with
  | nil => exact h
  | cons b bs ih =>
    unfold decodeLoop
    dsimp only
    split
    · exact ih (by omega) _
    · have hlen : utf8Length (b.toNat >>> 4) ≤ 4 := by
        unfold utf8Length
        split_ifs <;> omega
      split
      · dsimp only
        omega
      · exact ih (by omega) _

theorem continueDecode_nRemain_le {bs rest : List UInt8} {v v' : Nat} {n n' : Int}
    (h : continueDecode bs v n = some (rest, v', n')) : n' ≤ n := by
  induction bs generalizing v n with
  | nil =>
    simp only [continueDecode, Option.some.injEq, Prod.mk.injEq] at h
    omega
  | cons b bs ih =>
    unfold continueDecode at h
    split at h
    · split at h
      · cases h
      · have := ih h
        omega
    · simp only [Option.some.injEq, Prod.mk.injEq] at h
      omega

/-- No more than three bytes remain. -/
theorem DecodeState.nRemain_le {u : PartialUtf8} (h : DecodeState u) : u.nRemain ≤ 3 := by
  induction h with
  | start => decide
  | @decode u _ bs ih =>
    unfold decodeUtf8
    split
    · show (-1 : Int) ≤ 3
      decide
    · rename_i e
      have := continueDecode_nRemain_le e
      exact decodeLoop_nRemain_le (by omega) _

theorem leadByte_ne_zero {v : Nat} (hv : v < 0x110000) (h : v ≠ 0) : leadByte v ≠ 0 := by
  intro e
  have hf := feedByte_lead (u := {}) le_rfl hv
  rw [e] at hf
  have h0 : feedByte {} 0 = some (⟨0, 0⟩, [0]) := rfl
  simp only [h0, Option.some.injEq, Prod.mk.injEq, PartialUtf8.mk.injEq] at hf
  obtain ⟨⟨hval, hn⟩, -⟩ := hf
  have hk : trailing v = 0 := by omega
  rw [hk, pow_zero, Nat.div_one] at hval
  exact h hval.symm

theorem contBytes_ne_zero (v k : Nat) : ∀ b ∈ contBytes v k, b ≠ 0 := by
  induction k with
  | zero => simp [contBytes]
  | succ k ih =>
    intro b hb
    rcases mem_cons.mp hb with rfl | hb
    · intro e
      have := (contByte (v / 64 ^ k % 0x40) (mod_lt _ (by decide))).1
      rw [e] at this
      simp at this
    · exact ih b hb

/-- The state after a part of the bytes of a character. -/
theorem decodeUtf8_part {c : Char} {l r : List UInt8} (e : String.utf8EncodeChar c = l ++ r)
    (hl : l ≠ []) : (decodeUtf8 l {}).2 = ⟨c.toNat / 64 ^ r.length, r.length⟩ := by
  by_cases hc : c.toNat = 0
  · -- the string ends at the byte of the character
    have henc : String.utf8EncodeChar c = [0] := by
      rw [encode_eq, hc]
      rfl
    obtain ⟨b, l, rfl⟩ := exists_cons_of_ne_nil hl
    rw [henc] at e
    obtain ⟨hb, e'⟩ := List.cons.inj e
    obtain ⟨rfl, rfl⟩ := append_eq_nil_iff.mp e'.symm
    rw [← hb, hc]
    rfl
  · have h0 : ∀ b ∈ l, b ≠ 0 := by
      intro b hb
      have hmem : b ∈ String.utf8EncodeChar c := e ▸ mem_append_left r hb
      rw [encode_eq] at hmem
      rcases mem_cons.mp hmem with rfl | hmem
      · exact leadByte_ne_zero (toNat_lt c) hc
      · exact contBytes_ne_zero _ _ b hmem
    rw [decodeUtf8_of_feed h0 (feed_encode_append (u := {}) le_rfl e hl)]

theorem length_encode (c : Char) : (String.utf8EncodeChar c).length = trailing c.toNat + 1 := by
  rw [encode_eq, length_cons, length_contBytes]

/-- The completions of a state, by the value of the bits that are known. -/
theorem completes_iff {v n : Nat} {c : Char} :
    Completes ⟨v, n⟩ c ↔ n ≤ trailing c.toNat ∧ c.toNat / 64 ^ n = v := by
  have hlen := length_encode c
  constructor
  · rintro ⟨l, r, e, hr, hu⟩
    have hrn : r.length = n := by
      dsimp only at hr
      omega
    have hl : l ≠ [] := by
      rintro rfl
      have hn : ((0 : Nat) : Int) = n := (PartialUtf8.mk.inj hu).2
      have := congrArg List.length e
      rw [nil_append] at this
      omega
    rw [decodeUtf8_part e hl, hrn] at hu
    have hpos := length_pos_iff.mpr hl
    rw [e, length_append] at hlen
    exact ⟨by omega, (PartialUtf8.mk.inj hu).1⟩
  · rintro ⟨hn, rfl⟩
    have e := (take_append_drop ((String.utf8EncodeChar c).length - n)
      (String.utf8EncodeChar c)).symm
    have hr : ((String.utf8EncodeChar c).drop
        ((String.utf8EncodeChar c).length - n)).length = n := by
      rw [length_drop]
      omega
    refine ⟨_, _, e, congrArg _ hr, ?_⟩
    rw [decodeUtf8_part e, hr]
    rw [← length_pos_iff, length_take]
    omega

/-! ## The interval of the code -/

/-- `low`. -/
def lowest (u : PartialUtf8) : Nat :=
  let low := u.value <<< (u.nRemain.toNat * 6)
  if low = 0 then
    if u.nRemain = 2 then 1 <<< 11 else if u.nRemain = 3 then 1 <<< 16 else low
  else low

/-- `high`. -/
def highest (u : PartialUtf8) : Nat :=
  u.value <<< (u.nRemain.toNat * 6) ||| ((1 <<< (u.nRemain.toNat * 6)) - 1)

/-- The code knows no completion: the sequence is invalid, or an overlong one of two bytes. -/
def NoCompletion (u : PartialUtf8) : Prop := u.nRemain < 0 ∨ u.nRemain = 1 ∧ u.value < 2

theorem highest_eq (u : PartialUtf8) :
    highest u = u.value * 64 ^ u.nRemain.toNat + (64 ^ u.nRemain.toNat - 1) := by
  unfold highest
  have hpow : 1 <<< (u.nRemain.toNat * 6) = 64 ^ u.nRemain.toNat := by
    rw [one_shiftLeft, Nat.mul_comm, Nat.pow_mul]
  have hlt : 1 <<< (u.nRemain.toNat * 6) - 1 < 2 ^ (u.nRemain.toNat * 6) := by
    rw [one_shiftLeft]
    have := Nat.two_pow_pos (u.nRemain.toNat * 6)
    omega
  rw [← shiftLeft_add_eq_or_of_lt hlt, shiftLeft_eq, ← one_shiftLeft, hpow]

/-- The completions are the characters of the interval. -/
theorem completes_iff_mem {u : PartialUtf8} (hu : u.nRemain ≤ 3) (c : Char) :
    Completes u c ↔ ¬ NoCompletion u ∧ lowest u ≤ c.toNat ∧ c.toNat ≤ highest u := by
  obtain ⟨v, n⟩ := u
  by_cases hn : n < 0
  · refine iff_of_false ?_ fun h => h.1 (.inl hn)
    rintro ⟨l, r, -, hr, -⟩
    dsimp only at hr
    omega
  · obtain ⟨k, rfl⟩ := Int.eq_ofNat_of_zero_le (not_lt.mp hn)
    rw [completes_iff, highest_eq]
    unfold lowest NoCompletion trailing
    have := toNat_lt c
    simp only [Int.toNat_natCast, shiftLeft_eq] at *
    have hk : k = 0 ∨ k = 1 ∨ k = 2 ∨ k = 3 := by omega
    rcases hk with rfl | rfl | rfl | rfl
    · split_ifs <;> simp <;> omega
    · split_ifs <;> simp <;> omega
    · split_ifs <;> simp <;> omega
    · split_ifs <;> simp <;> omega

/-! ## The matches of the code -/

/-- The interval has a point in common with one of the range. The ends of that may be the wrong way
round. -/
def Meets (t : List GrammarElement) (low high : Nat) : Prop :=
  ∃ i ∈ intervals t, i.1 ≤ high ∧ low ≤ i.2

theorem ite_positive {p : Prop} [Decidable p] {positive : Bool} :
    (if p then positive else !positive) = positive ↔ p := by
  split <;> simp_all

/-- The loop goes over the intervals of the range. -/
theorem matchPartialLoop_eq (low high : Nat) (positive : Bool) {prev : GreType}
    {e : GrammarElement} {es : List GrammarElement} (h : itemElems prev (e :: es) = true)
    (ht : e.type = .char ∨ e.type = .charNot ∨ e.type = .charAlt) :
    matchPartialLoop low high positive (e :: es) = positive ↔
      Meets (e :: es.takeWhile isModifier) low high := by
  have hany : e.type ≠ .charAny := by
    rintro he
    simp [he] at ht
  match es, h with
  | [], _ =>
    rw [matchPartialLoop, if_neg hany, ite_positive]
    simp [Meets, intervals, and_comm]
  | u :: es, h =>
    obtain ⟨-, h1⟩ := itemElems_cons h
    obtain ⟨hu, h2⟩ := itemElems_cons h1
    rw [matchPartialLoop]
    by_cases hr : u.type = .charRngUpper
    · -- an interval, then the next one or the end
      have hm : isModifier u = true := by simp [isModifier, hr]
      rw [if_pos hr, takeWhile_cons_of_pos hm]
      cases es with
      | nil =>
        simp only [isCharAlt, Bool.false_eq_true, if_false]
        rw [ite_positive]
        simp [Meets, intervals, hr]
      | cons a es =>
        obtain ⟨ha, -⟩ := itemElems_cons h2
        by_cases hca : a.type = .charAlt
        · have ih := matchPartialLoop_eq low high positive h2
            (.inr (.inr hca))
          have hma : isModifier a = true := by simp [isModifier, hca]
          rw [if_pos (show isCharAlt (a :: es) = true by simp [isCharAlt, hca]),
            takeWhile_cons_of_pos hma]
          have hmeets : Meets (e :: u :: a :: es.takeWhile isModifier) low high ↔
              (e.value ≤ high ∧ low ≤ u.value) ∨ Meets (a :: es.takeWhile isModifier) low high := by
            simp [Meets, intervals, hr]
          rw [hmeets, ← ih]
          split <;> simp_all
        · have hma : isModifier a = false := by
            have : a.type ≠ .charRngUpper := by
              intro hra
              simp [hra, hr, mayFollow] at ha
            simp [isModifier, this, hca]
          rw [if_neg (show ¬ isCharAlt (a :: es) = true by simp [isCharAlt, hca]), ite_positive]
          simp [hma, Meets, intervals, hr]
    · rw [if_neg hr, if_neg hany]
      by_cases hca : u.type = .charAlt
      · -- a single character, then the next interval
        have ih := matchPartialLoop_eq low high positive h1 (.inr (.inr hca))
        have hm : isModifier u = true := by simp [isModifier, hca]
        rw [if_pos (show isCharAlt (u :: es) = true by simp [isCharAlt, hca]),
          takeWhile_cons_of_pos hm]
        have hmeets : Meets (e :: u :: es.takeWhile isModifier) low high ↔
            (e.value ≤ high ∧ low ≤ e.value) ∨ Meets (u :: es.takeWhile isModifier) low high := by
          simp [Meets, intervals, hr]
        rw [hmeets, ← ih]
        by_cases hin : low ≤ e.value ∧ e.value ≤ high
        · rw [if_pos hin]
          exact iff_of_true rfl (.inl hin.symm)
        · rw [if_neg hin]
          exact (or_iff_right fun hx => hin hx.symm).symm
      · have hm : isModifier u = false := by simp [isModifier, hr, hca]
        rw [if_neg (show ¬ isCharAlt (u :: es) = true by simp [isCharAlt, hca]), ite_positive]
        simp [hm, Meets, intervals, and_comm]
termination_by es.length

/-- What the code computes for a range. -/
theorem matchPartialChar_eq {rules : GrammarRules} {pos : ElementPtr}
    (h : ItemSeq (suffix rules pos)) (hr : IsRange (elem rules pos)) (u : PartialUtf8) :
    matchPartialChar rules pos u = .ok true ↔ ¬ NoCompletion u ∧
      match (elem rules pos).type with
      | .char => Meets (rangeAt rules pos) (lowest u) (highest u)
      | .charNot => ¬ Meets (rangeAt rules pos) (lowest u) (highest u)
      | _ => True := by
  have hne : (elem rules pos).type ≠ .end_ := by
    rintro he
    simp [IsRange, he] at hr
  obtain ⟨es, e1, e2⟩ := suffix_eq_cons hne
  rw [e1] at h
  unfold matchPartialChar rangeAt
  rw [e1, e2]
  dsimp only
  have hcond : (isPositiveChar (elem rules pos) ||
      decide ((elem rules pos).type = .charNot)) = true := by
    rcases hr with ht | ht | ht <;> simp [isPositiveChar, ht]
  rw [if_pos hcond]
  by_cases hno : u.nRemain < 0 ∨ u.nRemain = 1 ∧ u.value < 2
  · have hno' : NoCompletion u := hno
    rw [if_pos hno]
    exact iff_of_false (fun e => by cases e) fun hx => hx.1 hno'
  · have hno' : ¬ NoCompletion u := hno
    rw [if_neg hno]
    change Except.ok (matchPartialLoop (lowest u) (highest u) (isPositiveChar (elem rules pos))
      (elem rules pos :: es)) = .ok true ↔ _
    rcases hr with ht | ht | ht
    · have hp : isPositiveChar (elem rules pos) = true := by simp [isPositiveChar, ht]
      have := matchPartialLoop_eq (lowest u) (highest u) true h (.inl ht)
      rw [hp, Except.ok.injEq, this]
      simp [ht, hno']
    · have hp : isPositiveChar (elem rules pos) = false := by simp [isPositiveChar, ht]
      have := matchPartialLoop_eq (lowest u) (highest u) false h (.inr (.inl ht))
      rw [hp, Except.ok.injEq, ← Bool.not_eq_false, this]
      simp [ht, hno']
    · have hp : isPositiveChar (elem rules pos) = true := by simp [isPositiveChar, ht]
      have hloop : matchPartialLoop (lowest u) (highest u) true (elem rules pos :: es) = true := by
        cases es with
        | nil => simp [matchPartialLoop, ht]
        | cons a es =>
          obtain ⟨ha, -⟩ := itemElems_cons (itemElems_cons h).2
          have hne' : a.type ≠ .charRngUpper := by
            intro hra
            simp [hra, ht, mayFollow] at ha
          simp [matchPartialLoop, ht, hne']
      rw [hp, hloop]
      simp [ht, hno']

/-! ## When it is exact -/

/-- A character between `low` and `high`. -/
def Between (low high : Nat) (c : Char) : Prop := low ≤ c.toNat ∧ c.toNat ≤ high

/-- When the test is exact: common points of the range and the interval must be characters, a
negated range must exclude all characters of the interval or none of its points, and what is let
through must have a character at all. -/
def PartialExact (t : List GrammarElement) (u : PartialUtf8) : Prop :=
  NoCompletion u ∨
    match t with
    | [] => True
    | e :: _ =>
      match e.type with
      | .char => Meets t (lowest u) (highest u) →
          ∃ c, Between (lowest u) (highest u) c ∧ InIntervals t c.toNat
      | .charNot =>
        (Meets t (lowest u) (highest u) →
          ∀ c, Between (lowest u) (highest u) c → InIntervals t c.toNat) ∧
        (¬ Meets t (lowest u) (highest u) → ∃ c, Between (lowest u) (highest u) c)
      | _ => ∃ c, Between (lowest u) (highest u) c

theorem Meets.of_mem {t : List GrammarElement} {low high c : Nat} (h : InIntervals t c)
    (hl : low ≤ c) (hh : c ≤ high) : Meets t low high := by
  obtain ⟨i, hi, h1, h2⟩ := h
  exact ⟨i, hi, by omega, by omega⟩

/-- `llama_grammar_match_partial_char` says whether some completion is in the range, exactly if
`PartialExact` holds. -/
theorem matchPartialChar_exact_iff {rules : GrammarRules} {pos : ElementPtr}
    (h : ItemSeq (suffix rules pos)) (hr : IsRange (elem rules pos)) {u : PartialUtf8}
    (hu : DecodeState u) :
    (matchPartialChar rules pos u = .ok true ↔
      ∃ c, Completes u c ∧ standsFor (rangeAt rules pos) c.toNat) ↔
      PartialExact (rangeAt rules pos) u := by
  rw [matchPartialChar_eq h hr]
  have hmem := completes_iff_mem hu.nRemain_le
  by_cases hno : NoCompletion u
  · have hnone : ¬ ∃ c, Completes u c ∧ standsFor (rangeAt rules pos) c.toNat := by
      rintro ⟨c, hc, -⟩
      exact ((hmem c).mp hc).1 hno
    exact iff_of_true (iff_of_false (fun hx => hx.1 hno) hnone) (.inl hno)
  · have hbetween : ∀ c, Completes u c ↔ Between (lowest u) (highest u) c := fun c => by
      rw [hmem]
      exact and_iff_right hno
    have hstands := @Meets.of_mem (rangeAt rules pos) (lowest u) (highest u)
    simp only [hbetween, hno, not_false_eq_true, true_and, PartialExact, false_or]
    unfold rangeAt at hstands ⊢
    generalize (suffix rules (pos.add 1)).takeWhile isModifier = ms at hstands ⊢
    rcases hr with he | he | he
    · simp only [standsFor, he]
      constructor
      · exact fun hx => hx.mp
      · intro hx
        refine ⟨hx, ?_⟩
        rintro ⟨c, hc, hi⟩
        exact hstands hi hc.1 hc.2
    · simp only [standsFor, he]
      by_cases hm : Meets (elem rules pos :: ms) (lowest u) (highest u)
      · simp [hm]
      · simp only [hm, not_false_eq_true, true_iff, false_imp_iff, true_and, forall_const]
        refine exists_congr fun c => and_iff_left_of_imp fun hc hi => hm ?_
        exact hstands hi hc.1 hc.2
    · simp [standsFor, he]

/-- The first byte of `é` was read. -/
theorem decodeState_C3 : DecodeState ⟨3, 1⟩ := .decode (u := {}) .start [0xC3]

/-- The range `[é]`. -/
def rangeE : GrammarRules := [[⟨.char, 0xE9⟩, ⟨.end_, 0⟩]]

theorem matchPartialChar_exact_E : matchPartialChar rangeE ⟨0, 0⟩ ⟨3, 1⟩ = .ok true ↔
      ∃ c, Completes ⟨3, 1⟩ c ∧ standsFor [⟨.char, 0xE9⟩] c.toNat :=
  (@matchPartialChar_exact_iff rangeE ⟨0, 0⟩ (by decide) (by decide) ⟨3, 1⟩
    decodeState_C3).mpr (.inr fun _ =>
      ⟨'é', by unfold Between; decide, (0xE9, 0xE9), by decide, by decide⟩)

/-- The range `[^á]`. -/
def rangeNotA : GrammarRules := [[⟨.charNot, 0xE1⟩, ⟨.end_, 0⟩]]

/-- The first byte of `é` does not match `[^á]`, since it is that of `á` too. -/
theorem matchPartialChar_not_exact :
    ¬ ∀ (rules : GrammarRules) (pos : ElementPtr), ItemSeq (suffix rules pos) →
      IsRange (elem rules pos) → ∀ u, DecodeState u →
      (matchPartialChar rules pos u = .ok true ↔
        ∃ c, Completes u c ∧ standsFor (rangeAt rules pos) c.toNat) := by
  intro h
  have hm := (h rangeNotA ⟨0, 0⟩ (by decide) (by decide) ⟨3, 1⟩ decodeState_C3).mpr
    ⟨'é', completes_iff.mpr (by decide), ?_⟩
  · exact absurd hm (by decide)
  · have hint : intervals (rangeAt rangeNotA ⟨0, 0⟩) = [(0xE1, 0xE1)] := by decide
    show ¬ InIntervals (rangeAt rangeNotA ⟨0, 0⟩) 0xE9
    unfold InIntervals
    rw [hint]
    decide

end BeeLlama.Grammar
