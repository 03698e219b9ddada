import BeeLlama.Grammar.LeftRec

/-!
# Character ranges

The meaning of a character range (`accepts`): `LLAMA_GRETYPE_CHAR` with its modifiers stands for
the characters of its intervals, `LLAMA_GRETYPE_CHAR_NOT` for the others, `LLAMA_GRETYPE_CHAR_ANY`
for all. `ItemRule` are the rules where a modifier stands behind what it modifies, `CharRule` those
of them without tokens.

`ItemSeq.matchChar` is the specification of `llama_grammar_match_char` on these rules.
-/

namespace BeeLlama.Grammar

open Cfg List

/-- A Unicode code point. -/
def IsCodePoint (c : Nat) : Prop := c ≤ 0x10FFFF

instance (c : Nat) : Decidable (IsCodePoint c) := inferInstanceAs (Decidable (c ≤ 0x10FFFF))

/-- The intervals of a range. -/
def intervals : List GrammarElement → List (Nat × Nat)
  | [] => []
  | [e] => [(e.value, e.value)]
  | e :: u :: es =>
    if u.type = .charRngUpper then (e.value, u.value) :: intervals es
    else (e.value, e.value) :: intervals (u :: es)

/-- The character is in an interval of the range. -/
def InIntervals (t : List GrammarElement) (c : Nat) : Prop :=
  ∃ i ∈ intervals t, i.1 ≤ c ∧ c ≤ i.2

/-- The characters that a range stands for. -/
def standsFor (t : List GrammarElement) (c : Nat) : Prop :=
  match t with
  | [] => False
  | e :: _ =>
    match e.type with
    | .char => InIntervals t c
    | .charNot => ¬ InIntervals t c
    | .charAny => True
    | _ => False

/-- The code points that a range stands for. -/
def accepts (t : List GrammarElement) (c : Nat) : Prop := IsCodePoint c ∧ standsFor t c

/-- An element of this type may stand behind one of type `prev`: a modifier behind what it
modifies. -/
def mayFollow (prev : GreType) : GreType → Bool
  | .charRngUpper => decide (prev = .char ∨ prev = .charNot ∨ prev = .charAlt)
  | .charAlt => decide (prev = .char ∨ prev = .charNot ∨ prev = .charAlt ∨ prev = .charRngUpper)
  | _ => true

/-- The elements may follow each other, behind an element of type `prev`. -/
def itemElems : GreType → List GrammarElement → Bool
  | _, [] => true
  | prev, e :: es => mayFollow prev e.type && itemElems e.type es

/-- The elements from the beginning of an item on. -/
abbrev ItemSeq (es : List GrammarElement) : Prop := itemElems .alt es = true

/-- A rule of character ranges, tokens and rule references. -/
def ItemRule (rule : List GrammarElement) : Prop := ItemSeq rule

instance (rule : List GrammarElement) : Decidable (ItemRule rule) :=
  inferInstanceAs (Decidable (itemElems .alt rule = true))

/-- A token element. -/
def IsToken (e : GrammarElement) : Prop := e.type = .token ∨ e.type = .tokenNot

instance (e : GrammarElement) : Decidable (IsToken e) :=
  inferInstanceAs (Decidable (e.type = .token ∨ e.type = .tokenNot))

/-- A rule of character ranges and rule references. -/
structure CharRule (rule : List GrammarElement) : Prop where
  items : ItemRule rule
  no_token : ∀ e ∈ rule, ¬ IsToken e

instance (rule : List GrammarElement) : Decidable (CharRule rule) :=
  decidable_of_iff (ItemRule rule ∧ ∀ e ∈ rule, ¬ IsToken e)
    ⟨fun h => ⟨h.1, h.2⟩, fun h => ⟨h.items, h.no_token⟩⟩

variable {e : GrammarElement} {es : List GrammarElement} {u : GrammarElement} {rules : GrammarRules}

theorem itemElems_cons {prev : GreType} (h : itemElems prev (e :: es) = true) :
    mayFollow prev e.type = true ∧ itemElems e.type es = true := by
  simpa [itemElems] using h

/-- Behind an element that no modifier follows there is the beginning of an item. -/
theorem itemSeq_of_itemElems {prev : GreType}
    (h : itemElems prev es = true) (hp : ¬ (prev = .char ∨ prev = .charNot ∨ prev = .charAlt ∨
      prev = .charRngUpper)) : ItemSeq es := by
  cases es with
  | nil => rfl
  | cons e es =>
    obtain ⟨hf, h'⟩ := itemElems_cons h
    rw [ItemSeq, itemElems, h', Bool.and_true]
    cases ht : e.type <;> simp_all [mayFollow]

/-- Behind the modifiers there is the beginning of an item. -/
theorem itemElems_dropWhile {prev : GreType}
    (h : itemElems prev es = true) : ItemSeq (es.dropWhile isModifier) := by
  induction es generalizing prev with
  | nil => rfl
  | cons e es ih =>
    obtain ⟨hf, h'⟩ := itemElems_cons h
    by_cases hm : isModifier e = true
    · rw [dropWhile_cons_of_pos hm]
      exact ih h'
    · rw [dropWhile_cons_of_neg hm, ItemSeq, itemElems, h', Bool.and_true]
      cases ht : e.type <;> simp_all [isModifier, mayFollow]

/-- What does not begin with a modifier has no modifiers at its beginning. -/
theorem takeWhile_isModifier_of_not (h : isModifier e = false)
    (es : List GrammarElement) : (e :: es).takeWhile isModifier = [] := by
  simp [h]

/-- The modifiers behind an item are skipped. -/
theorem symsFrom_true (es : List GrammarElement) :
    symsFrom true es = symsFrom false (es.dropWhile isModifier) := by
  induction es with
  | nil => rfl
  | cons e es ih =>
    by_cases hm : isModifier e = true
    · rw [dropWhile_cons_of_pos hm, ← ih]
      cases ht : e.type <;> simp_all [isModifier, symsFrom]
    · rw [dropWhile_cons_of_neg hm]
      cases ht : e.type <;> simp_all [isModifier, symsFrom]

theorem drop_length_takeWhile (es : List GrammarElement) :
    es.drop (es.takeWhile isModifier).length = es.dropWhile isModifier := by
  induction es with
  | nil => rfl
  | cons e es ih =>
    by_cases hm : isModifier e = true
    · simp [hm, ih]
    · simp [hm]

/-! ## `llama_grammar_match_char` -/

theorem matchCharLoop_interval (hu : u.type = .charRngUpper) (c : Nat)
    (e : GrammarElement) (es : List GrammarElement) :
    matchCharLoop c (e :: u :: es) =
      (decide (e.value ≤ c ∧ c ≤ u.value) ||
        (if isCharAlt es then matchCharLoop c es else (false, 0)).1,
        (if isCharAlt es then matchCharLoop c es else (false, 0)).2 + 2) := by
  rw [matchCharLoop, if_pos hu]

theorem matchCharLoop_single (hu : u.type ≠ .charRngUpper) (c : Nat)
    (e : GrammarElement) (es : List GrammarElement) :
    matchCharLoop c (e :: u :: es) =
      ((decide (e.type = .charAny) || decide (e.value = c)) ||
        (if isCharAlt (u :: es) then matchCharLoop c (u :: es) else (false, 0)).1,
        (if isCharAlt (u :: es) then matchCharLoop c (u :: es) else (false, 0)).2 + 1) := by
  rw [matchCharLoop, if_neg hu]

/-- The loop goes over the intervals, up to the element behind the modifiers. -/
theorem matchCharLoop_eq {c : Nat} {prev : GreType} {e : GrammarElement}
    {es : List GrammarElement} (h : itemElems prev (e :: es) = true)
    (ht : e.type = .char ∨ e.type = .charNot ∨ e.type = .charAlt) :
    (matchCharLoop c (e :: es)).2 = (es.takeWhile isModifier).length + 1 ∧
      ((matchCharLoop c (e :: es)).1 = true ↔ InIntervals (e :: es.takeWhile isModifier) c) := by
  have hany : e.type ≠ .charAny := by
    rintro he
    simp [he] at ht
  have hone : ∀ v w : Nat, (v = w) ↔ (v ≤ w ∧ w ≤ v) := fun v w => by omega
  match es, h with
  | [], _ => simp [matchCharLoop, hany, InIntervals, intervals, hone]
  | u :: es, h =>
    obtain ⟨-, h1⟩ := itemElems_cons h
    obtain ⟨hu, h2⟩ := itemElems_cons h1
    by_cases hr : u.type = .charRngUpper
    · -- an interval, then the next one or the end
      have hm : isModifier u = true := by simp [isModifier, hr]
      rw [matchCharLoop_interval hr, takeWhile_cons_of_pos hm]
      cases es with
      | nil => simp [isCharAlt, InIntervals, intervals, hr]
      | cons a es =>
        obtain ⟨ha, -⟩ := itemElems_cons h2
        by_cases hca : a.type = .charAlt
        · obtain ⟨e1, e2⟩ := matchCharLoop_eq (c := c) h2 (.inr (.inr hca))
          have hma : isModifier a = true := by simp [isModifier, hca]
          rw [if_pos (by simp [isCharAlt, hca]), e1, takeWhile_cons_of_pos hma]
          refine ⟨by simp only [length_cons], ?_⟩
          rw [Bool.or_eq_true, e2, decide_eq_true_eq]
          simp [InIntervals, intervals, hr]
        · have hma : isModifier a = false := by
            have : a.type ≠ .charRngUpper := by
              intro hra
              simp [hra, hr, mayFollow] at ha
            simp [isModifier, this, hca]
          simp [hma, isCharAlt, hca, InIntervals, intervals, hr]
    · rw [matchCharLoop_single hr]
      by_cases hca : u.type = .charAlt
      · -- a single character, then the next interval
        obtain ⟨e1, e2⟩ := matchCharLoop_eq (c := c) h1 (.inr (.inr hca))
        have hm : isModifier u = true := by simp [isModifier, hca]
        rw [if_pos (by simp [isCharAlt, hca]), e1, takeWhile_cons_of_pos hm]
        refine ⟨by simp only [length_cons], ?_⟩
        rw [Bool.or_eq_true, e2, Bool.or_eq_true, decide_eq_true_eq, decide_eq_true_eq]
        simp [InIntervals, intervals, hr, hany, hone]
      · have hm : isModifier u = false := by simp [isModifier, hr, hca]
        simp [hm, isCharAlt, hca, hany, InIntervals, intervals, hone]
termination_by es.length

/-- An item that is a character range. -/
def IsRange (e : GrammarElement) : Prop :=
  e.type = .char ∨ e.type = .charNot ∨ e.type = .charAny

instance (e : GrammarElement) : Decidable (IsRange e) :=
  inferInstanceAs (Decidable (e.type = .char ∨ e.type = .charNot ∨ e.type = .charAny))

/-- The range at a pointer, with its modifiers. -/
def rangeAt (rules : GrammarRules) (pos : ElementPtr) : List GrammarElement :=
  elem rules pos :: (suffix rules (pos.add 1)).takeWhile isModifier

/-- `llama_grammar_match_char` on a range: the character is matched if the range stands for it, and
the pointer goes to the next item. -/
theorem ItemSeq.matchChar {pos : ElementPtr}
    (h : ItemSeq (suffix rules pos)) (hr : IsRange (elem rules pos)) (c : Nat) :
    ∃ found after, matchChar rules pos c = .ok (found, after) ∧
      symsFrom false (suffix rules pos) =
        .term (rangeAt rules pos) :: symsFrom false (suffix rules after) ∧
      ItemSeq (suffix rules after) ∧ (found = true ↔ standsFor (rangeAt rules pos) c) := by
  have hne : (elem rules pos).type ≠ .end_ := by
    rintro he
    simp [IsRange, he] at hr
  obtain ⟨es, e1, e2⟩ := suffix_eq_cons hne
  rw [e1] at h
  obtain ⟨-, h1⟩ := itemElems_cons h
  rw [rangeAt, e2]
  set e := elem rules pos with he
  have hdrop : ∀ n, suffix rules (pos.add (n + 1)) = es.drop n := fun n => by
    rw [suffix_add, e1, drop_succ_cons]
  rcases hr with ht | ht | ht
  · obtain ⟨ek, ef⟩ := matchCharLoop_eq (c := c) h (.inl ht)
    refine ⟨(matchCharLoop c (e :: es)).1,
      pos.add ((es.takeWhile isModifier).length + 1), ?_, ?_, ?_, ?_⟩
    · simp [Grammar.matchChar, ← he, e1, isPositiveChar, ht, ek]
    · rw [e1, hdrop, drop_length_takeWhile, ← symsFrom_true]
      simp [symsFrom, ht]
    · rw [hdrop, drop_length_takeWhile]
      exact itemElems_dropWhile h1
    · rw [ef]
      simp [standsFor, ht]
  · obtain ⟨ek, ef⟩ := matchCharLoop_eq (c := c) h (.inr (.inl ht))
    refine ⟨!(matchCharLoop c (e :: es)).1,
      pos.add ((es.takeWhile isModifier).length + 1), ?_, ?_, ?_, ?_⟩
    · simp [Grammar.matchChar, ← he, e1, isPositiveChar, ht, ek]
    · rw [e1, hdrop, drop_length_takeWhile, ← symsFrom_true]
      simp [symsFrom, ht]
    · rw [hdrop, drop_length_takeWhile]
      exact itemElems_dropWhile h1
    · simp [standsFor, ht, ← ef]
  · have hnil : es.takeWhile isModifier = [] := by
      cases es with
      | nil => rfl
      | cons u es =>
        obtain ⟨hu, -⟩ := itemElems_cons h1
        refine takeWhile_isModifier_of_not ?_ es
        cases htu : u.type <;> simp_all [isModifier, mayFollow]
    have hloop : matchCharLoop c (e :: es) = (true, 1) := by
      cases es with
      | nil => simp [matchCharLoop, ht]
      | cons u es =>
        obtain ⟨hu, -⟩ := itemElems_cons h1
        have hu1 : u.type ≠ .charRngUpper := by
          rintro h
          simp [h, ht, mayFollow] at hu
        have hu2 : u.type ≠ .charAlt := by
          rintro h
          simp [h, ht, mayFollow] at hu
        simp [matchCharLoop, hu1, hu2, isCharAlt, ht]
    have hdw : es.dropWhile isModifier = es := by
      rw [← drop_length_takeWhile, hnil]
      rfl
    refine ⟨true, pos.add (0 + 1), ?_, ?_, ?_, ?_⟩
    · simp [Grammar.matchChar, ← he, e1, isPositiveChar, ht, hloop]
    · rw [e1, hdrop, drop_zero]
      simp [symsFrom, ht, hnil, symsFrom_true, hdw]
    · rw [hdrop, drop_zero, ← hdw]
      exact itemElems_dropWhile h1
    · simp [standsFor, ht]

/-- How far the loop goes does not depend on the character. -/
theorem matchCharLoop_snd (c c' : Nat) (es : List GrammarElement) :
    (matchCharLoop c es).2 = (matchCharLoop c' es).2 := by
  fun_induction matchCharLoop c es with
  | case1 => rfl
  | case2 => rfl
  | case3 e u es hu r ih =>
    rw [matchCharLoop_interval hu]
    simp only [r]
    split
    · rw [ih]
    · rfl
  | case4 e u es hu r ih =>
    rw [matchCharLoop_single hu]
    simp only [r]
    split
    · rw [ih]
    · rfl

theorem matchChar_after {pos after after' : ElementPtr} {c c' : Nat}
    {found found' : Bool} (h : matchChar rules pos c = .ok (found, after))
    (h' : matchChar rules pos c' = .ok (found', after')) : after = after' := by
  dsimp only [matchChar] at h h'
  split at h
  · next hc =>
    rw [if_pos hc] at h'
    cases h
    cases h'
    rw [matchCharLoop_snd c c']
  · cases h

end BeeLlama.Grammar
