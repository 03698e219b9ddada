import BeeLlama.Peg.DelimiterLanguage

/-!
# What the parser of GBNF consumes

* `parseChar_length`, `parseName_spec`, `parseInt_length`, `parseToken_length`: a lexical element
  has at least one byte.
* `literalLoop_spec`, `rangeLoop_spec`: the elements of a literal and of a class are a block.
* `literalLoop_ends`, `rangeLoop_ends`: their loops end.
-/

namespace BeeLlama.Gbnf

open Peg List

/-! ## Blocks -/

/-- Elements that begin with no modifier of a range, and do not end an alternative. -/
structure Block (es : List GrammarElement) : Prop where
  inner : Inner es
  head : ∀ e ∈ es.head?, Grammar.isModifier e = false

variable {a b : List GrammarElement} {e : GrammarElement} {fuel : Nat}
    {elems elems' : List GrammarElement}

theorem inner_append (ha : Inner a) (hb : Inner b) : Inner (a ++ b) :=
  fun e he => (mem_append.mp he).elim (ha e) (hb e)

theorem inner_singleton (h : Grammar.isEndOfSequence e = false) : Inner [e] :=
  fun x hx => by rwa [mem_singleton.mp hx]

theorem block_nil : Block [] :=
  ⟨fun _ h => absurd h not_mem_nil, fun _ h => by simp at h⟩

theorem block_singleton (h : Grammar.isEndOfSequence e = false)
    (hm : Grammar.isModifier e = false) : Block [e] :=
  ⟨inner_singleton h, fun x hx => by rwa [← Option.some.inj (Option.mem_def.mp hx)]⟩

theorem block_ref (id : Nat) : Block [⟨.ruleRef, id⟩] := block_singleton rfl rfl

theorem Block.append_inner (ha : Block a) (hne : a ≠ []) (hb : Inner b) : Block (a ++ b) := by
  refine ⟨inner_append ha.inner hb, fun e he => ?_⟩
  cases a with
  | nil => exact absurd rfl hne
  | cons x a => exact ha.head e he

theorem Block.append (ha : Block a) (hb : Block b) : Block (a ++ b) := by
  by_cases hne : a = []
  · subst hne
    exact hb
  · exact ha.append_inner hne hb.inner

theorem block_replicate {a : List GrammarElement} (ha : Block a) (n : Nat) :
    Block (List.replicate n a).flatten := by
  induction n with
  | zero => exact block_nil
  | succ n ih =>
    rw [replicate_succ, flatten_cons]
    exact ha.append ih

/-! ## Lexical elements -/

variable {pos : List UInt8}

theorem cons_of_cur {c : UInt8} (h : cur pos = c) (hc : c ≠ 0) : ∃ rest, pos = c :: rest := by
  cases pos with
  | nil => exact absurd h.symm hc
  | cons b rest =>
    obtain rfl : b = c := h
    exact ⟨rest, rfl⟩

theorem length_tail_lt {c : UInt8} (h : cur pos = c) (hc : c ≠ 0) :
    pos.tail.length < pos.length := by
  obtain ⟨rest, rfl⟩ := cons_of_cur h hc
  simp

theorem parseSpaceLoop_length (newlineOk comment : Bool) (pos : List UInt8) :
    (parseSpaceLoop newlineOk comment pos).length ≤ pos.length := by
  induction pos generalizing comment with
  | nil => simp [parseSpaceLoop]
  | cons c pos ih =>
    have hcons : pos.length ≤ (c :: pos).length := by simp
    unfold parseSpaceLoop
    split
    · exact (ih true).trans hcons
    · split
      · exact (ih false).trans hcons
      · split
        · exact (ih true).trans hcons
        · split
          · exact (ih false).trans hcons
          · exact le_rfl

theorem parseSpace_length (pos : List UInt8) (newlineOk : Bool) :
    (parseSpace pos newlineOk).length ≤ pos.length := parseSpaceLoop_length _ _ _

theorem decodeUtf8Loop_length (n value : Nat) (pos : List UInt8) :
    (decodeUtf8Loop n value pos).2.length ≤ pos.length := by
  induction n generalizing value pos with
  | zero => exact le_rfl
  | succ n ih =>
    cases pos with
    | nil => exact le_rfl
    | cons b pos =>
      unfold decodeUtf8Loop
      split
      · exact le_rfl
      · exact (ih _ _).trans (by simp)

variable {pos pos' : List UInt8}

theorem parseHexLoop_length {size n value : Nat} {v : Nat}
    (e : parseHexLoop size n value pos = .ok (v, pos')) : pos'.length ≤ pos.length := by
  induction n generalizing value pos with
  | zero =>
    cases e
    exact le_rfl
  | succ n ih =>
    cases pos with
    | nil => cases e
    | cons c pos =>
      unfold parseHexLoop at e
      split at e
      · cases e
      · exact (ih e).trans (by simp)

/-- `parse_char` takes at least one byte. -/
theorem parseChar_length {c : Nat} (e : parseChar pos = .ok (c, pos')) :
    pos'.length < pos.length := by
  cases pos with
  | nil => cases e
  | cons b pos =>
    have hdrop : ((b :: pos).drop 2).length < (b :: pos).length := by
      simp only [length_drop, length_cons]
      omega
    unfold parseChar at e
    dsimp only at e
    split at e
    · split at e
      · exact (parseHexLoop_length e).trans_lt hdrop
      split at e
      · exact (parseHexLoop_length e).trans_lt hdrop
      split at e
      · exact (parseHexLoop_length e).trans_lt hdrop
      repeat'
        split at e
        · cases e
          exact hdrop
      cases e
    · split at e
      · have := congrArg Prod.snd (Except.ok.inj e)
        dsimp only at this
        rw [← this]
        exact (decodeUtf8Loop_length _ _ _).trans_lt (by simp)
      · cases e

theorem length_dropWhile_le (f : UInt8 → Bool) (pos : List UInt8) :
    (pos.dropWhile f).length ≤ pos.length := (dropWhile_sublist f).length_le

theorem length_dropWhile_lt {f : UInt8 → Bool} (h : pos.takeWhile f ≠ []) :
    (pos.dropWhile f).length < pos.length := by
  have := congrArg List.length (takeWhile_append_dropWhile (p := f) (l := pos))
  rw [length_append] at this
  have := length_pos_iff.mpr h
  omega

/-- `parse_name` takes the characters of a name. -/
theorem parseName_spec {pos name pos' : List UInt8} (e : parseName pos = .ok (name, pos')) :
    pos'.length < pos.length ∧ ∀ c ∈ name, isWordChar c = true := by
  unfold parseName at e
  dsimp only at e
  split at e
  · cases e
  · next hne =>
    cases e
    exact ⟨length_dropWhile_lt hne, fun c hc => mem_takeWhile_imp hc⟩

theorem parseInt_length {n : Nat} (e : parseInt pos = .ok (n, pos')) :
    pos'.length < pos.length := by
  unfold parseInt at e
  dsimp only at e
  split at e
  · cases e
  · next hne =>
    split at e
    · cases e
    · cases e
      exact length_dropWhile_lt hne

theorem parseToken_length {vocab : Tokenize} {t : Nat}
    (e : parseToken vocab pos = .ok (t, pos')) : pos'.length < pos.length := by
  unfold parseToken at e
  dsimp only at e
  split at e
  · cases e
  next h60 =>
  have htail := length_tail_lt (not_not.mp h60) (by decide)
  split at e
  · split at e
    · cases e
    next id pos1 e1 =>
    have h1 := parseInt_length e1
    split at e
    · cases e
    split at e
    · cases e
    cases e
    simp only [length_drop, length_tail] at h1 htail ⊢
    omega
  · split at e
    · cases e
    split at e
    · cases e
    next h62 =>
    split at e
    · cases e
      have := length_tail_lt (not_not.mp h62) (by decide)
      have := length_dropWhile_le (fun c => c ≠ 62) pos.tail
      omega
    · cases e

/-- What stands between braces has at least one byte. -/
theorem parseBraces_length {isNested : Bool} {minTimes : Nat}
    {maxTimes : Option Nat} (e : parseBraces pos isNested = .ok (minTimes, maxTimes, pos')) :
    pos'.length < pos.length := by
  have space : ∀ pos : List UInt8, (parseSpace pos isNested).length ≤ pos.length :=
    fun pos => parseSpace_length pos isNested
  unfold parseBraces at e
  dsimp only at e
  split at e
  · cases e
  split at e
  · cases e
  next m pos1 e1 =>
  have h1 := parseInt_length e1
  have h2 := space pos1
  split at e
  · cases e
    have := space (parseSpace pos1 isNested).tail
    have := length_tail (l := parseSpace pos1 isNested)
    omega
  split at e
  · have h3 := space (parseSpace pos1 isNested).tail
    have h4 := length_tail (l := parseSpace pos1 isNested)
    split at e
    · cases e
    next n pos2 e2 =>
    -- the maximum, if there is one
    have h5 : pos2.length ≤ (parseSpace (parseSpace pos1 isNested).tail isNested).length := by
      split at e2
      · split at e2
        · cases e2
        next k pos3 e3 =>
        cases e2
        exact (space pos3).trans (parseInt_length e3).le
      · cases e2
        exact le_rfl
    split at e
    · cases e
    cases e
    have := space pos2.tail
    have := length_tail (l := pos2)
    omega
  · cases e

/-! ## Literals and classes -/

theorem literalLoop_spec (h : Block elems) (e : literalLoop fuel pos elems = .ok (elems', pos')) :
    Block elems' ∧ pos'.length ≤ pos.length ∧ cur pos' = 34 := by
  induction fuel generalizing pos elems with
  | zero => cases e
  | succ fuel ih =>
    unfold literalLoop at e
    split at e
    · next hq =>
      cases e
      exact ⟨h, le_rfl, hq⟩
    split at e
    · cases e
    split at e
    · cases e
    next c pos1 e1 =>
    obtain ⟨h1, h2, h3⟩ := ih (h.append (block_singleton rfl rfl)) e
    have := parseChar_length e1
    exact ⟨h1, by omega, h3⟩

theorem rangeLoop_spec {startType : GreType} (ht : startType = .char ∨ startType = .charNot)
    (h : Block elems) (e : rangeLoop startType fuel pos elems = .ok (elems', pos')) :
    Block elems' ∧ pos'.length ≤ pos.length ∧ cur pos' = 93 := by
  induction fuel generalizing pos elems with
  | zero => cases e
  | succ fuel ih =>
    unfold rangeLoop at e
    split at e
    · next hq =>
      cases e
      exact ⟨h, le_rfl, hq⟩
    split at e
    · cases e
    split at e
    · cases e
    next c pos1 e1 =>
    have h1 := parseChar_length e1
    -- the first element is no modifier
    have hnext : Block (elems ++ [⟨if elems = [] then startType else .charAlt, c⟩]) := by
      by_cases hne : elems = []
      · subst hne
        rw [if_pos rfl, nil_append]
        rcases ht with rfl | rfl <;> exact block_singleton rfl rfl
      · rw [if_neg hne]
        exact h.append_inner hne (inner_singleton rfl)
    dsimp only at e
    split at e
    · split at e
      · cases e
      split at e
      · cases e
      next c2 pos2 e2 =>
      have h2 := parseChar_length e2
      have htail := length_tail (l := pos1)
      obtain ⟨k1, k2, k3⟩ := ih (hnext.append_inner (by simp) (inner_singleton rfl)) e
      exact ⟨k1, by omega, k3⟩
    · obtain ⟨k1, k2, k3⟩ := ih hnext e
      exact ⟨k1, by omega, k3⟩

/-! ## The loops end -/

theorem parseHexLoop_ends (size n value : Nat) (pos : List UInt8) :
    parseHexLoop size n value pos ≠ .error .fuel := by
  induction n generalizing value pos with
  | zero => exact fun h => by cases h
  | succ n ih =>
    cases pos with
    | nil => exact fun h => by cases h
    | cons c pos =>
      unfold parseHexLoop
      split
      · exact fun h => by cases h
      · exact ih _ _

theorem parseChar_ends (pos : List UInt8) : parseChar pos ≠ .error .fuel := by
  unfold parseChar parseHex
  dsimp only
  split_ifs <;> first | exact parseHexLoop_ends _ _ _ _ | exact fun h => by cases h

theorem parseName_ends (pos : List UInt8) : parseName pos ≠ .error .fuel := by
  unfold parseName
  dsimp only
  split_ifs <;> exact fun h => by cases h

theorem parseInt_ends (pos : List UInt8) : parseInt pos ≠ .error .fuel := by
  unfold parseInt
  dsimp only
  split_ifs <;> exact fun h => by cases h

theorem parseToken_ends (vocab : Tokenize) (pos : List UInt8) :
    parseToken vocab pos ≠ .error .fuel := by
  intro e
  unfold parseToken at e
  dsimp only at e
  split at e
  · cases e
  split at e
  · split at e
    · next h =>
      cases e
      exact parseInt_ends _ h
    split at e
    · cases e
    split at e <;> cases e
  · split at e
    · cases e
    split at e
    · cases e
    split at e <;> cases e

theorem parseBraces_ends (pos : List UInt8) (isNested : Bool) :
    parseBraces pos isNested ≠ .error .fuel := by
  intro e
  unfold parseBraces at e
  dsimp only at e
  split at e
  · cases e
  split at e
  · next h =>
    cases e
    exact parseInt_ends _ h
  split at e
  · cases e
  split at e
  · split at e
    · next h =>
      cases e
      split at h
      · split at h
        · next h =>
          cases h
          exact parseInt_ends _ (by assumption)
        · cases h
      · cases h
    · split at e <;> cases e
  · cases e

theorem literalLoop_ends (hf : pos.length < fuel)
    (elems : List GrammarElement) : literalLoop fuel pos elems ≠ .error .fuel := by
  induction fuel generalizing pos elems with
  | zero => omega
  | succ fuel ih =>
    intro e
    unfold literalLoop at e
    split at e
    · cases e
    split at e
    · cases e
    split at e
    · next h =>
      cases e
      exact parseChar_ends _ h
    next h =>
    exact ih (by have := parseChar_length h; omega) _ e

theorem rangeLoop_ends (startType : GreType)
    (hf : pos.length < fuel) (elems : List GrammarElement) :
    rangeLoop startType fuel pos elems ≠ .error .fuel := by
  induction fuel generalizing pos elems with
  | zero => omega
  | succ fuel ih =>
    intro e
    unfold rangeLoop at e
    split at e
    · cases e
    split at e
    · cases e
    split at e
    · next h =>
      cases e
      exact parseChar_ends _ h
    next c pos1 h1 =>
    have hlen := parseChar_length h1
    dsimp only at e
    split at e
    · split at e
      · cases e
      split at e
      · next h =>
        cases e
        exact parseChar_ends _ h
      next h2 =>
      have := parseChar_length h2
      have := length_tail (l := pos1)
      exact ih (by omega) _ e
    · exact ih (by omega) _ e

end BeeLlama.Gbnf
