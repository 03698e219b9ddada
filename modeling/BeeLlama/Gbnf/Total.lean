import BeeLlama.Gbnf.Frame

/-!
# The parser of GBNF ends

Every round of a loop of the parser takes a byte of the text, and a group is parsed from a shorter
position. So no loop runs out of the fuel it is given (`parse_ends`).
-/

namespace BeeLlama.Gbnf

/-- What is parsed in parentheses takes no byte back. -/
def GroupLength
    (group : GbnfParser → List UInt8 → Nat → Except GbnfError (GbnfParser × List UInt8)) : Prop :=
  ∀ p src id p' pos, group p src id = .ok (p', pos) → pos.length ≤ src.length

/-- What is parsed in parentheses from fewer than `n` bytes ends. -/
def GroupEnds
    (group : GbnfParser → List UInt8 → Nat → Except GbnfError (GbnfParser × List UInt8)) (n : Nat) :
    Prop :=
  ∀ p src id, src.length < n → group p src id ≠ .error .fuel

section Sequence

variable {vocab : Tokenize} {ruleName : List UInt8} {isNested : Bool}
  {group : GbnfParser → List UInt8 → Nat → Except GbnfError (GbnfParser × List UInt8)}
  {p p' : GbnfParser} {pos pos' : List UInt8} {st st' : SeqState}

/-! ## Positions -/

/-- A round of `parse_sequence` takes a byte. -/
theorem ItemStep.length (hg : GroupLength group)
    (hs : ItemStep ruleName isNested group p pos st p' pos' st') : pos'.length < pos.length := by
  cases hs with
  | push hop h40 hb hlen => exact hlen
  | ref hop h40 hn hlen => exact hlen
  | @group p' pos1 n hop h40 hgr h41 =>
    have h1 := parseSpace_length pos1.tail isNested
    have h2 := length_tail_lt h41 (by decide)
    have h3 := hg _ _ _ _ _ hgr
    have h4 := parseSpace_length pos.tail true
    have h5 := length_tail_lt h40 (by decide)
    omega
  | operator hop h40 hrep hlen => exact hlen

variable {fuel : Nat}

theorem sequenceLoop_length (hg : GroupLength group) {rule : GrammarRule}
    (e : sequenceLoop vocab ruleName isNested group fuel p pos st = .ok (p', pos', rule)) :
    pos'.length ≤ pos.length := by
  induction fuel generalizing p pos st with
  | zero => cases e
  | succ fuel ih =>
    unfold sequenceLoop at e
    split at e
    · cases e
    · cases e
      exact le_rfl
    · next h => exact (ih e).trans ((parseItem_step h).length hg).le

theorem alternatesLoop_length (hg : GroupLength group) {rule rule' : GrammarRule}
    (e : alternatesLoop vocab ruleName isNested group fuel p pos rule = .ok (p', pos', rule')) :
    pos'.length ≤ pos.length := by
  induction fuel generalizing p pos rule with
  | zero => cases e
  | succ fuel ih =>
    unfold alternatesLoop at e
    split at e
    · split at e
      · cases e
      next h =>
      have h1 := sequenceLoop_length hg h
      have h2 := parseSpace_length pos.tail true
      have h3 := List.length_tail (l := pos)
      have := ih e
      omega
    · cases e
      exact le_rfl

theorem parseAlternates_length {depth : Nat} {ruleId : Nat}
    (e : parseAlternates vocab ruleName depth isNested p pos ruleId = .ok (p', pos')) :
    pos'.length ≤ pos.length := by
  induction depth generalizing isNested p pos ruleId p' pos' with
  | zero => cases e
  | succ depth ih =>
    have hg : GroupLength (parseAlternates vocab ruleName depth true) :=
      fun p src id p' pos e => ih e
    unfold parseAlternates at e
    dsimp only at e
    split at e
    · cases e
    next h1 =>
    split at e
    · cases e
    next h2 =>
    cases e
    exact (alternatesLoop_length hg h2).trans (sequenceLoop_length hg h1)

/-! ## Loops -/

theorem handleRepetitions_ends (minTimes : Nat) (maxTimes : Option Nat) :
    handleRepetitions ruleName p st minTimes maxTimes ≠ .error .fuel := by
  rw [handleRepetitions_eq]
  split
  · exact fun h => by cases h
  · split <;> exact fun h => by cases h

theorem parseItem_ends (hg : GroupEnds group pos.length) :
    parseItem vocab ruleName isNested group p pos st ≠ .error .fuel := by
  intro e
  unfold parseItem at e
  dsimp only at e
  split at e
  · next h =>
    split at e
    · next h1 =>
      cases e
      exact literalLoop_ends (length_tail_lt h (by decide)) _ h1
    · cases e
  split at e
  · next h =>
    split at e
    · next h1 =>
      cases e
      refine rangeLoop_ends _ ?_ _ h1
      have := length_tail_lt h (by decide)
      split <;> grind
    · cases e
  split at e
  · split at e
    · next h1 =>
      cases e
      exact parseToken_ends _ _ h1
    · cases e
  split at e
  · split at e
    · next h1 =>
      cases e
      exact parseName_ends _ h1
    · cases e
  split at e
  · next h =>
    split at e
    · next h1 =>
      cases e
      exact hg _ _ _ ((parseSpace_length _ _).trans_lt (length_tail_lt h (by decide))) h1
    · split at e <;> cases e
  split at e
  · cases e
  iterate 3
    split at e
    · split at e
      · next h =>
        cases e
        exact handleRepetitions_ends _ _ h
      · cases e
  split at e
  · split at e
    · next h1 =>
      cases e
      exact parseBraces_ends _ _ h1
    unfold checkRepetitions at e
    split at e
    · next h1 =>
      cases e
      split at h1 <;> cases h1
    · split at e
      · next h =>
        cases e
        exact handleRepetitions_ends _ _ h
      · cases e
  · cases e

theorem sequenceLoop_ends (hl : GroupLength group) (hf : pos.length < fuel)
    (hg : GroupEnds group pos.length) :
    sequenceLoop vocab ruleName isNested group fuel p pos st ≠ .error .fuel := by
  induction fuel generalizing p pos st with
  | zero => omega
  | succ fuel ih =>
    intro e
    unfold sequenceLoop at e
    split at e
    · next h =>
      cases e
      exact parseItem_ends hg h
    · cases e
    · next h =>
      have hlen := (parseItem_step h).length hl
      exact ih (by omega) (fun p src id hs => hg p src id (hs.trans hlen)) e

theorem alternatesLoop_ends (hl : GroupLength group) (hf : pos.length < fuel)
    (hg : GroupEnds group pos.length) (rule : GrammarRule) :
    alternatesLoop vocab ruleName isNested group fuel p pos rule ≠ .error .fuel := by
  induction fuel generalizing p pos rule with
  | zero => omega
  | succ fuel ih =>
    intro e
    unfold alternatesLoop at e
    split at e
    · next h =>
      have h1 := length_tail_lt h (by decide)
      have h2 := parseSpace_length pos.tail true
      split at e
      · next h3 =>
        cases e
        exact sequenceLoop_ends hl (Nat.lt_succ_self _)
          (fun p src id hs => hg p src id (by omega)) h3
      · next h3 =>
        have h4 := sequenceLoop_length hl h3
        exact ih (by omega) (fun p src id hs => hg p src id (by omega)) _ e
    · cases e

theorem parseAlternates_ends {depth : Nat} (hd : pos.length < depth) (ruleId : Nat) :
    parseAlternates vocab ruleName depth isNested p pos ruleId ≠ .error .fuel := by
  induction depth generalizing isNested p pos ruleId with
  | zero => omega
  | succ depth ih =>
    have hl : GroupLength (parseAlternates vocab ruleName depth true) :=
      fun p src id p' pos e => parseAlternates_length e
    have hg : GroupEnds (parseAlternates vocab ruleName depth true) pos.length :=
      fun p src id hs => ih (by omega) id
    intro e
    unfold parseAlternates at e
    dsimp only at e
    split at e
    · next h =>
      cases e
      exact sequenceLoop_ends hl (Nat.lt_succ_self _) hg h
    next h1 =>
    have hlen := sequenceLoop_length hl h1
    split at e
    · next h =>
      cases e
      exact alternatesLoop_ends hl (Nat.lt_succ_self _)
        (fun p src id hs => hg p src id (hs.trans_le hlen)) _ h
    · cases e

theorem parseRule_ends : parseRule vocab p pos ≠ .error .fuel := by
  intro e
  unfold parseRule at e
  split at e
  · next h =>
    cases e
    exact parseName_ends _ h
  dsimp only at e
  split at e
  · cases e
  split at e
  · next h =>
    cases e
    exact parseAlternates_ends (Nat.lt_succ_self _) _ h
  split at e
  · cases e
  split at e
  · cases e
  split at e <;> cases e

theorem parseRules_ends (hf : pos.length < fuel) : parseRules vocab fuel p pos ≠ .error .fuel := by
  induction fuel generalizing p pos with
  | zero => omega
  | succ fuel ih =>
    intro e
    unfold parseRules at e
    split at e
    · cases e
    split at e
    · next h =>
      cases e
      exact parseRule_ends h
    · next h =>
      obtain ⟨name, pos1, pos2, h1, h2, h3⟩ := parseRule_ok h
      have h4 := (parseName_spec h1).1
      have h5 := parseAlternates_length h2
      have h6 : (bodyStart pos1).length ≤ pos1.length :=
        (parseSpace_length _ _).trans ((by simp : _ ≤ _).trans (parseSpace_length pos1 false))
      exact ih (by omega) e

end Sequence

/-- `parse` ends on every text. -/
theorem parse_ends (vocab : Tokenize) (text : List UInt8) : parse vocab text ≠ .error .fuel := by
  intro e
  unfold parse at e
  split at e
  · next h =>
    cases e
    exact parseRules_ends (Nat.lt_succ_of_le (parseSpace_length text true)) h
  · split at e <;> cases e

end BeeLlama.Gbnf
