import BeeLlama.Gbnf.Consume
import BeeLlama.Peg.DelimiterStates

/-!
# What the parser of GBNF keeps

A name of the text has no underscore, and a name that `generate_symbol_id` makes has one, with the
id behind it (`Named`). So a generated symbol is always new, and its rule is set once.

* `Grows`: symbols are only added, and some rules stay as they are.
* `parseItem_step`: what a round of `parse_sequence` does.
* `ItemStep.frame`, `parseAlternates_grows`: what is parsed in a rule sets rules of new symbols.
* `parseRules_later`: a generated rule stays to the end.
-/

namespace BeeLlama.Gbnf

open Peg List

/-! ## Names -/

/-- A name of the text, or a name that `generate_symbol_id` made for the id. -/
def NameOf (name : List UInt8) (id : Nat) : Prop :=
  95 ∉ name ∨ ∃ base, 95 ∉ base ∧ name = base ++ 95 :: toString id

/-- The symbols have names of the text and generated ones. -/
structure Named (p : GbnfParser) : Prop extends Symbols p where
  names : ∀ name id, p.symbolIds.lookup name = some id → NameOf name id

/-- `generate_symbol_id` made the symbol. -/
def Generated (p : GbnfParser) (id : Nat) : Prop :=
  ∃ name, p.symbolIds.lookup name = some id ∧ 95 ∈ name

theorem named_empty : Named {} :=
  ⟨⟨rfl, nodup_nil, le_rfl⟩, fun _ _ h => by cases h⟩

theorem not_mem_of_word {name : List UInt8} (h : ∀ c ∈ name, isWordChar c = true) : 95 ∉ name :=
  fun hm => absurd (h 95 hm) (by decide)

/-- What stands before the first separator and behind it. -/
theorem append_cons_inj {a a' b b' : List UInt8} {c : UInt8} (ha : c ∉ a) (ha' : c ∉ a')
    (e : a ++ c :: b = a' ++ c :: b') : a = a' ∧ b = b' := by
  induction a generalizing a' with
  | nil =>
    cases a' with
    | nil => exact ⟨rfl, (List.cons.inj e).2⟩
    | cons x a' => exact absurd ((List.cons.inj e).1 ▸ mem_cons_self) ha'
  | cons x a ih =>
    cases a' with
    | nil => exact absurd ((List.cons.inj e).1 ▸ mem_cons_self) ha
    | cons y a' =>
      obtain ⟨rfl, e'⟩ := List.cons.inj e
      obtain ⟨rfl, rfl⟩ := ih (fun h => ha (mem_cons_of_mem _ h))
        (fun h => ha' (mem_cons_of_mem _ h)) e'
      exact ⟨rfl, rfl⟩

section Named

variable {p : GbnfParser}

theorem Generated.lt (h : Named p) {id : Nat} (hg : Generated p id) : id < p.symbolIds.length :=
  hg.elim fun _ hn => h.toSymbols.lt hn.1

theorem Generated.mono {p' : GbnfParser} (hext : Extends p p') {id : Nat} (hg : Generated p id) :
    Generated p' id :=
  hg.imp fun name hn => ⟨hext name id hn.1, hn.2⟩

/-- A name of the text does not lead to a generated symbol. -/
theorem Generated.ne (h : Named p) {id id' : Nat} (hg : Generated p id) {name : List UInt8}
    (hn : p.symbolIds.lookup name = some id') (hname : 95 ∉ name) : id ≠ id' := by
  rintro rfl
  obtain ⟨name', e, hmem⟩ := hg
  exact hname (h.toSymbols.inj e hn ▸ hmem)

/-- The next generated name is new. -/
theorem Named.fresh (h : Named p) {base : List UInt8} (hb : 95 ∉ base) :
    p.symbolIds.lookup (base ++ 95 :: toString p.symbolIds.length) = none := by
  cases e : p.symbolIds.lookup (base ++ 95 :: toString p.symbolIds.length) with
  | none => rfl
  | some id =>
    have hlt := h.toSymbols.lt e
    rcases h.names _ id e with hnot | ⟨base', hb', e'⟩
    · exact absurd (mem_append_right _ mem_cons_self) hnot
    · have hdigits := (append_cons_inj hb hb' e').2
      have := congrArg digitsValue hdigits
      rw [digitsValue_toString, digitsValue_toString] at this
      omega

end Named

/-! ## Growth -/

/-- Symbols are only added, and the rules of the symbols in `keep` stay as they are. -/
structure Grows (keep : Nat → Prop) (p p' : GbnfParser) : Prop where
  named : Named p'
  ext : Extends p p'
  le : p.symbolIds.length ≤ p'.symbolIds.length
  rules : ∀ id < p.symbolIds.length, keep id → p'.rules.getD id [] = p.rules.getD id []

/-- All rules stay as they are. -/
abbrev Frame : GbnfParser → GbnfParser → Prop := Grows fun _ => True

/-- A generated symbol with a rule. -/
def Made (p : GbnfParser) (id : Nat) : Prop := Generated p id ∧ p.rules.getD id [] ≠ []

/-- The generated rules stay as they are. -/
abbrev Later (p p' : GbnfParser) : Prop := Grows (Made p) p p'

section Grows

variable {keep keep' : Nat → Prop} {p p' p'' : GbnfParser}

theorem Grows.refl (h : Named p) : Grows keep p p := ⟨h, .refl p, le_rfl, fun _ _ _ => rfl⟩

theorem Grows.mono (h : Grows keep p p') (hk : ∀ id < p.symbolIds.length, keep' id → keep id) :
    Grows keep' p p' :=
  ⟨h.named, h.ext, h.le, fun id hid hi => h.rules id hid (hk id hid hi)⟩

theorem Grows.trans (h : Grows keep p p') (h' : Grows keep' p' p'')
    (hk : ∀ id < p.symbolIds.length, keep id → keep' id) : Grows keep p p'' :=
  ⟨h'.named, h.ext.trans h'.ext, h.le.trans h'.le, fun id hid hi =>
    (h'.rules id (hid.trans_le h.le) (hk id hid hi)).trans (h.rules id hid hi)⟩

theorem Frame.later (h : Frame p p') : Later p p' := h.mono fun _ _ _ => trivial

theorem Made.later (hp : Named p) (h : Later p p') {id : Nat} (hm : Made p id) : Made p' id :=
  ⟨hm.1.mono h.ext, (h.rules id (hm.1.lt hp) hm).symm ▸ hm.2⟩

theorem Later.trans (hp : Named p) (h : Later p p') (h' : Later p' p'') : Later p p'' :=
  Grows.trans h h' fun _ _ hm => hm.later hp h

/-- A rule is set for a symbol that is new or that need not be kept. -/
theorem Grows.addRule (h : Grows keep p p') {id : Nat} (hid : id < p'.symbolIds.length)
    (hnew : id < p.symbolIds.length → ¬ keep id) (rule : GrammarRule) :
    Grows keep p (p'.addRule id rule) := by
  have hle : (p'.addRule id rule).rules.length ≤ p'.symbolIds.length := by
    rw [length_addRule]
    have := h.named.rules_le
    omega
  refine ⟨⟨⟨h.named.ids, h.named.nodup, hle⟩, h.named.names⟩, h.ext, h.le, fun i hi hk => ?_⟩
  have hne : i ≠ id := by
    rintro rfl
    exact hnew hi hk
  rw [getD_addRule, if_neg hne]
  exact h.rules i hi hk

end Grows

/-! ## Symbols -/

section Symbols

variable {p : GbnfParser}

theorem getSymbolId_frame (h : Named p) {name : List UInt8} (hname : 95 ∉ name) :
    Frame p (p.getSymbolId name).1 := by
  obtain ⟨h1, h2, h3, h4, h5⟩ := getSymbolId_spec h.toSymbols name
  refine ⟨⟨h1, fun n id hn => ?_⟩, h2, ?_, fun id _ _ => by rw [h4]⟩
  · rcases h5 n id hn with rfl | hn
    · exact .inl hname
    · exact h.names n id hn
  · unfold GbnfParser.getSymbolId
    cases p.symbolIds.lookup name <;> simp

/-- `generate_symbol_id` makes a new symbol without a rule. -/
theorem generateSymbolId_spec (h : Named p) {base : List UInt8} (hb : 95 ∉ base) :
    Frame p (p.generateSymbolId base).1 ∧ (p.generateSymbolId base).2 = p.symbolIds.length ∧
      (p.generateSymbolId base).1.symbolIds.length = p.symbolIds.length + 1 ∧
      (p.generateSymbolId base).1.rules = p.rules ∧
      Generated (p.generateSymbolId base).1 p.symbolIds.length := by
  -- the name is not there yet, so nothing is replaced
  have hfresh := h.fresh hb
  have hids : p.symbolIds.filter (fun s => s.1 ≠ base ++ 95 :: toString p.symbolIds.length) =
      p.symbolIds := by
    refine filter_eq_self.mpr fun a ha => ?_
    have hne : a.1 ≠ base ++ 95 :: toString p.symbolIds.length := fun e => by
      have := h.toSymbols.mem_iff.mpr ha
      rw [e, hfresh] at this
      cases this
    simpa using hne
  have hsame : (p.generateSymbolId base).1 =
      (p.getSymbolId (base ++ 95 :: toString p.symbolIds.length)).1 := by
    unfold GbnfParser.generateSymbolId GbnfParser.getSymbolId
    rw [hfresh]
    simp only [hids]
  obtain ⟨h1, h2, h3, h4, h5⟩ :=
    getSymbolId_spec h.toSymbols (base ++ 95 :: toString p.symbolIds.length)
  have hid : (p.getSymbolId (base ++ 95 :: toString p.symbolIds.length)).2 =
      p.symbolIds.length := by
    unfold GbnfParser.getSymbolId
    rw [hfresh]
  rw [hid] at h3
  rw [← hsame] at h1 h2 h3 h4 h5
  have hlen : (p.generateSymbolId base).1.symbolIds.length = p.symbolIds.length + 1 := by
    rw [hsame]
    unfold GbnfParser.getSymbolId
    rw [hfresh]
    simp
  refine ⟨⟨⟨h1, fun n id hn => ?_⟩, h2, by omega, fun id _ _ => by rw [h4]⟩, rfl, hlen, h4,
    ⟨_, h3, mem_append_right _ mem_cons_self⟩⟩
  rcases h5 n id hn with rfl | hn
  · rw [h3] at hn
    cases hn
    exact .inr ⟨base, hb, rfl⟩
  · exact h.names n id hn

/-- A symbol behind the rules has none. -/
theorem Named.getD_eq_nil (h : Named p) {id : Nat} (hid : p.symbolIds.length ≤ id) :
    p.rules.getD id [] = [] := by
  have := h.rules_le
  rw [getD_eq_getElem?_getD, getElem?_eq_none (by omega)]
  rfl

end Symbols

/-! ## Repetitions -/

/-- The elements of the optional copy that has this id: a copy, and a reference to the copy before
it or, without a maximum, to itself. -/
def copyRule (prevRule : GrammarRule) (ref : Option Nat) : GrammarRule :=
  prevRule ++ (ref.map fun id => (⟨.ruleRef, id⟩ : GrammarElement)).toList ++
    [⟨.alt, 0⟩, ⟨.end_, 0⟩]

theorem copyRule_ne_nil (prevRule : GrammarRule) (ref : Option Nat) :
    copyRule prevRule ref ≠ [] := by
  simp [copyRule]

/-- What the copy `j` of the copies from `i` on refers to. -/
def copyRef (noMax : Bool) (first last i j : Nat) : Option Nat :=
  if noMax then some (first + j)
  else if j > 0 then some (first + j - 1) else if i > 0 then some last else none

section Repetitions

variable {p : GbnfParser} {ruleName : List UInt8}

/-- The copies have the next ids. -/
theorem repeatRules_spec (hr : 95 ∉ ruleName) (prevRule : GrammarRule) (noMax : Bool) (n i : Nat)
    (h : Named p) (last : Nat) :
    Frame p (repeatRules ruleName prevRule noMax n i p last).1 ∧
      (repeatRules ruleName prevRule noMax n i p last).2 =
        (if n = 0 then last else p.symbolIds.length + n - 1) ∧
      ∀ j < n, Generated (repeatRules ruleName prevRule noMax n i p last).1
          (p.symbolIds.length + j) ∧
        (repeatRules ruleName prevRule noMax n i p last).1.rules.getD (p.symbolIds.length + j) [] =
          copyRule prevRule (copyRef noMax p.symbolIds.length last i j) := by
  induction n generalizing p i last with
  | zero => exact ⟨.refl h, rfl, fun j hj => absurd hj (Nat.not_lt_zero j)⟩
  | succ n ih =>
    obtain ⟨h1, h2, h3, h4, h5⟩ := generateSymbolId_spec h hr
    rw [repeatRules]
    generalize p.generateSymbolId ruleName = g at *
    obtain ⟨p1, id⟩ := g
    subst h2
    set L := p.symbolIds.length
    set ref : List GrammarElement :=
      if i > 0 ∨ noMax then [⟨.ruleRef, if noMax then L else last⟩] else []
    set p2 := p1.addRule L (prevRule ++ ref ++ [⟨.alt, 0⟩, ⟨.end_, 0⟩])
    have hf : Frame p p2 := h1.addRule (by omega) (fun hlt => absurd hlt (lt_irrefl _)) _
    have hlen : p2.symbolIds.length = L + 1 := h3
    have hg : Generated p2 L := h5
    have hrule : p2.rules.getD L [] = copyRule prevRule (copyRef noMax L last i 0) := by
      rw [getD_addRule, if_pos rfl]
      cases noMax <;> by_cases hi : i > 0 <;> simp [copyRule, copyRef, ref, hi]
    obtain ⟨k1, k2, k3⟩ := ih (i + 1) hf.named L
    rw [hlen] at k2 k3
    refine ⟨hf.trans k1 fun _ _ h => h, ?_, fun j hj => ?_⟩
    · rw [k2]
      split <;> grind
    · cases j with
      | zero =>
        refine ⟨hg.mono k1.ext, ?_⟩
        exact (k1.rules L (by omega) trivial).trans hrule
      | succ j =>
        obtain ⟨m1, m2⟩ := k3 j (by omega)
        have e : L + (j + 1) = L + 1 + j := by omega
        rw [e]
        refine ⟨m1, m2.trans ?_⟩
        congr 1
        unfold copyRef
        grind

/-- The number of optional copies. -/
def optionalCopies (minTimes : Nat) : Option Nat → Nat
  | some m => (m + 2 ^ 64 - minTimes) % 2 ^ 64
  | none => 1

/-- The number of copies that a repetition is counted as. -/
def totalRules (minTimes : Nat) : Option Nat → Nat
  | some m => if m > 0 then m else if minTimes > 0 then minTimes else 1
  | none => if minTimes > 0 then minTimes else 1

theorem handleRepetitions_eq (st : SeqState) (minTimes : Nat) (maxTimes : Option Nat) :
    handleRepetitions ruleName p st minTimes maxTimes =
      if st.lastSymStart = st.rule.length then .error .precedingItem
      else if st.nPrevRules * totalRules minTimes maxTimes ≥ maxRepetitionThreshold then
        .error .tooManyRules
      else
        let prevRule := st.rule.drop st.lastSymStart
        let rule := if minTimes = 0 then st.rule.take st.lastSymStart
          else st.rule ++ (List.replicate (minTimes - 1) prevRule).flatten
        let r := repeatRules ruleName prevRule maxTimes.isNone (optionalCopies minTimes maxTimes)
          0 p 0
        .ok (r.1, ⟨if optionalCopies minTimes maxTimes > 0 then rule ++ [⟨.ruleRef, r.2⟩] else rule,
          st.lastSymStart, st.nPrevRules * totalRules minTimes maxTimes⟩) := by
  unfold handleRepetitions
  extract_lets prevRule total rule nOpt r
  have htotal : total = totalRules minTimes maxTimes := by cases maxTimes <;> rfl
  have hopt : nOpt = optionalCopies minTimes maxTimes := by cases maxTimes <;> rfl
  -- the number of copies is not to be computed
  clear_value nOpt
  rw [← htotal]
  subst hopt
  rfl

/-- The reference to the last of `n` optional copies from the id `first` on. -/
def lastCopy (first n : Nat) : List GrammarElement :=
  if n > 0 then [⟨.ruleRef, first + n - 1⟩] else []

theorem block_lastCopy (first n : Nat) : Block (lastCopy first n) := by
  unfold lastCopy
  split
  · exact block_ref _
  · exact block_nil

/-- `handle_repetitions` puts the copies in the place of the last item. -/
theorem handleRepetitions_spec (h : Named p) (hr : 95 ∉ ruleName) {st st' : SeqState}
    {minTimes : Nat} {maxTimes : Option Nat} {p' : GbnfParser}
    (e : handleRepetitions ruleName p st minTimes maxTimes = .ok (p', st')) :
    Frame p p' ∧ st.lastSymStart ≠ st.rule.length ∧ st'.lastSymStart = st.lastSymStart ∧
      st'.rule = st.rule.take st.lastSymStart ++
        ((List.replicate minTimes (st.rule.drop st.lastSymStart)).flatten ++
          lastCopy p.symbolIds.length (optionalCopies minTimes maxTimes)) ∧
      ∀ j < optionalCopies minTimes maxTimes, Generated p' (p.symbolIds.length + j) ∧
        p'.rules.getD (p.symbolIds.length + j) [] = copyRule (st.rule.drop st.lastSymStart)
          (copyRef maxTimes.isNone p.symbolIds.length 0 0 j) := by
  rw [handleRepetitions_eq] at e
  split at e
  · cases e
  next hne =>
  split at e
  · cases e
  cases e
  obtain ⟨k1, k2, k3⟩ := repeatRules_spec hr (st.rule.drop st.lastSymStart) maxTimes.isNone
    (optionalCopies minTimes maxTimes) 0 h 0
  refine ⟨k1, hne, rfl, ?_, k3⟩
  have hrule : (if minTimes = 0 then st.rule.take st.lastSymStart else st.rule ++
      (List.replicate (minTimes - 1) (st.rule.drop st.lastSymStart)).flatten) =
      st.rule.take st.lastSymStart ++
        (List.replicate minTimes (st.rule.drop st.lastSymStart)).flatten := by
    cases minTimes with
    | zero => simp
    | succ n =>
      rw [if_neg (Nat.succ_ne_zero n), replicate_succ, flatten_cons,
        ← append_assoc, take_append_drop]
      rfl
  rw [hrule, k2]
  unfold lastCopy
  split
  · next hpos => rw [if_neg hpos.ne', append_assoc]
  · rw [append_nil]

end Repetitions

/-! ## Items -/

/-- The last item of a sequence is a block. -/
structure ItemOk (st : SeqState) : Prop where
  le : st.lastSymStart ≤ st.rule.length
  block : Block (st.rule.drop st.lastSymStart)

theorem itemOk_start (rule : GrammarRule) (n : Nat) : ItemOk ⟨rule, rule.length, n⟩ :=
  ⟨le_rfl, by simpa using block_nil⟩

theorem itemOk_push (rule : GrammarRule) {elems : List GrammarElement} (h : Block elems) (n : Nat) :
    ItemOk ⟨rule ++ elems, rule.length, n⟩ :=
  ⟨by simp, by simpa using h⟩

theorem drop_handleRepetitions {st st' : SeqState} (hst : ItemOk st) {es : List GrammarElement}
    (hs : st'.lastSymStart = st.lastSymStart)
    (hrule : st'.rule = st.rule.take st.lastSymStart ++ es) :
    st'.rule.drop st'.lastSymStart = es ∧ st'.lastSymStart ≤ st'.rule.length := by
  have hlen : (st.rule.take st.lastSymStart).length = st.lastSymStart := by
    rw [length_take, Nat.min_eq_left hst.le]
  rw [hrule, hs]
  constructor
  · rw [drop_append_of_le_length hlen.ge, drop_eq_nil_of_le hlen.le, nil_append]
  · rw [length_append, hlen]
    omega

theorem ItemOk.replace {st st' : SeqState} (hst : ItemOk st) {es : List GrammarElement}
    (hs : st'.lastSymStart = st.lastSymStart)
    (hrule : st'.rule = st.rule.take st.lastSymStart ++ es) (hb : Block es) : ItemOk st' := by
  obtain ⟨h1, h2⟩ := drop_handleRepetitions hst hs hrule
  exact ⟨h2, h1 ▸ hb⟩

/-- The bounds of the operator at a position, as they are written. -/
def operator (isNested : Bool) (pos : List UInt8) : Option (Nat × Option Nat) :=
  if cur pos = 42 then some (0, none)
  else if cur pos = 43 then some (1, none)
  else if cur pos = 63 then some (0, some 1)
  else if cur pos = 123 then
    match parseBraces (parseSpace pos.tail isNested) isNested with
    | .error _ => none
    | .ok (minTimes, maxTimes, _) => some (minTimes, maxTimes)
  else none

/-- The maximum that the rewriting goes by. -/
def usedMax (maxTimes : Option Nat) : Option Nat :=
  maxTimes.filter fun m => m ≤ maxRepetitionThreshold

section Sequence

variable (vocab : Tokenize) (ruleName : List UInt8) (isNested : Bool)
  (group : GbnfParser → List UInt8 → Nat → Except GbnfError (GbnfParser × List UInt8))

/-- What one round of `parse_sequence` does: a new item of its own elements, a reference, a group
or an operator. -/
inductive ItemStep (p : GbnfParser) (pos : List UInt8) (st : SeqState) :
    GbnfParser → List UInt8 → SeqState → Prop
  | push {elems : List GrammarElement} {pos' : List UInt8} : operator isNested pos = none →
      cur pos ≠ 40 → Block elems → pos'.length < pos.length →
      ItemStep p pos st p pos' (st.push elems)
  | ref {name pos' : List UInt8} : operator isNested pos = none → cur pos ≠ 40 → 95 ∉ name →
      pos'.length < pos.length → ItemStep p pos st (p.getSymbolId name).1 pos'
        (st.push [⟨.ruleRef, (p.getSymbolId name).2⟩])
  | group {p' : GbnfParser} {pos₁ : List UInt8} {n : Nat} : operator isNested pos = none →
      cur pos = 40 →
      group (p.generateSymbolId ruleName).1 (parseSpace pos.tail true)
        (p.generateSymbolId ruleName).2 = .ok (p', pos₁) → cur pos₁ = 41 →
      ItemStep p pos st p' (parseSpace pos₁.tail isNested)
        ⟨st.rule ++ [⟨.ruleRef, (p.generateSymbolId ruleName).2⟩], st.rule.length, n⟩
  | operator {minTimes : Nat} {maxTimes : Option Nat} {p' : GbnfParser} {pos' : List UInt8}
      {st' : SeqState} : operator isNested pos = some (minTimes, maxTimes) → cur pos ≠ 40 →
      handleRepetitions ruleName p st minTimes (usedMax maxTimes) = .ok (p', st') →
      pos'.length < pos.length → ItemStep p pos st p' pos' st'

variable {vocab ruleName isNested group} {p p' : GbnfParser} {pos pos' : List UInt8}
  {st st' : SeqState}

theorem operator_eq_none {c : UInt8} (h : cur pos = c)
    (hc : c ≠ 42 ∧ c ≠ 43 ∧ c ≠ 63 ∧ c ≠ 123) : operator isNested pos = none := by
  unfold operator
  rw [h, if_neg hc.1, if_neg hc.2.1, if_neg hc.2.2.1, if_neg hc.2.2.2]

theorem isWordChar_ne {c : UInt8} (h : isWordChar c = true) :
    c ≠ 40 ∧ c ≠ 42 ∧ c ≠ 43 ∧ c ≠ 63 ∧ c ≠ 123 := by
  refine ⟨?_, ?_, ?_, ?_, ?_⟩ <;> rintro rfl <;> exact absurd h (by decide)

/-- The operators that are not in braces. -/
theorem itemStep_repeat (minTimes : Nat) (maxTimes : Option Nat)
    (hop : operator isNested pos = some (minTimes, maxTimes)) (h40 : cur pos ≠ 40)
    {pos₁ : List UInt8} (hlen : pos₁.length < pos.length)
    (e : (match handleRepetitions ruleName p st minTimes (usedMax maxTimes) with
      | .error e => .error e
      | .ok (p, st) => .ok (some (p, pos₁, st)) :
        Except GbnfError (Option (GbnfParser × List UInt8 × SeqState))) =
      .ok (some (p', pos', st'))) : ItemStep ruleName isNested group p pos st p' pos' st' := by
  split at e
  · cases e
  · next h =>
    cases e
    exact .operator hop h40 h hlen

/-- A round of `parse_sequence` is one of these steps. -/
theorem parseItem_step
    (e : parseItem vocab ruleName isNested group p pos st = .ok (some (p', pos', st'))) :
    ItemStep ruleName isNested group p pos st p' pos' st' := by
  have space : ∀ pos : List UInt8, (parseSpace pos isNested).length ≤ pos.length :=
    fun pos => parseSpace_length pos isNested
  unfold parseItem at e
  dsimp only at e
  split at e
  · next h =>
    -- a literal
    split at e
    · cases e
    next elems pos1 h1 =>
    cases e
    obtain ⟨k1, k2, k3⟩ := literalLoop_spec block_nil h1
    have := length_tail_lt h (by decide)
    have := length_tail_lt k3 (by decide)
    exact .push (operator_eq_none h (by decide)) (by rw [h]; decide) k1
      ((space _).trans_lt (by omega))
  split at e
  · next h =>
    -- a class
    split at e
    · cases e
    next elems pos1 h1 =>
    cases e
    obtain ⟨k1, k2, k3⟩ := rangeLoop_spec (by split <;> simp) block_nil h1
    have h2 := length_tail_lt h (by decide)
    have h3 := length_tail_lt k3 (by decide)
    have h4 : (if cur pos.tail = 94 then pos.drop 2 else pos.tail).length ≤ pos.tail.length := by
      split <;> grind
    exact .push (operator_eq_none h (by decide)) (by rw [h]; decide) k1
      ((space _).trans_lt (by omega))
  split at e
  · next h =>
    -- a token
    split at e
    · cases e
    next token pos1 h1 =>
    cases e
    have hlen : (if cur pos = 33 then pos.tail else pos).length ≤ pos.length := by
      split <;> simp
    have hop : operator isNested pos = none ∧ cur pos ≠ 40 := by
      rcases h with h | h <;> exact ⟨operator_eq_none h (by decide), by rw [h]; decide⟩
    refine .push hop.1 hop.2 ?_ ((space _).trans_lt ((parseToken_length h1).trans_le hlen))
    split <;> exact block_singleton rfl rfl
  split at e
  · next h =>
    -- a reference
    split at e
    · cases e
    next name pos1 h1 =>
    cases e
    obtain ⟨h40, hop⟩ := isWordChar_ne h
    obtain ⟨k1, k2⟩ := parseName_spec h1
    exact .ref (operator_eq_none rfl hop) h40 (not_mem_of_word k2) ((space _).trans_lt k1)
  split at e
  · next h =>
    -- a group
    split at e
    · cases e
    next p1 pos1 h1 =>
    split at e
    · cases e
    next h41 =>
    cases e
    exact .group (operator_eq_none h (by decide)) h h1 (not_not.mp h41)
  split at e
  · next h =>
    -- any character
    cases e
    have := length_tail_lt h (by decide)
    exact .push (operator_eq_none h (by decide)) (by rw [h]; decide) (block_singleton rfl rfl)
      ((space _).trans_lt this)
  split at e
  · next h =>
    have := length_tail_lt h (by decide)
    exact itemStep_repeat 0 none (by simp [operator, h]) (by rw [h]; decide)
      ((space _).trans_lt this) e
  split at e
  · next h =>
    have := length_tail_lt h (by decide)
    exact itemStep_repeat 1 none (by simp [operator, h]) (by rw [h]; decide)
      ((space _).trans_lt this) e
  split at e
  · next h =>
    have := length_tail_lt h (by decide)
    exact itemStep_repeat 0 (some 1) (by simp [operator, h]) (by rw [h]; decide)
      ((space _).trans_lt this) e
  split at e
  · next h =>
    have h1 := length_tail_lt h (by decide)
    have h2 := space pos.tail
    split at e
    · cases e
    next m n pos1 hb =>
    have h3 := parseBraces_length hb
    unfold checkRepetitions at e
    split at e
    · cases e
    next hc =>
    split at hc
    · cases hc
    cases hc
    exact itemStep_repeat _ _ (by simp [operator, h, hb]) (by rw [h]; decide) (by omega) e
  · cases e

/-! ## Sequences, alternatives and rules -/

/-- What is parsed in parentheses sets no rule of an old symbol but the rule of the group. -/
def GroupOk (group : GbnfParser → List UInt8 → Nat → Except GbnfError (GbnfParser × List UInt8)) :
    Prop :=
  ∀ p src id p' pos, Named p → id < p.symbolIds.length → group p src id = .ok (p', pos) →
    Grows (· ≠ id) p p'

/-- A round of `parse_sequence` keeps the rules, and its last item is a block. -/
theorem ItemStep.frame (hr : 95 ∉ ruleName) (hgroup : GroupOk group) (h : Named p)
    (hst : ItemOk st) (hs : ItemStep ruleName isNested group p pos st p' pos' st') :
    Frame p p' ∧ ItemOk st' := by
  cases hs with
  | push hop h40 hb hlen => exact ⟨.refl h, itemOk_push st.rule hb 1⟩
  | ref hop h40 hn hlen => exact ⟨getSymbolId_frame h hn, itemOk_push st.rule (block_ref _) 1⟩
  | group hop h40 hg h41 =>
    obtain ⟨h1, h2, h3, h4, h5⟩ := generateSymbolId_spec h hr
    rw [h2] at hg ⊢
    refine ⟨h1.trans (hgroup _ _ _ _ _ h1.named (by omega) hg) fun id hid _ => hid.ne, ?_⟩
    exact itemOk_push st.rule (block_ref _) _
  | @operator m n p' pos' st' hop h40 hrep hlen =>
    obtain ⟨h1, h2, h3, h4, h5⟩ := handleRepetitions_spec h hr hrep
    exact ⟨h1, hst.replace h3 h4 ((block_replicate hst.block _).append (block_lastCopy _ _))⟩

theorem sequenceLoop_frame (hr : 95 ∉ ruleName) (hgroup : GroupOk group) {fuel : Nat}
    (h : Named p) (hst : ItemOk st) {rule : GrammarRule}
    (e : sequenceLoop vocab ruleName isNested group fuel p pos st = .ok (p', pos', rule)) :
    Frame p p' := by
  induction fuel generalizing p pos st with
  | zero => cases e
  | succ fuel ih =>
    unfold sequenceLoop at e
    split at e
    · cases e
    · cases e
      exact .refl h
    · next h1 =>
      obtain ⟨hf, hst'⟩ := (parseItem_step h1).frame hr hgroup h hst
      exact hf.trans (ih hf.named hst' e) fun _ _ h => h

theorem parseSequence_frame (hr : 95 ∉ ruleName) (hgroup : GroupOk group) (h : Named p)
    {rule rule' : GrammarRule}
    (e : parseSequence vocab ruleName isNested group p pos rule = .ok (p', pos', rule')) :
    Frame p p' :=
  sequenceLoop_frame hr hgroup h (itemOk_start rule 1) e

theorem alternatesLoop_frame (hr : 95 ∉ ruleName) (hgroup : GroupOk group) {fuel : Nat}
    (h : Named p) {rule rule' : GrammarRule}
    (e : alternatesLoop vocab ruleName isNested group fuel p pos rule = .ok (p', pos', rule')) :
    Frame p p' := by
  induction fuel generalizing p pos rule with
  | zero => cases e
  | succ fuel ih =>
    unfold alternatesLoop at e
    split at e
    · split at e
      · cases e
      · next h1 =>
        have hf := parseSequence_frame hr hgroup h h1
        exact hf.trans (ih hf.named e) fun _ _ h => h
    · cases e
      exact .refl h

end Sequence

section Rules

variable {vocab : Tokenize} {p p' : GbnfParser} {pos pos' : List UInt8}

/-- What `parse_alternates` parses sets no rule of an old symbol but the one it parses. -/
theorem parseAlternates_grows {ruleName : List UInt8} (hr : 95 ∉ ruleName) {depth : Nat}
    {isNested : Bool} {ruleId : Nat} (h : Named p) (hid : ruleId < p.symbolIds.length)
    (e : parseAlternates vocab ruleName depth isNested p pos ruleId = .ok (p', pos')) :
    Grows (· ≠ ruleId) p p' := by
  induction depth generalizing isNested p pos ruleId p' pos' with
  | zero => cases e
  | succ depth ih =>
    have hgroup : GroupOk (parseAlternates vocab ruleName depth true) :=
      fun p src id p' pos hp hid e => ih hp hid e
    unfold parseAlternates at e
    dsimp only at e
    split at e
    · cases e
    next h1 =>
    split at e
    · cases e
    next h2 =>
    cases e
    have hf1 := parseSequence_frame hr hgroup h h1
    have hf2 := alternatesLoop_frame hr hgroup hf1.named h2
    have hf : Frame p _ := hf1.trans hf2 fun _ _ h => h
    refine (hf.mono fun _ _ _ => trivial).addRule (hid.trans_le hf.le) (fun _ h => h rfl) _

/-- The position behind `::=`. -/
def bodyStart (pos : List UInt8) : List UInt8 := parseSpace ((parseSpace pos false).drop 3) true

/-- A rule is a name and what `parse_alternates` parses. -/
theorem parseRule_ok (e : parseRule vocab p pos = .ok (p', pos')) :
    ∃ name pos₁ pos₂, parseName pos = .ok (name, pos₁) ∧
      parseAlternates vocab name ((bodyStart pos₁).length + 1) false (p.getSymbolId name).1
        (bodyStart pos₁) (p.getSymbolId name).2 = .ok (p', pos₂) ∧ pos'.length ≤ pos₂.length := by
  unfold parseRule at e
  split at e
  · cases e
  next name pos₁ h1 =>
  dsimp only at e
  split at e
  · cases e
  split at e
  · cases e
  next p2 pos₂ h2 =>
  have space : ∀ pos : List UInt8, (parseSpace pos true).length ≤ pos.length :=
    fun pos => parseSpace_length pos true
  split at e
  · cases e
    refine ⟨name, pos₁, pos₂, h1, h2, (space _).trans ?_⟩
    split <;> simp
  split at e
  · cases e
    exact ⟨name, pos₁, pos₂, h1, h2, (space _).trans (by simp)⟩
  split at e
  · cases e
  · cases e
    exact ⟨name, pos₁, pos₂, h1, h2, space _⟩

/-- A rule of the text keeps the generated rules. -/
theorem parseRule_later (h : Named p) (e : parseRule vocab p pos = .ok (p', pos')) :
    Later p p' := by
  obtain ⟨name, pos1, pos2, h1, h2, -⟩ := parseRule_ok e
  have hname := not_mem_of_word (parseName_spec h1).2
  obtain ⟨k1, k2, k3, k4, k5⟩ := getSymbolId_spec h.toSymbols name
  have hf := getSymbolId_frame h hname
  refine hf.later.trans h ((parseAlternates_grows hname hf.named (k1.lt k3) h2).mono ?_)
  exact fun id _ hm => hm.1.ne hf.named k3 hname

/-- The rest of a text keeps the generated rules. -/
theorem parseRules_later {fuel : Nat} (h : Named p) (e : parseRules vocab fuel p pos = .ok p') :
    Later p p' := by
  induction fuel generalizing p pos with
  | zero => cases e
  | succ fuel ih =>
    unfold parseRules at e
    split at e
    · cases e
      exact .refl h
    · split at e
      · cases e
      · next h1 =>
        have hf := parseRule_later h h1
        exact hf.trans h (ih hf.named e)

end Rules

end BeeLlama.Gbnf
