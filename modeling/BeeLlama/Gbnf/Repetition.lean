import BeeLlama.Gbnf.Total
import BeeLlama.Lib.CfgLanguage

/-!
# Repetitions of GBNF

An operator behind an item puts copies of the item in its place and, for the optional copies, a
reference to a generated rule. The repetitions of a text are those that its parse comes to.

* `elemsLang`: the language of elements.
* `Rewritten`: the rules of a repetition are in the grammar, which they are to the end
  (`repetitions_rewritten`).
* `Rewritten.lang`: the language of a repetition is a union of powers.
-/

namespace BeeLlama.Gbnf

open Peg Grammar Cfg Computability List

/-! ## The language of elements -/

section Language

variable {C : Type} {rules : GrammarRules} {acc : List GrammarElement → C → Prop}

/-- The words that elements of a rule generate. -/
def elemsLang (rules : GrammarRules) (acc : List GrammarElement → C → Prop)
    (es : List GrammarElement) : Language C := lang (alts rules) acc (symsFrom false es)

variable {a b : List GrammarElement}

theorem takeWhile_append_block (hb : Block b) :
    (a ++ b).takeWhile isModifier = a.takeWhile isModifier := by
  induction a with
  | nil =>
    cases b with
    | nil => rfl
    | cons e b => simp [hb.head e rfl]
  | cons x a ih => simp only [cons_append, takeWhile_cons, ih]

theorem symsFrom_block {b : List GrammarElement} (hb : Block b) (inRange : Bool) :
    symsFrom inRange b = symsFrom false b := by
  cases b with
  | nil => rfl
  | cons e b =>
    have he := hb.head e rfl
    cases inRange with
    | false => rfl
    | true => cases ht : e.type <;> simp_all [symsFrom, isModifier]

/-- The symbols of elements with a block behind them. -/
theorem symsFrom_append_block (ha : Inner a) (hb : Block b) (inRange : Bool) :
    symsFrom inRange (a ++ b) = symsFrom inRange a ++ symsFrom false b := by
  induction a generalizing inRange with
  | nil => exact symsFrom_block hb inRange
  | cons e a ih =>
    have he := ha e mem_cons_self
    have ih := ih fun x hx => ha x (mem_cons_of_mem e hx)
    cases ht : e.type <;> simp [isEndOfSequence, ht] at he <;>
      simp only [cons_append, symsFrom, ht, ih, takeWhile_append_block hb]
    all_goals split <;> rfl

/-- The end of an alternative has no symbols. -/
theorem symsFrom_append_end (c : List GrammarElement) (inRange : Bool) :
    symsFrom inRange (c ++ [⟨.end_, 0⟩]) = symsFrom inRange c := by
  have htake : ∀ c : List GrammarElement,
      (c ++ [(⟨.end_, 0⟩ : GrammarElement)]).takeWhile isModifier = c.takeWhile isModifier := by
    intro c
    induction c with
    | nil => rfl
    | cons x c ih => simp only [cons_append, takeWhile_cons, ih]
  induction c generalizing inRange with
  | nil => rfl
  | cons e c ih => simp only [cons_append, symsFrom, ih, htake]

@[simp] theorem elemsLang_nil : elemsLang rules acc [] = 1 := lang_nil

theorem elemsLang_append (ha : Inner a) (hb : Block b) :
    elemsLang rules acc (a ++ b) = elemsLang rules acc a * elemsLang rules acc b := by
  unfold elemsLang
  rw [symsFrom_append_block ha hb, lang_append]

theorem elemsLang_replicate {a : List GrammarElement} (ha : Block a) (n : Nat) :
    elemsLang rules acc (List.replicate n a).flatten = elemsLang rules acc a ^ n := by
  induction n with
  | zero => simp
  | succ n ih =>
    rw [replicate_succ, flatten_cons, elemsLang_append ha.inner (block_replicate ha n),
      ih, pow_succ']

theorem elemsLang_ref (id : Nat) :
    elemsLang rules acc [⟨.ruleRef, id⟩] = lang (alts rules) acc [.rule id] := rfl

/-- The alternatives of an optional copy. -/
theorem alts_copyRule {id : Nat} {prev : GrammarRule} {ref : Option Nat}
    (h : rules.getD id [] = copyRule prev ref) (hb : Block prev) :
    alts rules id = [symsFrom false prev ++ (ref.map fun id => .rule id).toList, []] := by
  have href : Block (ref.map fun id => (⟨.ruleRef, id⟩ : GrammarElement)).toList := by
    cases ref with
    | none => exact block_nil
    | some id => exact block_ref id
  have hsyms : symsFrom false (ref.map fun id => (⟨.ruleRef, id⟩ : GrammarElement)).toList =
      (ref.map fun id => .rule id).toList := by
    cases ref <;> rfl
  have hchunks : rules.getD id [] =
      joinChunks [prev ++ (ref.map fun id => (⟨.ruleRef, id⟩ : GrammarElement)).toList, []] ++
        [⟨.end_, 0⟩] := by
    rw [h]
    simp [copyRule, joinChunks]
  rw [alts_of_chunks hchunks (by simp) (by
    intro c hc
    rcases mem_cons.mp hc with rfl | hc
    · exact inner_append hb.inner href.inner
    · obtain rfl := mem_singleton.mp hc
      exact block_nil.inner)]
  simp only [map_cons, map_nil, symsFrom_append_end, symsFrom_append_block hb.inner href, hsyms]
  rfl

end Language

/-! ## The language of a repetition -/

/-- An item, the bounds of an operator behind it, and what the operator puts in its place. -/
structure Repetition where
  item : List GrammarElement
  minTimes : Nat
  maxTimes : Option Nat
  result : List GrammarElement
  deriving DecidableEq, Repr

/-- The number of optional copies of a repetition. -/
def Repetition.copies (r : Repetition) : Nat := optionalCopies r.minTimes (usedMax r.maxTimes)

/-- The copies are there, and the rules of the optional ones from the id `first` on. -/
structure RewrittenAt (p : GbnfParser) (r : Repetition) (first : Nat) : Prop where
  item : Block r.item
  result : r.result = (List.replicate r.minTimes r.item).flatten ++ lastCopy first r.copies
  rules : ∀ j < r.copies, Generated p (first + j) ∧ p.rules.getD (first + j) [] =
    copyRule r.item (copyRef (usedMax r.maxTimes).isNone first 0 0 j)

/-- The rules of a repetition are in the grammar. -/
def Rewritten (p : GbnfParser) (r : Repetition) : Prop := ∃ first, RewrittenAt p r first

theorem Rewritten.later {p p' : GbnfParser} (hp : Named p) (h : Later p p') {r : Repetition}
    (hr : Rewritten p r) : Rewritten p' r := by
  obtain ⟨first, h1, h2, h3⟩ := hr
  refine ⟨first, h1, h2, fun j hj => ?_⟩
  obtain ⟨hg, hrule⟩ := h3 j hj
  have hm : Made p (first + j) := ⟨hg, hrule ▸ copyRule_ne_nil _ _⟩
  exact ⟨hg.mono h.ext, (h.rules _ (hg.lt hp) hm).trans hrule⟩

section Rewritten

variable {C : Type} {acc : List GrammarElement → C → Prop} {p : GbnfParser} {r : Repetition}
  {first : Nat}

/-- Without a maximum the optional copies are a star. -/
theorem RewrittenAt.lang_star (h : RewrittenAt p r first) (hmax : usedMax r.maxTimes = none) :
    elemsLang p.rules acc (lastCopy first r.copies) = (elemsLang p.rules acc r.item)∗ := by
  have hcopies : r.copies = 1 := by
    unfold Repetition.copies
    rw [hmax]
    rfl
  have hrule := (h.rules 0 (by omega)).2
  rw [hmax] at hrule
  rw [hcopies]
  exact Cfg.lang_star (alts_copyRule hrule h.item)

/-- With a maximum the optional copies are the powers up to their number. -/
theorem RewrittenAt.mem_lang_copies (h : RewrittenAt p r first) {m : Nat}
    (hmax : usedMax r.maxTimes = some m) (w : List C) :
    w ∈ elemsLang p.rules acc (lastCopy first r.copies) ↔
      ∃ k ≤ r.copies, w ∈ elemsLang p.rules acc r.item ^ k := by
  have hrules := h.rules
  rw [hmax] at hrules
  cases hn : r.copies with
  | zero =>
    rw [lastCopy, if_neg (lt_irrefl 0), elemsLang_nil]
    simp
  | succ n =>
    rw [hn] at hrules
    have halts : ∀ j < n + 1, alts p.rules (first + j) = [symsFrom false r.item ++
        ((copyRef false first 0 0 j).map fun id => .rule id).toList, []] :=
      fun j hj => alts_copyRule (hrules j hj).2 h.item
    have hzero := halts 0 (by omega)
    rw [lastCopy, if_pos (by omega), elemsLang_ref]
    refine mem_lang_chain (r := fun j => first + j) n ?_ (fun i hi => ?_) w
    · rw [hzero]
      simp [copyRef]
    · rw [halts (i + 1) (by omega)]
      simp [copyRef]

/-- The language of a repetition is the union of the powers between its bounds. -/
theorem Rewritten.mem_lang (h : Rewritten p r)
    (hle : ∀ m, usedMax r.maxTimes = some m → r.minTimes ≤ m) (w : List C) :
    w ∈ elemsLang p.rules acc r.result ↔ ∃ k, r.minTimes ≤ k ∧
      (∀ m, usedMax r.maxTimes = some m → k ≤ m) ∧ w ∈ elemsLang p.rules acc r.item ^ k := by
  obtain ⟨first, h⟩ := h
  -- the optional copies are the powers up to the rest of the maximum
  have hopt : ∀ v, v ∈ elemsLang p.rules acc (lastCopy first r.copies) ↔
      ∃ k, (∀ m, usedMax r.maxTimes = some m → r.minTimes + k ≤ m) ∧
        v ∈ elemsLang p.rules acc r.item ^ k := by
    intro v
    cases hmax : usedMax r.maxTimes with
    | none =>
      rw [h.lang_star hmax, Language.kstar_eq_iSup_pow, Language.mem_iSup]
      simp
    | some m =>
      have hlow := hle m hmax
      have hhigh : m ≤ maxRepetitionThreshold := by
        have := (Option.filter_eq_some_iff.mp hmax).2
        simpa using this
      have hcopies : r.copies = m - r.minTimes := by
        unfold Repetition.copies
        rw [hmax]
        have hnum : optionalCopies r.minTimes (some m) = (m + 2 ^ 64 - r.minTimes) % 2 ^ 64 := rfl
        unfold maxRepetitionThreshold at hhigh
        omega
      rw [h.mem_lang_copies hmax, hcopies]
      simp only [Option.some.injEq, forall_eq']
      exact exists_congr fun k => and_congr_left fun _ => by omega
  rw [h.result, elemsLang_append (block_replicate h.item _).inner (block_lastCopy _ _),
    elemsLang_replicate h.item, Language.mem_mul]
  constructor
  · rintro ⟨u, hu, v, hv, rfl⟩
    obtain ⟨k, hk, hv⟩ := (hopt v).mp hv
    refine ⟨r.minTimes + k, by omega, hk, ?_⟩
    rw [pow_add]
    exact Language.append_mem_mul hu hv
  · rintro ⟨k, hk, hm, hw⟩
    obtain ⟨j, rfl⟩ := Nat.exists_eq_add_of_le hk
    rw [pow_add] at hw
    obtain ⟨u, hu, v, hv, rfl⟩ := hw
    exact ⟨u, hu, v, (hopt v).mpr ⟨j, hm, hv⟩, rfl⟩

end Rewritten

/-! ## The repetitions of a text -/

section Collect

variable (vocab : Tokenize) (ruleName : List UInt8) (isNested : Bool)
  (group : GbnfParser → List UInt8 → Nat → Except GbnfError (GbnfParser × List UInt8))
  (inGroup : GbnfParser → List UInt8 → List Repetition)

/-- The repetitions in one round of `parse_sequence`. -/
def itemRepetitions (p : GbnfParser) (pos : List UInt8) (st st' : SeqState) : List Repetition :=
  if cur pos = 40 then inGroup (p.generateSymbolId ruleName).1 (parseSpace pos.tail true)
  else
    match operator isNested pos with
    | none => []
    | some (minTimes, maxTimes) =>
      [⟨st.rule.drop st.lastSymStart, minTimes, maxTimes, st'.rule.drop st'.lastSymStart⟩]

/-- The repetitions in the loop of `parse_sequence`. -/
def sequenceRepetitions : Nat → GbnfParser → List UInt8 → SeqState → List Repetition
  | 0, _, _, _ => []
  | fuel + 1, p, pos, st =>
    match parseItem vocab ruleName isNested group p pos st with
    | .error _ => []
    | .ok none => []
    | .ok (some (p', pos', st')) =>
      itemRepetitions ruleName isNested inGroup p pos st st' ++ sequenceRepetitions fuel p' pos' st'

/-- The repetitions in the loop of `parse_alternates`. -/
def alternatesRepetitions : Nat → GbnfParser → List UInt8 → GrammarRule → List Repetition
  | 0, _, _, _ => []
  | fuel + 1, p, pos, rule =>
    if cur pos = 124 then
      let src := parseSpace pos.tail true
      let rule := rule ++ [⟨.alt, 0⟩]
      sequenceRepetitions vocab ruleName isNested group inGroup (src.length + 1) p src
          ⟨rule, rule.length, 1⟩ ++
        match parseSequence vocab ruleName isNested group p src rule with
        | .error _ => []
        | .ok (p, pos, rule) => alternatesRepetitions fuel p pos rule
    else []

end Collect

/-- The repetitions in `parse_alternates`. -/
def bodyRepetitions (vocab : Tokenize) (ruleName : List UInt8) :
    Nat → Bool → GbnfParser → List UInt8 → List Repetition
  | 0, _, _, _ => []
  | depth + 1, isNested, p, src =>
    let group := parseAlternates vocab ruleName depth true
    let inGroup := bodyRepetitions vocab ruleName depth true
    sequenceRepetitions vocab ruleName isNested group inGroup (src.length + 1) p src ⟨[], 0, 1⟩ ++
      match parseSequence vocab ruleName isNested group p src [] with
      | .error _ => []
      | .ok (p, pos, rule) =>
        alternatesRepetitions vocab ruleName isNested group inGroup (pos.length + 1) p pos rule

/-- The repetitions in `parse_rule`. -/
def ruleRepetitions (vocab : Tokenize) (p : GbnfParser) (src : List UInt8) : List Repetition :=
  match parseName src with
  | .error _ => []
  | .ok (name, pos) =>
    let pos := bodyStart pos
    bodyRepetitions vocab name (pos.length + 1) false (p.getSymbolId name).1 pos

/-- The repetitions in the loop of `parse`. -/
def rulesRepetitions (vocab : Tokenize) : Nat → GbnfParser → List UInt8 → List Repetition
  | 0, _, _ => []
  | fuel + 1, p, pos =>
    if cur pos = 0 then []
    else
      ruleRepetitions vocab p pos ++
        match parseRule vocab p pos with
        | .error _ => []
        | .ok (p, pos) => rulesRepetitions vocab fuel p pos

/-- The repetitions of a text, as `parse` comes to them. -/
def repetitions (vocab : Tokenize) (text : List UInt8) : List Repetition :=
  rulesRepetitions vocab (text.length + 1) {} (parseSpace text true)

/-! ## Their rules stay in the grammar -/

/-- The rule of the symbol may be set: it has none, or the symbol is not generated. -/
def Free (p : GbnfParser) (id : Nat) : Prop :=
  p.rules.getD id [] = [] ∨ ∃ name, p.symbolIds.lookup name = some id ∧ 95 ∉ name

theorem Free.frame {p p' : GbnfParser} {id : Nat} (h : Free p id) (hid : id < p.symbolIds.length)
    (hf : Frame p p') : Free p' id := by
  rcases h with h | ⟨name, h1, h2⟩
  · exact .inl ((hf.rules id hid trivial).trans h)
  · exact .inr ⟨name, hf.ext name id h1, h2⟩

theorem Free.not_made {p : GbnfParser} (hp : Named p) {id : Nat} (h : Free p id) : ¬ Made p id := by
  rintro ⟨hg, hrule⟩
  rcases h with h | ⟨name, h1, h2⟩
  · exact hrule h
  · exact hg.ne hp h1 h2 rfl

/-- The repetitions in parentheses are rewritten. -/
def GroupRewritten
    (group : GbnfParser → List UInt8 → Nat → Except GbnfError (GbnfParser × List UInt8))
    (inGroup : GbnfParser → List UInt8 → List Repetition) : Prop :=
  ∀ p src id p' pos, Named p → id < p.symbolIds.length → Free p id →
    group p src id = .ok (p', pos) → ∀ r ∈ inGroup p src, Rewritten p' r

section Rewritten

variable {vocab : Tokenize} {ruleName : List UInt8} {isNested : Bool}
  {group : GbnfParser → List UInt8 → Nat → Except GbnfError (GbnfParser × List UInt8)}
  {inGroup : GbnfParser → List UInt8 → List Repetition} {p p' : GbnfParser}
  {pos pos' : List UInt8} {st st' : SeqState}

theorem itemRepetitions_rewritten (hr : 95 ∉ ruleName) (hin : GroupRewritten group inGroup)
    (h : Named p) (hst : ItemOk st)
    (hs : ItemStep ruleName isNested group p pos st p' pos' st') :
    ∀ r ∈ itemRepetitions ruleName isNested inGroup p pos st st', Rewritten p' r := by
  intro r hmem
  unfold itemRepetitions at hmem
  cases hs with
  | push hop h40 hb hlen =>
    rw [if_neg h40, hop] at hmem
    cases hmem
  | ref hop h40 hn hlen =>
    rw [if_neg h40, hop] at hmem
    cases hmem
  | group hop h40 hg h41 =>
    rw [if_pos h40] at hmem
    obtain ⟨h1, h2, h3, h4, h5⟩ := generateSymbolId_spec h hr
    refine hin _ _ _ _ _ h1.named (by omega) (.inl ?_) hg r hmem
    rw [h4]
    exact h.getD_eq_nil le_rfl
  | operator hop h40 hrep hlen =>
    rw [if_neg h40, hop] at hmem
    obtain rfl := mem_singleton.mp hmem
    obtain ⟨h1, h2, h3, h4, h5⟩ := handleRepetitions_spec h hr hrep
    exact ⟨p.symbolIds.length, hst.block, (drop_handleRepetitions hst h3 h4).1, h5⟩

theorem sequenceRepetitions_rewritten (hr : 95 ∉ ruleName) (hgroup : GroupOk group)
    (hin : GroupRewritten group inGroup) {fuel : Nat} (h : Named p) (hst : ItemOk st)
    {rule : GrammarRule}
    (e : sequenceLoop vocab ruleName isNested group fuel p pos st = .ok (p', pos', rule)) :
    ∀ r ∈ sequenceRepetitions vocab ruleName isNested group inGroup fuel p pos st,
      Rewritten p' r := by
  induction fuel generalizing p pos st with
  | zero => cases e
  | succ fuel ih =>
    unfold sequenceLoop at e
    unfold sequenceRepetitions
    cases hi : parseItem vocab ruleName isNested group p pos st with
    | error er => simp
    | ok o =>
      rw [hi] at e
      cases o with
      | none => simp
      | some x =>
        have hstep := parseItem_step hi
        obtain ⟨hf, hst1⟩ := hstep.frame hr hgroup h hst
        have hrest := sequenceLoop_frame hr hgroup hf.named hst1 e
        intro r hmem
        rcases mem_append.mp hmem with hmem | hmem
        · exact (itemRepetitions_rewritten hr hin h hst hstep r hmem).later hf.named hrest.later
        · exact ih hf.named hst1 e r hmem

theorem alternatesRepetitions_rewritten (hr : 95 ∉ ruleName) (hgroup : GroupOk group)
    (hin : GroupRewritten group inGroup) {fuel : Nat} (h : Named p) {rule rule' : GrammarRule}
    (e : alternatesLoop vocab ruleName isNested group fuel p pos rule = .ok (p', pos', rule')) :
    ∀ r ∈ alternatesRepetitions vocab ruleName isNested group inGroup fuel p pos rule,
      Rewritten p' r := by
  induction fuel generalizing p pos rule with
  | zero => cases e
  | succ fuel ih =>
    unfold alternatesLoop at e
    split at e
    · next hc =>
      split at e
      · cases e
      next p1 pos1 rule1 h1 =>
      have hf := parseSequence_frame hr hgroup h h1
      have hrest := alternatesLoop_frame hr hgroup hf.named e
      rw [alternatesRepetitions, if_pos hc]
      dsimp only
      rw [h1]
      intro r hmem
      rcases mem_append.mp hmem with hmem | hmem
      · exact (sequenceRepetitions_rewritten hr hgroup hin h (itemOk_start _ 1) h1 r hmem).later
          hf.named hrest.later
      · exact ih hf.named e r hmem
    · next hc =>
      rw [alternatesRepetitions, if_neg hc]
      simp

theorem bodyRepetitions_rewritten (hr : 95 ∉ ruleName) {depth : Nat} {ruleId : Nat} (h : Named p)
    (hid : ruleId < p.symbolIds.length) (hfree : Free p ruleId)
    (e : parseAlternates vocab ruleName depth isNested p pos ruleId = .ok (p', pos')) :
    ∀ r ∈ bodyRepetitions vocab ruleName depth isNested p pos, Rewritten p' r := by
  induction depth generalizing isNested p pos ruleId p' pos' with
  | zero => cases e
  | succ depth ih =>
    have hgroup : GroupOk (parseAlternates vocab ruleName depth true) :=
      fun p src id p' pos hp hid e => parseAlternates_grows hr hp hid e
    have hin : GroupRewritten (parseAlternates vocab ruleName depth true)
        (bodyRepetitions vocab ruleName depth true) :=
      fun p src id p' pos hp hid hfree e => ih hp hid hfree e
    unfold parseAlternates at e
    dsimp only at e
    split at e
    · cases e
    next p1 pos1 rule1 h1 =>
    split at e
    · cases e
    next p2 pos2 rule2 h2 =>
    cases e
    rw [bodyRepetitions]
    rw [h1]
    have hf1 := parseSequence_frame hr hgroup h h1
    have hf2 := alternatesLoop_frame hr hgroup hf1.named h2
    have hf : Frame p p2 := hf1.trans hf2 fun _ _ h => h
    -- the rule itself is set at the end
    have hset : Later p2 (p2.addRule ruleId (rule2 ++ [⟨.end_, 0⟩])) :=
      Grows.addRule (.refl hf.named) (hid.trans_le hf.le)
        (fun _ => (hfree.frame hid hf).not_made hf.named) _
    intro r hmem
    rcases mem_append.mp hmem with hmem | hmem
    · exact ((sequenceRepetitions_rewritten hr hgroup hin h (itemOk_start [] 1) h1 r hmem).later
        hf1.named hf2.later).later hf.named hset
    · exact (alternatesRepetitions_rewritten hr hgroup hin hf1.named h2 r hmem).later hf.named hset

theorem ruleRepetitions_rewritten (h : Named p) (e : parseRule vocab p pos = .ok (p', pos')) :
    ∀ r ∈ ruleRepetitions vocab p pos, Rewritten p' r := by
  obtain ⟨name, pos1, pos2, h1, h2, -⟩ := parseRule_ok e
  have hname := not_mem_of_word (parseName_spec h1).2
  obtain ⟨k1, k2, k3, k4, k5⟩ := getSymbolId_spec h.toSymbols name
  unfold ruleRepetitions
  rw [h1]
  exact bodyRepetitions_rewritten hname (getSymbolId_frame h hname).named (k1.lt k3)
    (.inr ⟨name, k3, hname⟩) h2

theorem rulesRepetitions_rewritten {fuel : Nat} (h : Named p)
    (e : parseRules vocab fuel p pos = .ok p') :
    ∀ r ∈ rulesRepetitions vocab fuel p pos, Rewritten p' r := by
  induction fuel generalizing p pos with
  | zero => cases e
  | succ fuel ih =>
    unfold parseRules at e
    split at e
    · next hc =>
      rw [rulesRepetitions, if_pos hc]
      simp
    · next hc =>
      split at e
      · cases e
      next p1 pos1 h1 =>
      rw [rulesRepetitions, if_neg hc, h1]
      have hf := parseRule_later h h1
      intro r hmem
      rcases mem_append.mp hmem with hmem | hmem
      · exact (ruleRepetitions_rewritten h h1 r hmem).later hf.named (parseRules_later hf.named e)
      · exact ih hf.named e r hmem

/-- The repetitions of a text that is accepted are rewritten in its grammar. -/
theorem repetitions_rewritten {text : List UInt8} (e : parse vocab text = .ok p) :
    ∀ r ∈ repetitions vocab text, Rewritten p r := by
  unfold parse at e
  split at e
  · cases e
  next h1 =>
  split at e
  · cases e
    exact rulesRepetitions_rewritten named_empty h1
  · cases e

end Rewritten

/-- The parser ends on every text. In a text that it accepts, what an operator puts in the place of
an item generates the powers of the item from the minimum to the maximum, or all from the minimum on
where the maximum is not used. -/
theorem repetitions_exact (vocab : Tokenize) : (∀ text, parse vocab text ≠ .error .fuel) ∧
      ∀ text p, parse vocab text = .ok p → ∀ r ∈ repetitions vocab text,
        (∀ m, usedMax r.maxTimes = some m → r.minTimes ≤ m) →
        ∀ (C : Type) (acc : List GrammarElement → C → Prop) (w : List C),
          w ∈ elemsLang p.rules acc r.result ↔ ∃ k, r.minTimes ≤ k ∧
            (∀ m, usedMax r.maxTimes = some m → k ≤ m) ∧
            w ∈ elemsLang p.rules acc r.item ^ k :=
  ⟨parse_ends vocab, fun _ _ e r hr hle _ _ w =>
    (repetitions_rewritten e r hr).mem_lang hle w⟩

/-- `root ::= "a"{1,2}`. -/
def onceOrTwice : List UInt8 :=
  [114, 111, 111, 116, 32, 58, 58, 61, 32, 34, 97, 34, 123, 49, 44, 50, 125]

theorem repetitions_exact_onceOrTwice :
    ∃ p r, parse none onceOrTwice = .ok p ∧ r ∈ repetitions none onceOrTwice ∧
      ∀ w : List Nat, w ∈ elemsLang p.rules accepts r.result ↔ ∃ k, 1 ≤ k ∧
        (∀ m, some 2 = some m → k ≤ m) ∧ w ∈ elemsLang p.rules accepts r.item ^ k := by
  let r : Repetition := ⟨[⟨.char, 97⟩], 1, some 2, [⟨.char, 97⟩, ⟨.ruleRef, 1⟩]⟩
  have hr : r ∈ repetitions none onceOrTwice := by decide +kernel
  obtain ⟨p, hp⟩ : ∃ p, parse none onceOrTwice = .ok p := ⟨_, rfl⟩
  refine ⟨p, r, hp, hr, fun w => ?_⟩
  exact (repetitions_exact none).2 onceOrTwice p hp r hr (by decide) Nat accepts w

/-- `root ::= "a"{1,3000}`. -/
def upTo3000 : List UInt8 :=
  [114, 111, 111, 116, 32, 58, 58, 61, 32, 34, 97, 34, 123, 49, 44, 51, 48, 48, 48, 125]

/-- A maximum above the threshold is no maximum. -/
theorem repetitions_upTo3000 : ∃ p r, parse none upTo3000 = .ok p ∧ r ∈ repetitions none upTo3000 ∧
      r.minTimes = 1 ∧ r.maxTimes = some 3000 ∧
      ∃ w : List Nat, w ∈ elemsLang p.rules accepts r.result ∧
        ¬ ∃ k, 1 ≤ k ∧ k ≤ 3000 ∧ w ∈ elemsLang p.rules accepts r.item ^ k := by
  let r : Repetition := ⟨[⟨.char, 97⟩], 1, some 3000, [⟨.char, 97⟩, ⟨.ruleRef, 1⟩]⟩
  have hr : r ∈ repetitions none upTo3000 := by decide +kernel
  obtain ⟨p, hp⟩ : ∃ p, parse none upTo3000 = .ok p := ⟨_, rfl⟩
  -- the words of the item are the one of its character
  have hitem : ∀ w : List Nat, w ∈ elemsLang p.rules accepts r.item ↔ w = [97] := by
    intro w
    have hacc : ∀ c, accepts [⟨.char, 97⟩] c ↔ IsCodePoint c ∧ c ∈ [97] :=
      fun c => (@accepts_class [97] (by simp) c).1
    change w ∈ lang (alts p.rules) accepts [.term [⟨.char, 97⟩]] ↔ _
    rw [mem_lang_term]
    constructor
    · rintro ⟨c, rfl, hc⟩
      rw [mem_singleton.mp ((hacc c).mp hc).2]
    · rintro rfl
      exact ⟨97, rfl, (hacc 97).mpr ⟨by decide, mem_singleton_self 97⟩⟩
  have hpow : ∀ (w : List Nat) (k : Nat),
      w ∈ elemsLang p.rules accepts r.item ^ k ↔ w = List.replicate k 97 := by
    intro w k
    induction k generalizing w with
    | zero => simp
    | succ k ih =>
      rw [pow_succ', Language.mem_mul, replicate_succ]
      constructor
      · rintro ⟨u, hu, v, hv, rfl⟩
        rw [(hitem u).mp hu, (ih v).mp hv]
        rfl
      · rintro rfl
        exact ⟨[97], (hitem _).mpr rfl, _, (ih _).mpr rfl, rfl⟩
  refine ⟨p, r, hp, hr, rfl, rfl, List.replicate 3001 97, ?_, ?_⟩
  · refine ((repetitions_rewritten hp r hr).mem_lang (by decide) _).mpr
      ⟨3001, by decide, by decide, (hpow _ _).mpr rfl⟩
  · rintro ⟨k, -, hk, hw⟩
    have := congrArg List.length ((hpow _ _).mp hw)
    rw [length_replicate, length_replicate] at this
    omega

end BeeLlama.Gbnf
