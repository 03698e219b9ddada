import BeeLlama.Grammar.Element

/-!
# The parser of GBNF (`llama_grammar_parser`)

The text is a string of bytes without a zero byte, and a position is what is left of it, so that
`*pos` at the end is zero. The symbol ids are a map from names, in which only the lookups matter.

A token in angle brackets that is no number is tokenized, which is a parameter (`Tokenize`). The
loop over the optional copies of an item counts as the code does: a maximum below the minimum wraps
around.
-/

namespace BeeLlama.Gbnf

/-- The errors that the parser throws. -/
inductive GbnfError where
  /-- `expecting 2 hex chars at`. -/
  | hexChars (size : Nat)
  /-- `expecting name at`. -/
  | name
  /-- `expecting integer at`. -/
  | integer
  /-- `unknown escape at`. -/
  | unknownEscape
  /-- `unexpected end of input`. -/
  | unexpectedEnd
  /-- `expecting '<' at`, and the other characters that are expected. -/
  | expecting (c : UInt8)
  /-- `no vocab to parse token at`. -/
  | noVocab
  /-- `invalid token`. -/
  | invalidToken
  /-- What `std::stoul` and `std::stoull` throw. -/
  | outOfRange
  /-- `expecting preceding item to */+/?/{ at`. -/
  | precedingItem
  /-- `number of rules that are going to be repeated ... exceeds sane defaults`. -/
  | tooManyRules
  /-- `number of repetitions exceeds sane defaults`. -/
  | tooManyRepetitions
  /-- `expecting an int at`. -/
  | int
  /-- `expecting ::= at`. -/
  | assign
  /-- `expecting newline or end at`. -/
  | newline
  /-- `Undefined rule` and `Undefined rule identifier`. -/
  | undefinedRule
  | fuel
  deriving DecidableEq, Repr

/-- How a vocabulary tokenizes the text of a token. -/
abbrev Tokenize := Option (List UInt8 → List Nat)

/-- `MAX_REPETITION_THRESHOLD`. -/
def maxRepetitionThreshold : Nat := 2000

/-- `*pos`. -/
def cur (pos : List UInt8) : UInt8 := pos.headD 0

/-! ## Characters, names and numbers -/

/-- The table of `decode_utf8`. -/
def utf8Length (firstByte : UInt8) : Nat :=
  let highbits := firstByte.toNat / 16
  if highbits < 12 then 1 else if highbits < 14 then 2 else if highbits < 15 then 3 else 4

/-- The loop of `decode_utf8`. -/
def decodeUtf8Loop : Nat → Nat → List UInt8 → Nat × List UInt8
  | 0, value, pos => (value, pos)
  | _ + 1, value, [] => (value, [])
  | n + 1, value, b :: pos =>
    if b = 0 then (value, b :: pos)
    else decodeUtf8Loop n (value * 64 + b.toNat % 64) pos

/-- `decode_utf8`, which does not check the bytes. -/
def decodeUtf8 : List UInt8 → Nat × List UInt8
  | [] => (0, [])
  | firstByte :: pos =>
    let len := utf8Length firstByte
    decodeUtf8Loop (len - 1) (firstByte.toNat % 2 ^ (8 - len)) pos

/-- `is_digit_char`. -/
def isDigitChar (c : UInt8) : Bool := 48 ≤ c && c ≤ 57

/-- `is_word_char`. -/
def isWordChar (c : UInt8) : Bool :=
  (97 ≤ c && c ≤ 122) || (65 ≤ c && c ≤ 90) || c == 45 || isDigitChar c

/-- The value of a hex digit. -/
def hexValue (c : UInt8) : Option Nat :=
  if 97 ≤ c ∧ c ≤ 102 then some (c.toNat - 97 + 10)
  else if 65 ≤ c ∧ c ≤ 70 then some (c.toNat - 65 + 10)
  else if 48 ≤ c ∧ c ≤ 57 then some (c.toNat - 48)
  else none

/-- The loop of `parse_hex`. -/
def parseHexLoop (size : Nat) : Nat → Nat → List UInt8 → Except GbnfError (Nat × List UInt8)
  | 0, value, pos => .ok (value, pos)
  | _ + 1, _, [] => .error (.hexChars size)
  | n + 1, value, c :: pos =>
    match hexValue c with
    | none => .error (.hexChars size)
    | some d => parseHexLoop size n ((value * 16 + d) % 2 ^ 32) pos

/-- `parse_hex`. -/
def parseHex (src : List UInt8) (size : Nat) : Except GbnfError (Nat × List UInt8) :=
  parseHexLoop size size 0 src

/-- `parse_space`, in a comment or not. -/
def parseSpaceLoop (newlineOk : Bool) : Bool → List UInt8 → List UInt8
  | _, [] => []
  | comment, c :: pos =>
    if comment ∧ c ≠ 0 ∧ c ≠ 13 ∧ c ≠ 10 then parseSpaceLoop newlineOk true pos
    else if c = 32 ∨ c = 9 then parseSpaceLoop newlineOk false pos
    else if c = 35 then parseSpaceLoop newlineOk true pos
    else if newlineOk ∧ (c = 13 ∨ c = 10) then parseSpaceLoop newlineOk false pos
    else c :: pos

/-- `parse_space`. -/
def parseSpace (src : List UInt8) (newlineOk : Bool) : List UInt8 :=
  parseSpaceLoop newlineOk false src

/-- `parse_name`: the name, and the position behind it. -/
def parseName (src : List UInt8) : Except GbnfError (List UInt8 × List UInt8) :=
  let name := src.takeWhile isWordChar
  if name = [] then .error .name else .ok (name, src.dropWhile isWordChar)

/-- `parse_int` with `std::stoull`. -/
def parseInt (src : List UInt8) : Except GbnfError (Nat × List UInt8) :=
  let digits := src.takeWhile isDigitChar
  let value := digits.foldl (fun v c => v * 10 + (c.toNat - 48)) 0
  if digits = [] then .error .integer
  else if value ≥ 2 ^ 64 then .error .outOfRange
  else .ok (value, src.dropWhile isDigitChar)

/-- `parse_char`. -/
def parseChar (src : List UInt8) : Except GbnfError (Nat × List UInt8) :=
  if cur src = 92 then
    let c := cur src.tail
    let rest := src.drop 2
    if c = 120 then parseHex rest 2
    else if c = 117 then parseHex rest 4
    else if c = 85 then parseHex rest 8
    else if c = 116 then .ok (9, rest)
    else if c = 114 then .ok (13, rest)
    else if c = 110 then .ok (10, rest)
    else if c = 92 ∨ c = 34 ∨ c = 91 ∨ c = 93 then .ok (c.toNat, rest)
    else .error .unknownEscape
  else if cur src ≠ 0 then .ok (decodeUtf8 src)
  else .error .unexpectedEnd

/-- `parse_token`. -/
def parseToken (vocab : Tokenize) (src : List UInt8) : Except GbnfError (Nat × List UInt8) :=
  if cur src ≠ 60 then .error (.expecting 60)
  else
    let pos := src.tail
    if cur pos = 91 then
      match parseInt pos.tail with
      | .error e => .error e
      | .ok (id, pos) =>
        if cur pos ≠ 93 then .error (.expecting 93)
        else if cur pos.tail ≠ 62 then .error (.expecting 62)
        else .ok (id % 2 ^ 32, pos.drop 2)
    else
      match vocab with
      | none => .error .noVocab
      | some tokenize =>
        let text := pos.takeWhile (fun c => c ≠ 62)
        let pos := pos.dropWhile (fun c => c ≠ 62)
        if cur pos ≠ 62 then .error (.expecting 62)
        else
          match tokenize (60 :: text ++ [62]) with
          | [token] => .ok (token, pos.tail)
          | _ => .error .invalidToken

/-! ## The state of the parser -/

/-- `llama_grammar_parser`. -/
structure GbnfParser where
  symbolIds : List (List UInt8 × Nat) := []
  rules : GrammarRules := []
  deriving DecidableEq, Repr

/-- `std::to_string`. -/
def toString (n : Nat) : List UInt8 := (Nat.toDigits 10 n).map fun c => UInt8.ofNat c.toNat

namespace GbnfParser

/-- `get_symbol_id`. -/
def getSymbolId (p : GbnfParser) (name : List UInt8) : GbnfParser × Nat :=
  match p.symbolIds.lookup name with
  | some id => (p, id)
  | none =>
    ({ p with symbolIds := p.symbolIds ++ [(name, p.symbolIds.length)] }, p.symbolIds.length)

/-- `generate_symbol_id`. -/
def generateSymbolId (p : GbnfParser) (baseName : List UInt8) : GbnfParser × Nat :=
  let nextId := p.symbolIds.length
  let name := baseName ++ 95 :: toString nextId
  let ids := p.symbolIds.filter (fun s => s.1 ≠ name)
  ({ p with symbolIds := ids ++ [(name, nextId)] }, nextId)

/-- `add_rule`. -/
def addRule (p : GbnfParser) (ruleId : Nat) (rule : GrammarRule) : GbnfParser :=
  let rules := p.rules ++ List.replicate (ruleId + 1 - p.rules.length) []
  { p with rules := rules.set ruleId rule }

end GbnfParser

/-- The variables of `parse_sequence`. -/
structure SeqState where
  rule : GrammarRule
  lastSymStart : Nat
  nPrevRules : Nat
  deriving DecidableEq, Repr

/-- A new item, of one rule. -/
def SeqState.push (st : SeqState) (elems : List GrammarElement) : SeqState :=
  ⟨st.rule ++ elems, st.rule.length, 1⟩

/-- The loop of `handle_repetitions` over the optional copies: the id of the last rule. -/
def repeatRules (ruleName : List UInt8) (prevRule : GrammarRule) (noMax : Bool) :
    Nat → Nat → GbnfParser → Nat → GbnfParser × Nat
  | 0, _, p, last => (p, last)
  | n + 1, i, p, last =>
    let (p, recRuleId) := p.generateSymbolId ruleName
    let ref : List GrammarElement :=
      if i > 0 ∨ noMax then [⟨.ruleRef, if noMax then recRuleId else last⟩] else []
    let p := p.addRule recRuleId (prevRule ++ ref ++ [⟨.alt, 0⟩, ⟨.end_, 0⟩])
    repeatRules ruleName prevRule noMax n (i + 1) p recRuleId

/-- `handle_repetitions`. Without a maximum `max_times` is `UINT64_MAX`. -/
def handleRepetitions (ruleName : List UInt8) (p : GbnfParser) (st : SeqState) (minTimes : Nat)
    (maxTimes : Option Nat) : Except GbnfError (GbnfParser × SeqState) :=
  if st.lastSymStart = st.rule.length then .error .precedingItem
  else
    let prevRule := st.rule.drop st.lastSymStart
    let totalRules :=
      match maxTimes with
      | some m => if m > 0 then m else if minTimes > 0 then minTimes else 1
      | none => if minTimes > 0 then minTimes else 1
    if st.nPrevRules * totalRules ≥ maxRepetitionThreshold then .error .tooManyRules
    else
      let rule :=
        if minTimes = 0 then st.rule.take st.lastSymStart
        else st.rule ++ (List.replicate (minTimes - 1) prevRule).flatten
      let nOpt :=
        match maxTimes with
        | some m => (m + 2 ^ 64 - minTimes) % 2 ^ 64
        | none => 1
      let (p, last) := repeatRules ruleName prevRule maxTimes.isNone nOpt 0 p 0
      let rule := if nOpt > 0 then rule ++ [⟨.ruleRef, last⟩] else rule
      .ok (p, ⟨rule, st.lastSymStart, st.nPrevRules * totalRules⟩)

/-! ## Items -/

/-- The loop over a literal string. -/
def literalLoop : Nat → List UInt8 → List GrammarElement →
    Except GbnfError (List GrammarElement × List UInt8)
  | 0, _, _ => .error .fuel
  | fuel + 1, pos, elems =>
    if cur pos = 34 then .ok (elems, pos)
    else if cur pos = 0 then .error .unexpectedEnd
    else
      match parseChar pos with
      | .error e => .error e
      | .ok (c, pos) => literalLoop fuel pos (elems ++ [⟨.char, c⟩])

/-- The loop over character ranges. -/
def rangeLoop (startType : GreType) : Nat → List UInt8 → List GrammarElement →
    Except GbnfError (List GrammarElement × List UInt8)
  | 0, _, _ => .error .fuel
  | fuel + 1, pos, elems =>
    if cur pos = 93 then .ok (elems, pos)
    else if cur pos = 0 then .error .unexpectedEnd
    else
      match parseChar pos with
      | .error e => .error e
      | .ok (c, pos) =>
        let type : GreType := if elems = [] then startType else .charAlt
        let elems := elems ++ [⟨type, c⟩]
        if cur pos = 45 ∧ cur pos.tail ≠ 93 then
          if cur pos.tail = 0 then .error .unexpectedEnd
          else
            match parseChar pos.tail with
            | .error e => .error e
            | .ok (c, pos) => rangeLoop startType fuel pos (elems ++ [⟨.charRngUpper, c⟩])
        else rangeLoop startType fuel pos elems

/-- The numbers between braces: minimum and maximum, and the position behind the brace. -/
def parseBraces (pos : List UInt8) (isNested : Bool) :
    Except GbnfError (Nat × Option Nat × List UInt8) :=
  if !isDigitChar (cur pos) then .error .int
  else
    match parseInt pos with
    | .error e => .error e
    | .ok (minTimes, pos) =>
      let pos := parseSpace pos isNested
      if cur pos = 125 then .ok (minTimes, some minTimes, parseSpace pos.tail isNested)
      else if cur pos = 44 then
        let pos := parseSpace pos.tail isNested
        let max : Except GbnfError (Option Nat × List UInt8) :=
          if isDigitChar (cur pos) then
            match parseInt pos with
            | .error e => .error e
            | .ok (m, pos) => .ok (if m = 2 ^ 64 - 1 then none else some m, parseSpace pos isNested)
          else .ok (none, pos)
        match max with
        | .error e => .error e
        | .ok (maxTimes, pos) =>
          if cur pos ≠ 125 then .error (.expecting 125)
          else .ok (minTimes, maxTimes, parseSpace pos.tail isNested)
      else .error (.expecting 44)

/-- The bounds of the numbers between braces. -/
def checkRepetitions (minTimes : Nat) (maxTimes : Option Nat) :
    Except GbnfError (Nat × Option Nat) :=
  if minTimes > maxRepetitionThreshold then .error .tooManyRepetitions
  else .ok (minTimes, maxTimes.filter (fun m => m ≤ maxRepetitionThreshold))

section Sequence

variable (vocab : Tokenize) (ruleName : List UInt8) (isNested : Bool)
  (group : GbnfParser → List UInt8 → Nat → Except GbnfError (GbnfParser × List UInt8))

/-- One round of the loop of `parse_sequence`, or nothing where the loop ends. -/
def parseItem (p : GbnfParser) (pos : List UInt8) (st : SeqState) :
    Except GbnfError (Option (GbnfParser × List UInt8 × SeqState)) :=
  let c := cur pos
  let repetitions (pos : List UInt8) (minTimes : Nat) (maxTimes : Option Nat) :=
    match handleRepetitions ruleName p st minTimes maxTimes with
    | .error e => .error e
    | .ok (p, st) => .ok (some (p, pos, st))
  if c = 34 then
    match literalLoop pos.length pos.tail [] with
    | .error e => .error e
    | .ok (elems, pos) => .ok (some (p, parseSpace pos.tail isNested, st.push elems))
  else if c = 91 then
    let negated := cur pos.tail = 94
    let startType : GreType := if negated then .charNot else .char
    match rangeLoop startType pos.length (if negated then pos.drop 2 else pos.tail) [] with
    | .error e => .error e
    | .ok (elems, pos) => .ok (some (p, parseSpace pos.tail isNested, st.push elems))
  else if c = 60 ∨ c = 33 then
    match parseToken vocab (if c = 33 then pos.tail else pos) with
    | .error e => .error e
    | .ok (token, pos) =>
      .ok (some (p, parseSpace pos isNested,
        st.push [⟨if c = 33 then .tokenNot else .token, token⟩]))
  else if isWordChar c then
    match parseName pos with
    | .error e => .error e
    | .ok (name, pos) =>
      let (p, refRuleId) := p.getSymbolId name
      .ok (some (p, parseSpace pos isNested, st.push [⟨.ruleRef, refRuleId⟩]))
  else if c = 40 then
    let nRulesBefore := p.symbolIds.length
    let (p, subRuleId) := p.generateSymbolId ruleName
    match group p (parseSpace pos.tail true) subRuleId with
    | .error e => .error e
    | .ok (p, pos) =>
      let st : SeqState := ⟨st.rule ++ [⟨.ruleRef, subRuleId⟩], st.rule.length,
        max 1 (p.symbolIds.length - nRulesBefore)⟩
      if cur pos ≠ 41 then .error (.expecting 41)
      else .ok (some (p, parseSpace pos.tail isNested, st))
  else if c = 46 then .ok (some (p, parseSpace pos.tail isNested, st.push [⟨.charAny, 0⟩]))
  else if c = 42 then repetitions (parseSpace pos.tail isNested) 0 none
  else if c = 43 then repetitions (parseSpace pos.tail isNested) 1 none
  else if c = 63 then repetitions (parseSpace pos.tail isNested) 0 (some 1)
  else if c = 123 then
    match parseBraces (parseSpace pos.tail isNested) isNested with
    | .error e => .error e
    | .ok (minTimes, maxTimes, pos) =>
      match checkRepetitions minTimes maxTimes with
      | .error e => .error e
      | .ok (minTimes, maxTimes) => repetitions pos minTimes maxTimes
  else .ok none

/-- The loop of `parse_sequence`. -/
def sequenceLoop : Nat → GbnfParser → List UInt8 → SeqState →
    Except GbnfError (GbnfParser × List UInt8 × GrammarRule)
  | 0, _, _, _ => .error .fuel
  | fuel + 1, p, pos, st =>
    match parseItem vocab ruleName isNested group p pos st with
    | .error e => .error e
    | .ok none => .ok (p, pos, st.rule)
    | .ok (some (p, pos, st)) => sequenceLoop fuel p pos st

/-- `parse_sequence`. -/
def parseSequence (p : GbnfParser) (src : List UInt8) (rule : GrammarRule) :
    Except GbnfError (GbnfParser × List UInt8 × GrammarRule) :=
  sequenceLoop vocab ruleName isNested group (src.length + 1) p src ⟨rule, rule.length, 1⟩

/-- The loop of `parse_alternates`. -/
def alternatesLoop : Nat → GbnfParser → List UInt8 → GrammarRule →
    Except GbnfError (GbnfParser × List UInt8 × GrammarRule)
  | 0, _, _, _ => .error .fuel
  | fuel + 1, p, pos, rule =>
    if cur pos = 124 then
      match parseSequence vocab ruleName isNested group p (parseSpace pos.tail true)
        (rule ++ [⟨.alt, 0⟩]) with
      | .error e => .error e
      | .ok (p, pos, rule) => alternatesLoop fuel p pos rule
    else .ok (p, pos, rule)

end Sequence

/-- `parse_alternates`. -/
def parseAlternates (vocab : Tokenize) (ruleName : List UInt8) :
    Nat → Bool → GbnfParser → List UInt8 → Nat → Except GbnfError (GbnfParser × List UInt8)
  | 0, _, _, _, _ => .error .fuel
  | depth + 1, isNested, p, src, ruleId =>
    let group := parseAlternates vocab ruleName depth true
    match parseSequence vocab ruleName isNested group p src [] with
    | .error e => .error e
    | .ok (p, pos, rule) =>
      match alternatesLoop vocab ruleName isNested group (pos.length + 1) p pos rule with
      | .error e => .error e
      | .ok (p, pos, rule) => .ok (p.addRule ruleId (rule ++ [⟨.end_, 0⟩]), pos)

/-- `parse_rule`. -/
def parseRule (vocab : Tokenize) (p : GbnfParser) (src : List UInt8) :
    Except GbnfError (GbnfParser × List UInt8) :=
  match parseName src with
  | .error e => .error e
  | .ok (name, pos) =>
    let pos := parseSpace pos false
    let (p, ruleId) := p.getSymbolId name
    if ¬ (cur pos = 58 ∧ cur pos.tail = 58 ∧ cur (pos.drop 2) = 61) then .error .assign
    else
      let pos := parseSpace (pos.drop 3) true
      match parseAlternates vocab name (pos.length + 1) false p pos ruleId with
      | .error e => .error e
      | .ok (p, pos) =>
        if cur pos = 13 then
          .ok (p, parseSpace (if cur pos.tail = 10 then pos.drop 2 else pos.tail) true)
        else if cur pos = 10 then .ok (p, parseSpace pos.tail true)
        else if cur pos ≠ 0 then .error .newline
        else .ok (p, parseSpace pos true)

/-- The loop of `parse` over the rules. -/
def parseRules (vocab : Tokenize) : Nat → GbnfParser → List UInt8 → Except GbnfError GbnfParser
  | 0, _, _ => .error .fuel
  | fuel + 1, p, pos =>
    if cur pos = 0 then .ok p
    else
      match parseRule vocab p pos with
      | .error e => .error e
      | .ok (p, pos) => parseRules vocab fuel p pos

/-- Every rule is defined, and every reference names a rule that is. -/
def allDefined (rules : GrammarRules) : Bool :=
  rules.all fun rule => !rule.isEmpty && rule.all fun elem =>
    decide (elem.type ≠ .ruleRef) || !(rules.getD elem.value []).isEmpty

/-- `llama_grammar_parser::parse`: the parser after a text that it accepts. -/
def parse (vocab : Tokenize) (src : List UInt8) : Except GbnfError GbnfParser :=
  match parseRules vocab (src.length + 1) {} (parseSpace src true) with
  | .error e => .error e
  | .ok p => if allDefined p.rules then .ok p else .error .undefinedRule

end BeeLlama.Gbnf
