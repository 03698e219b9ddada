import BeeLlama.Peg.Trie

/-!
# The PEG parsers (`common_peg_arena`, `parser_executor`)

A parser is an entry of the arena, and it names other entries by their index. `terminal` are the
parsers that read the input themselves, `parseWith` those that call other parsers; `parse` is both
together. In a lenient context the input may go on: a parser asks for more input (`needMore`) where
a strict one fails.

The nodes of the syntax tree and the debug output are left out: no parser looks at them.
-/

namespace BeeLlama.Peg

/-- `common_peg_parse_result_type`. -/
inductive ResultType where
  | fail
  | success
  | needMore
  deriving DecidableEq, Repr

/-- `common_peg_parse_result`. -/
structure ParseResult where
  type : ResultType
  start : Nat
  stop : Nat
  deriving DecidableEq, Repr

/-- `common_peg_parse_context`. -/
structure ParseContext where
  input : List UInt8
  lenient : Bool
  deriving DecidableEq, Repr

/-- `common_peg_parser_variant`. A number of `-1` is unbounded. -/
inductive PegParser where
  | epsilon
  | start
  | end_
  | literal (literal : List UInt8)
  | sequence (children : List Nat)
  | choice (children : List Nat)
  | repetition (child : Nat) (minCount maxCount : Int)
  | and_ (child : Nat)
  | not_ (child : Nat)
  | any
  | space
  | chars (ranges : List (Nat × Nat)) (negated : Bool) (minCount maxCount : Int)
  | string (delimiter : UInt8)
  | until_ (delimiters : List (List UInt8))
  | schema (child : Nat)
  | rule (name : String) (child : Nat)
  | ref (name : String)
  | atomic (child : Nat)
  | tag (child : Nat) (tag : String)
  | gbnf (child : Nat)
  | ac (child : Nat)
  deriving DecidableEq, Repr

/-- `common_peg_arena`. -/
structure Arena where
  parsers : List PegParser
  rules : List (String × Nat)
  root : Nat
  deriving DecidableEq, Repr

/-- What ends a parse without a result. -/
inductive PegError where
  /-- `parsers_.at(id)`. -/
  | noParser
  /-- `Rule not found`. -/
  | noRule
  | fuel
  | stop
  deriving DecidableEq, Repr

/-- A failure at the position. -/
def failAt (start : Nat) : ParseResult := ⟨.fail, start, start⟩

/-- At the end of a lenient input more is needed, a strict one fails. -/
def atEnd (ctx : ParseContext) (start pos : Nat) : ParseResult :=
  if ctx.lenient then ⟨.needMore, start, pos⟩ else failAt start

/-! ## Terminals -/

/-- `common_peg_literal_parser`. -/
def parseLiteral (ctx : ParseContext) (start : Nat) : List UInt8 → Nat → ParseResult
  | [], pos => ⟨.success, start, pos⟩
  | b :: literal, pos =>
    match ctx.input[pos]? with
    | none => atEnd ctx start pos
    | some c => if c ≠ b then failAt start else parseLiteral ctx start literal (pos + 1)

/-- `common_peg_any_parser`. -/
def parseAny (ctx : ParseContext) (start : Nat) : ParseResult :=
  match parseUtf8 ctx.input start with
  | .incomplete => atEnd ctx start start
  | .invalid => failAt start
  | .success _ k => ⟨.success, start, start + k⟩

/-- `std::isspace`. -/
def isSpace (c : UInt8) : Bool := c = 32 || (9 ≤ c && c ≤ 13)

/-- `common_peg_space_parser`. -/
def parseSpace (ctx : ParseContext) (start : Nat) : ParseResult :=
  ⟨.success, start, start + ((ctx.input.drop start).takeWhile isSpace).length⟩

/-- The code point is in the class. -/
def classMatches (ranges : List (Nat × Nat)) (negated : Bool) (codepoint : Nat) : Bool :=
  (ranges.any fun r => decide (codepoint ≥ r.1 ∧ codepoint ≤ r.2)) != negated

/-- The loop of `common_peg_chars_parser` and what follows it. -/
def charsLoop (ctx : ParseContext) (ranges : List (Nat × Nat)) (negated : Bool)
    (minCount maxCount : Int) (start : Nat) : Nat → Nat → Nat → ParseResult
  | 0, pos, _ => ⟨.success, start, pos⟩
  | fuel + 1, pos, matchCount =>
    let finish : ParseResult :=
      if (matchCount : Int) < minCount then
        if pos ≥ ctx.input.length ∧ ctx.lenient then ⟨.needMore, start, pos⟩
        else ⟨.fail, start, pos⟩
      else ⟨.success, start, pos⟩
    if maxCount = -1 ∨ (matchCount : Int) < maxCount then
      match parseUtf8 ctx.input pos with
      | .incomplete =>
        if (matchCount : Int) ≥ minCount then ⟨.success, start, pos⟩ else atEnd ctx start pos
      | .invalid =>
        if (matchCount : Int) ≥ minCount then ⟨.success, start, pos⟩ else failAt start
      | .success codepoint k =>
        if classMatches ranges negated codepoint then
          charsLoop ctx ranges negated minCount maxCount start fuel (pos + k) (matchCount + 1)
        else finish
    else finish

/-- `is_hex_digit`. -/
def isHexDigit (c : UInt8) : Bool :=
  (48 ≤ c && c ≤ 57) || (97 ≤ c && c ≤ 102) || (65 ≤ c && c ≤ 70)

/-- The loop of `handle_unicode_escape`. -/
def unicodeEscape (ctx : ParseContext) (start : Nat) : Nat → Nat → ParseResult
  | 0, pos => ⟨.success, start, pos⟩
  | n + 1, pos =>
    match ctx.input[pos]? with
    | none => atEnd ctx start pos
    | some c => if !isHexDigit c then failAt start else unicodeEscape ctx start n (pos + 1)

/-- `handle_escape_sequence`: the result ends where the position is afterwards. -/
def escapeSequence (ctx : ParseContext) (start pos : Nat) (delimiter : UInt8) : ParseResult :=
  match ctx.input[pos + 1]? with
  | none => atEnd ctx start pos
  | some c =>
    if c = delimiter ∨ c ∈ [92, 47, 98, 102, 110, 114, 116] then ⟨.success, start, pos + 2⟩
    else if c = 117 then
      let result := unicodeEscape ctx start 4 (pos + 2)
      if result.type = .needMore then ⟨.needMore, start, pos⟩ else result
    else failAt start

/-- The loop of `common_peg_string_parser`. -/
def stringLoop (ctx : ParseContext) (delimiter : UInt8) (start : Nat) : Nat → Nat → ParseResult
  | 0, pos => atEnd ctx start pos
  | fuel + 1, pos =>
    match ctx.input[pos]? with
    | none => if ctx.lenient then ⟨.needMore, start, pos⟩ else ⟨.fail, start, pos⟩
    | some c =>
      if c = delimiter then ⟨.success, start, pos⟩
      else if c = 92 then
        let result := escapeSequence ctx start pos delimiter
        if result.type = .success then stringLoop ctx delimiter start fuel result.stop else result
      else
        match parseUtf8 ctx.input pos with
        | .incomplete => atEnd ctx start pos
        | .invalid => failAt start
        | .success _ k => stringLoop ctx delimiter start fuel (pos + k)

/-- The loop of `common_peg_until_parser`. -/
def untilLoop (ctx : ParseContext) (matcher : Trie) (start : Nat) : Nat → Nat → ParseResult
  | 0, pos => ⟨.success, start, pos⟩
  | fuel + 1, pos =>
    if pos < ctx.input.length then
      match parseUtf8 ctx.input pos with
      | .incomplete => atEnd ctx start pos
      | .invalid => failAt start
      | .success _ k =>
        match matcher.checkAt ctx.input pos with
        | .completeMatch => ⟨.success, start, pos⟩
        | .partialMatch => ⟨.success, start, pos⟩
        | .noMatch => untilLoop ctx matcher start fuel (pos + k)
    else if pos = ctx.input.length ∧ ctx.lenient then ⟨.needMore, start, pos⟩
    else ⟨.success, start, pos⟩

/-- The parsers that read the input themselves. -/
def terminal (ctx : ParseContext) (p : PegParser) (start : Nat) : ParseResult :=
  match p with
  | .start => if start = 0 then ⟨.success, start, start⟩ else failAt start
  | .end_ => if start ≥ ctx.input.length then ⟨.success, start, start⟩ else failAt start
  | .literal literal => parseLiteral ctx start literal start
  | .any => parseAny ctx start
  | .space => parseSpace ctx start
  | .chars ranges negated minCount maxCount =>
    charsLoop ctx ranges negated minCount maxCount start (ctx.input.length + 1) start 0
  | .string delimiter => stringLoop ctx delimiter start (ctx.input.length + 1) start
  | .until_ delimiters =>
    untilLoop ctx (trieOf delimiters) start (ctx.input.length + 1) start
  | _ => ⟨.success, start, start⟩

/-! ## Parsers that call others -/

/-- `common_peg_sequence_parser`. -/
def sequenceLoop (parse : Nat → Nat → Except PegError ParseResult) (start : Nat) :
    List Nat → Nat → Except PegError ParseResult
  | [], pos => .ok ⟨.success, start, pos⟩
  | child :: children, pos =>
    match parse child pos with
    | .error e => .error e
    | .ok result =>
      match result.type with
      | .fail => .ok ⟨.fail, start, result.stop⟩
      | .needMore => .ok ⟨.needMore, start, result.stop⟩
      | .success => sequenceLoop parse start children result.stop

/-- `common_peg_choice_parser`. -/
def choiceLoop (parse : Nat → Nat → Except PegError ParseResult) (start : Nat) :
    List Nat → Except PegError ParseResult
  | [] => .ok (failAt start)
  | child :: children =>
    match parse child start with
    | .error e => .error e
    | .ok result => if result.type ≠ .fail then .ok result else choiceLoop parse start children

/-- What follows the loop of `common_peg_repetition_parser`: were there enough matches? -/
def repetitionFinish (ctx : ParseContext) (minCount : Int) (start pos matchCount : Nat) :
    ParseResult :=
  if minCount > 0 ∧ (matchCount : Int) < minCount then
    if pos ≥ ctx.input.length ∧ ctx.lenient then ⟨.needMore, start, pos⟩ else ⟨.fail, start, pos⟩
  else ⟨.success, start, pos⟩

/-- The loop of `common_peg_repetition_parser`. -/
def repetitionLoop (parse : Nat → Except PegError ParseResult) (ctx : ParseContext)
    (minCount maxCount : Int) (start : Nat) : Nat → Nat → Nat → Except PegError ParseResult
  | 0, _, _ => .error .fuel
  | fuel + 1, pos, matchCount =>
    if (maxCount = -1 ∨ (matchCount : Int) < maxCount) ∧ pos < ctx.input.length then
      match parse pos with
      | .error e => .error e
      | .ok result =>
        match result.type with
        | .success =>
          if result.stop = pos then .ok (repetitionFinish ctx minCount start pos matchCount)
          else repetitionLoop parse ctx minCount maxCount start fuel result.stop (matchCount + 1)
        | .needMore => .ok ⟨.needMore, start, result.stop⟩
        | .fail => .ok (repetitionFinish ctx minCount start pos matchCount)
    else .ok (repetitionFinish ctx minCount start pos matchCount)

/-- `common_peg_arena::parse`, with the parsers that read the input as a parameter. -/
def parseWith (arena : Arena) (ctx : ParseContext)
    (leaf : PegParser → Nat → Except PegError ParseResult) :
    Nat → Nat → Nat → Except PegError ParseResult
  | 0, _, _ => .error .fuel
  | fuel + 1, id, start =>
    let parse := parseWith arena ctx leaf fuel
    match arena.parsers[id]? with
    | none => .error .noParser
    | some p =>
      match p with
      | .sequence children => sequenceLoop parse start children start
      | .choice children => choiceLoop parse start children
      | .repetition child minCount maxCount =>
        repetitionLoop (parse child) ctx minCount maxCount start (ctx.input.length + 1) start 0
      | .and_ child =>
        match parse child start with
        | .error e => .error e
        | .ok result => .ok ⟨result.type, start, start⟩
      | .not_ child =>
        match parse child start with
        | .error e => .error e
        | .ok result =>
          match result.type with
          | .success => .ok (failAt start)
          | .needMore => .ok ⟨.needMore, start, start⟩
          | .fail => .ok ⟨.success, start, start⟩
      | .ref name =>
        match arena.rules.lookup name with
        | none => .error .noRule
        | some id => parse id start
      | .schema child => parse child start
      | .rule _ child => parse child start
      | .atomic child => parse child start
      | .tag child _ => parse child start
      | .gbnf child => parse child start
      | .ac child => parse child start
      | terminal => leaf terminal start

/-- `common_peg_arena::parse`. -/
def parse (arena : Arena) (ctx : ParseContext) (fuel id start : Nat) :
    Except PegError ParseResult :=
  parseWith arena ctx (fun p start => .ok (terminal ctx p start)) fuel id start

end BeeLlama.Peg
