import BeeLlama.Lib.Cfg
import BeeLlama.Lib.Worklist

/-!
# Grammars (`llama_grammar`)

A rule is a vector of elements: the alternatives one after the other, divided by
`LLAMA_GRETYPE_ALT` and closed by `LLAMA_GRETYPE_END`. A pushdown stack is a vector of pointers to
elements. This module has the elements, the match of a character, `llama_grammar_advance_stack`,
`llama_grammar_accept`, the search for left recursion and `llama_grammar_init_impl`.

A pointer is the index of a rule and an index into the rule. A stack is a list with its top, the
back of the vector, first. A read past the end of a rule gives `LLAMA_GRETYPE_END`.
`llama_grammar_advance_stack` may run forever: its loop has fuel, and `fuel` is the error of a loop
that did not end.
-/

namespace BeeLlama

/-- `llama_gretype`. -/
inductive GreType where
  | end_
  | alt
  | ruleRef
  | char
  | charNot
  | charRngUpper
  | charAlt
  | charAny
  | token
  | tokenNot
  deriving DecidableEq, Repr

/-- `llama_grammar_element`. -/
structure GrammarElement where
  type : GreType
  value : Nat := 0
  deriving DecidableEq, Repr

/-- `llama_grammar_rule`. -/
abbrev GrammarRule := List GrammarElement

/-- `llama_grammar_rules`. -/
abbrev GrammarRules := List GrammarRule

/-- A pointer to an element. -/
structure ElementPtr where
  rule : Nat
  idx : Nat
  deriving DecidableEq, Repr

/-- `pos + n`. -/
def ElementPtr.add (p : ElementPtr) (n : Nat) : ElementPtr := ⟨p.rule, p.idx + n⟩

/-- `llama_grammar_stack`, with the top first. -/
abbrev GrammarStack := List ElementPtr

/-- `llama_grammar_stacks`. -/
abbrev GrammarStacks := List GrammarStack

/-- How a call ends without a result. -/
inductive GrammarError where
  /-- The loop of `llama_grammar_advance_stack` used up its fuel. -/
  | fuel
  /-- `GGML_ASSERT` or `GGML_ABORT`. -/
  | abort
  /-- `Unexpected empty grammar stack after accepting piece`. -/
  | emptyStack
  deriving DecidableEq, Repr

namespace Grammar

/-- The elements from the pointer on. -/
def suffix (rules : GrammarRules) (p : ElementPtr) : List GrammarElement :=
  (rules.getD p.rule []).drop p.idx

/-- `*pos`. -/
def elem (rules : GrammarRules) (p : ElementPtr) : GrammarElement :=
  (suffix rules p).headD ⟨.end_, 0⟩

/-- `llama_grammar_is_end_of_sequence`. -/
def isEndOfSequence (e : GrammarElement) : Bool :=
  match e.type with
  | .end_ => true
  | .alt => true
  | _ => false

/-! ## Characters -/

/-- `pos->type == LLAMA_GRETYPE_CHAR || pos->type == LLAMA_GRETYPE_CHAR_ANY`. -/
def isPositiveChar (e : GrammarElement) : Bool :=
  decide (e.type = .char ∨ e.type = .charAny)

/-- `pos->type == LLAMA_GRETYPE_CHAR_ALT`. -/
def isCharAlt (es : List GrammarElement) : Bool :=
  match es with
  | [] => false
  | e :: _ => decide (e.type = .charAlt)

/-- The loop of `llama_grammar_match_char`: whether the character was found, and how many elements
the loop has passed. -/
def matchCharLoop (chr : Nat) : List GrammarElement → Bool × Nat
  | [] => (false, 0)
  | [e] => (decide (e.type = .charAny) || decide (e.value = chr), 1)
  | e :: u :: es =>
    if u.type = .charRngUpper then
      let r := if isCharAlt es then matchCharLoop chr es else (false, 0)
      (decide (e.value ≤ chr ∧ chr ≤ u.value) || r.1, r.2 + 2)
    else
      let r := if isCharAlt (u :: es) then matchCharLoop chr (u :: es) else (false, 0)
      ((decide (e.type = .charAny) || decide (e.value = chr)) || r.1, r.2 + 1)

/-- `llama_grammar_match_char`: whether the character satisfies the range, and the pointer behind
the range. -/
def matchChar (rules : GrammarRules) (pos : ElementPtr) (chr : Nat) :
    Except GrammarError (Bool × ElementPtr) :=
  let e := elem rules pos
  if isPositiveChar e || decide (e.type = .charNot) then
    let r := matchCharLoop chr (suffix rules pos)
    .ok (r.1 == isPositiveChar e, pos.add r.2)
  else .error .abort

/-! ## `llama_grammar_advance_stack` -/

/-- The loop `while (!llama_grammar_is_end_of_sequence(subpos)) subpos++` and the step over
`LLAMA_GRETYPE_ALT`, until the end of the rule. -/
def scanAlternates : List GrammarElement → Nat → List Nat
  | [], _ => []
  | e :: es, i =>
    match e.type with
    | .end_ => []
    | .alt => (i + 1) :: scanAlternates es (i + 1)
    | _ => scanAlternates es (i + 1)

/-- Where the alternatives of a rule start. -/
def altStarts (rule : GrammarRule) : List Nat := 0 :: scanAlternates rule 0

/-- The stack with the pointer on top, unless that is the end of an alternative. -/
def pushUnlessEnd (rules : GrammarRules) (pos : ElementPtr) (stack : GrammarStack) :
    GrammarStack :=
  if isEndOfSequence (elem rules pos) then stack else pos :: stack

/-- What `llama_grammar_advance_stack` does with a stack: it is a result (`none`), or it is
replaced by the stacks for the alternatives of the rule on top. -/
def expandStack (rules : GrammarRules) : GrammarStack → Except GrammarError (Option GrammarStacks)
  | [] => .ok none
  | pos :: rest =>
    match (elem rules pos).type with
    | .ruleRef =>
      let ruleId := (elem rules pos).value
      .ok (some ((altStarts (rules.getD ruleId [])).map fun subpos =>
        pushUnlessEnd rules ⟨ruleId, subpos⟩ (pushUnlessEnd rules (pos.add 1) rest)))
    | .char => .ok none
    | .charNot => .ok none
    | .charAny => .ok none
    | .token => .ok none
    | .tokenNot => .ok none
    | _ => .error .abort

/-- `llama_grammar_advance_stack`. -/
def advanceStack (rules : GrammarRules) (fuel : Nat) (stack : GrammarStack)
    (newStacks : GrammarStacks) : Except GrammarError GrammarStacks :=
  Worklist.search (expandStack rules) .fuel fuel [stack] [] newStacks

/-! ## `llama_grammar_accept` -/

/-- `llama_grammar_accept_chr`. -/
def acceptChr (rules : GrammarRules) (fuel : Nat) (stack : GrammarStack) (chr : Nat)
    (newStacks : GrammarStacks) : Except GrammarError GrammarStacks :=
  match stack with
  | [] => .ok newStacks
  | pos :: rest =>
    if (elem rules pos).type = .token ∨ (elem rules pos).type = .tokenNot then .ok newStacks
    else
      match matchChar rules pos chr with
      | .error e => .error e
      | .ok (found, after) =>
        if found then advanceStack rules fuel (pushUnlessEnd rules after rest) newStacks
        else .ok newStacks

/-- The loop over the stacks of a character. -/
def acceptStacks (rules : GrammarRules) (fuel : Nat) (chr : Nat) :
    GrammarStacks → GrammarStacks → Except GrammarError GrammarStacks
  | [], newStacks => .ok newStacks
  | stack :: curStacks, newStacks =>
    match acceptChr rules fuel stack chr newStacks with
    | .error e => .error e
    | .ok newStacks => acceptStacks rules fuel chr curStacks newStacks

/-- `llama_grammar_accept`: the stacks after the character. -/
def accept (rules : GrammarRules) (fuel : Nat) (curStacks : GrammarStacks) (chr : Nat) :
    Except GrammarError GrammarStacks :=
  acceptStacks rules fuel chr curStacks []

/-- `llama_grammar_accept` for each character of a word. -/
def acceptWord (rules : GrammarRules) (fuel : Nat) :
    List Nat → GrammarStacks → Except GrammarError GrammarStacks
  | [], curStacks => .ok curStacks
  | chr :: w, curStacks =>
    match accept rules fuel curStacks chr with
    | .error e => .error e
    | .ok curStacks => acceptWord rules fuel w curStacks

/-! ## `llama_grammar_detect_left_recursion` -/

/-- The vectors of `llama_grammar_detect_left_recursion`. -/
structure Detect where
  visited : Nat → Bool := fun _ => false
  inProgress : Nat → Bool := fun _ => false
  mayBeEmpty : Nat → Bool := fun _ => false

/-- The first loop: some alternative has no element. -/
def hasEmptyAlternate : List GrammarElement → Bool → Bool
  | [], _ => false
  | e :: es, atRuleStart =>
    if isEndOfSequence e then (if atRuleStart then true else hasEmptyAlternate es true)
    else hasEmptyAlternate es false

/-- The second loop, with the recursive call as a parameter. -/
def detectLoop (detect : Nat → Detect → Option (Bool × Detect)) :
    List GrammarElement → Bool → Detect → Option (Bool × Detect)
  | [], _, st => some (false, st)
  | e :: es, recurse, st =>
    if e.type = .ruleRef ∧ recurse = true then
      match detect e.value st with
      | none => none
      | some (true, st) => some (true, st)
      | some (false, st) => detectLoop detect es (st.mayBeEmpty e.value) st
    else detectLoop detect es (isEndOfSequence e) st

/-- `llama_grammar_detect_left_recursion`. The depth of the recursion is at most the number of
rules, since a rule in progress ends it. -/
def detectLeftRecursion (rules : GrammarRules) : Nat → Nat → Detect → Option (Bool × Detect)
  | 0, _, _ => none
  | depth + 1, r, st =>
    if st.inProgress r then some (true, st)
    else
      let rule := rules.getD r []
      let st := { st with inProgress := Function.update st.inProgress r true }
      let st := if hasEmptyAlternate rule true then
          { st with mayBeEmpty := Function.update st.mayBeEmpty r true }
        else st
      match detectLoop (detectLeftRecursion rules depth) rule true st with
      | none => none
      | some (true, st) => some (true, st)
      | some (false, st) =>
        some (false, { st with
            inProgress := Function.update st.inProgress r false
            visited := Function.update st.visited r true })

/-- The loop over the rules in `llama_grammar_init_impl`. -/
def detectRules (rules : GrammarRules) : List Nat → Detect → Option Bool
  | [], _ => some false
  | r :: rs, st =>
    if st.visited r then detectRules rules rs st
    else
      match detectLeftRecursion rules (rules.length + 1) r st with
      | none => none
      | some (true, _) => some true
      | some (false, st) => detectRules rules rs st

/-- The check for left recursion of `llama_grammar_init_impl`. -/
def detectAll (rules : GrammarRules) : Option Bool :=
  detectRules rules (List.range rules.length) {}

/-! ## `llama_grammar_init_impl` -/

/-- A rule is copied up to `LLAMA_GRETYPE_END`. -/
def copyRule (rule : List GrammarElement) : GrammarRule :=
  rule.takeWhile (fun e => e.type ≠ .end_) ++ [⟨.end_, 0⟩]

/-- All rule references point to rules. -/
def refsValid (rules : GrammarRules) : Bool :=
  rules.all fun rule => rule.all fun e => e.type ≠ .ruleRef || decide (e.value < rules.length)

/-- The loop over the alternatives of the start rule. -/
def initStacks (rules : GrammarRules) (fuel start : Nat) :
    List Nat → GrammarStacks → Except GrammarError GrammarStacks
  | [], newStacks => .ok newStacks
  | pos :: starts, newStacks =>
    match advanceStack rules fuel (pushUnlessEnd rules ⟨start, pos⟩ []) newStacks with
    | .error e => .error e
    | .ok newStacks => initStacks rules fuel start starts newStacks

/-- `llama_grammar_init_impl`: the rules and the stacks, or nothing for an invalid grammar. -/
def initImpl (fuel : Nat) (rawRules : List (List GrammarElement)) (start : Nat) :
    Except GrammarError (Option (GrammarRules × GrammarStacks)) :=
  let rules := rawRules.map copyRule
  if !refsValid rules then .ok none
  else if detectAll rules ≠ some false then .ok none
  else
    match initStacks rules fuel start (altStarts (rules.getD start [])) [] with
    | .error e => .error e
    | .ok newStacks => .ok (some (rules, newStacks))

end Grammar
end BeeLlama
