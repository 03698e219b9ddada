import BeeLlama.Grammar.GbnfParser
import BeeLlama.Peg.AhoCorasick

/-!
# Grammars of delimiters (`gbnf_excluding_grammar`, `gbnf_including_grammar`)

The rules are those of the states of the automaton. A rule has one character class for the
characters that complete a delimiter, one for each state that characters lead to, and one for all
other characters, which lead to the root.

The rules are listed as they are added; the grammar is their text (`gbnfText`).
-/

namespace BeeLlama.Peg

/-- `hex[d]`. -/
def hexDigit (d : Nat) : UInt8 := if d < 10 then UInt8.ofNat (48 + d) else UInt8.ofNat (55 + d)

/-- The hex digits of a number, the highest first. -/
def hexDigits (c : Nat) : Nat → List UInt8
  | 0 => []
  | n + 1 => hexDigit (c / 16 ^ n % 16) :: hexDigits c n

/-- `gbnf_escape_char_class`. -/
def gbnfEscapeCharClass (c : Nat) : List UInt8 :=
  if c = 45 ∨ c = 93 ∨ c = 91 ∨ c = 92 then [92, UInt8.ofNat c]
  else if c = 10 then [92, 110]
  else if c = 9 then [92, 116]
  else if c = 13 then [92, 114]
  else if 0x20 ≤ c ∧ c ≤ 0x7E then [UInt8.ofNat c]
  else if c ≤ 0xFF then [92, 120] ++ hexDigits c 2
  else if c ≤ 0xFFFF then [92, 117] ++ hexDigits c 4
  else [92, 85] ++ hexDigits c 8

/-- `gbnf_char_class`. -/
def gbnfCharClass (chars : List Nat) (negate : Bool) : List UInt8 :=
  (if negate then [91, 94] else [91]) ++ chars.flatMap gbnfEscapeCharClass ++ [93]

/-- `state_name`. -/
def stateName (base : List UInt8) (s : Nat) : List UInt8 :=
  if s = 0 then base
  else
    let num := Gbnf.toString s
    base ++ 45 :: (if num.length = 1 then 48 :: num else num)

/-- The characters of a state, by where they lead. -/
structure Classes where
  completing : List Nat := []
  buckets : List (Nat × List Nat) := []
  specific : List Nat := []
  deriving DecidableEq, Repr

/-- `buckets[d].push_back(c)`. -/
def pushBucket (d c : Nat) : List (Nat × List Nat) → List (Nat × List Nat)
  | [] => [(d, [c])]
  | b :: buckets =>
    if d < b.1 then (d, [c]) :: b :: buckets
    else if d = b.1 then (b.1, b.2 ++ [c]) :: buckets
    else b :: pushBucket d c buckets

/-- One character of the alphabet. -/
def classStep (ac : AhoCorasick) (q : Nat) (k : Classes) (c : Nat) : Classes :=
  let d := ac.next q c
  if ac.isTerminal d then
    { k with completing := k.completing ++ [c], specific := k.specific ++ [c] }
  else if d ≠ 0 then
    { k with buckets := pushBucket d c k.buckets, specific := k.specific ++ [c] }
  else k

/-- The classes of a state. -/
def classes (ac : AhoCorasick) (q : Nat) : Classes := ac.alphabet.foldl (classStep ac q) {}

/-- `gbnf_ac_grammar`: the name and the text of each rule. -/
def gbnfAcGrammar (base : List UInt8) (strings : List (List UInt8))
    (buildRule : Classes → (Nat → List UInt8) → List UInt8) : List (List UInt8 × List UInt8) :=
  let ac := ahoCorasick (trieOf strings)
  let rules := ((List.range ac.numStates).filter fun q => !ac.isTerminal q).map fun q =>
    (stateName base q, buildRule (classes ac q) (stateName base))
  if ac.isTerminal 0 then rules ++ [(base, [124])] else rules

/-- The rule of a state in `gbnf_excluding_grammar`. -/
def excludingRule (k : Classes) (stateName : Nat → List UInt8) : List UInt8 :=
  [124] ++ (k.buckets.flatMap fun b =>
    [32] ++ gbnfCharClass b.2 false ++ [32] ++ stateName b.1 ++ [32, 124]) ++
    [32] ++ gbnfCharClass k.specific true ++ [32] ++ stateName 0

/-- `gbnf_excluding_grammar`. -/
def gbnfExcludingGrammar (base : List UInt8) (strings : List (List UInt8)) :
    List (List UInt8 × List UInt8) :=
  gbnfAcGrammar base strings excludingRule

/-- The rule of a state in `gbnf_including_grammar`. -/
def includingRule (k : Classes) (stateName : Nat → List UInt8) : List UInt8 :=
  let alts :=
    (if k.completing = [] then [] else [gbnfCharClass k.completing false]) ++
      (k.buckets.map fun b => gbnfCharClass b.2 false ++ [32] ++ stateName b.1) ++
      [gbnfCharClass k.specific true ++ [32] ++ stateName 0]
  [32, 124, 32].intercalate alts

/-- `gbnf_including_grammar`. -/
def gbnfIncludingGrammar (base : List UInt8) (strings : List (List UInt8)) :
    List (List UInt8 × List UInt8) :=
  gbnfAcGrammar base strings includingRule

/-- The text of a rule in a grammar. -/
def gbnfRuleText (rule : List UInt8 × List UInt8) : List UInt8 :=
  rule.1 ++ [32, 58, 58, 61, 32] ++ rule.2 ++ [10]

/-- The text of a grammar. -/
def gbnfText (rules : List (List UInt8 × List UInt8)) : List UInt8 := rules.flatMap gbnfRuleText

end BeeLlama.Peg
