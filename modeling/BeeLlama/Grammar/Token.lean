import BeeLlama.Grammar.Language

/-!
# Tokens (`llama_grammar_apply_impl`, `llama_grammar_accept_token`)

A token is read as the code points of its piece, which may begin and end inside of a UTF-8
sequence, or as one token element. `llama_grammar_apply_impl` filters the candidates of the
sampler, `llama_grammar_accept_token` moves the stacks.

The vocabulary is given by the piece of each token and by the end-of-generation tokens. The write
`cur_p->data[i].logit = -INFINITY` is the index `i` in the list of writes.
-/

namespace BeeLlama

/-- `llama_partial_utf8`. -/
structure PartialUtf8 where
  value : Nat := 0
  nRemain : Int := 0
  deriving DecidableEq, Repr

/-- What the grammar uses of `llama_vocab`. -/
structure GrammarVocab where
  /-- `token_to_piece`. -/
  piece : Nat → List UInt8
  /-- `is_eog`. -/
  isEog : Nat → Bool

/-- `llama_grammar`, as far as tokens need it. -/
structure GrammarState where
  rules : GrammarRules
  grammarStacks : GrammarStacks
  partialUtf8 : PartialUtf8 := {}
  awaitingTrigger : Bool := false
  deriving DecidableEq, Repr

namespace Grammar

/-- `llama_grammar_candidate`: the pointer `code_points` is an index into the code points of the
piece, which end with `0`. -/
structure Candidate where
  index : Nat
  codePoints : List Nat
  offset : Nat := 0
  partialUtf8 : PartialUtf8
  id : Nat
  deriving DecidableEq, Repr

/-! ## `decode_utf8` -/

/-- The entry of `lookup` for the high bits of a byte. -/
def utf8Length (highbits : Nat) : Int :=
  if highbits < 8 then 1 else if highbits < 12 then 0 else if highbits < 14 then 2
  else if highbits < 15 then 3 else 4

/-- The first loop: the bytes that continue the sequence before, which is aborted (`none`) at a
byte that is no continuation. -/
def continueDecode : List UInt8 → Nat → Int → Option (List UInt8 × Nat × Int)
  | [], value, nRemain => some ([], value, nRemain)
  | b :: bs, value, nRemain =>
    if nRemain > 0 then
      if b.toNat >>> 6 ≠ 2 then none
      else continueDecode bs ((value <<< 6) + (b.toNat &&& 0x3F)) (nRemain - 1)
    else some (b :: bs, value, nRemain)

/-- The second loop: a byte continues a sequence or begins one. -/
def decodeLoop : List UInt8 → Nat → Int → List Nat → List Nat × PartialUtf8
  | [], value, nRemain, codePoints => (codePoints ++ [0], ⟨value, nRemain⟩)
  | b :: bs, value, nRemain, codePoints =>
    if nRemain > 0 then
      let value := (value <<< 6) + (b.toNat &&& 0x3F)
      decodeLoop bs value (nRemain - 1)
        (if nRemain - 1 = 0 then codePoints ++ [value] else codePoints)
    else
      let nRemain := utf8Length (b.toNat >>> 4) - 1
      if nRemain < 0 then ([0], ⟨0, nRemain⟩)
      else
        let value := b.toNat &&& ((1 <<< (7 - nRemain.toNat)) - 1)
        decodeLoop bs value nRemain (if nRemain = 0 then codePoints ++ [value] else codePoints)

/-- `decode_utf8`: the code points of the string up to its first zero byte, with a `0` at the end,
and the sequence that it ends in. -/
def decodeUtf8 (src : List UInt8) (start : PartialUtf8) : List Nat × PartialUtf8 :=
  match continueDecode (src.takeWhile (· ≠ 0)) start.value start.nRemain with
  | none => ([0], ⟨0, -1⟩)
  | some (bs, value, nRemain) =>
    decodeLoop bs value nRemain (if start.nRemain > 0 ∧ nRemain = 0 then [value] else [])

/-! ## Matches -/

/-- The loop of `llama_grammar_match_partial_char`, for the code points from `low` to `high`. -/
def matchPartialLoop (low high : Nat) (positive : Bool) : List GrammarElement → Bool
  | [] => !positive
  | [e] =>
    if e.type = .charAny then true
    else if low ≤ e.value ∧ e.value ≤ high then positive else !positive
  | e :: u :: es =>
    if u.type = .charRngUpper then
      if e.value ≤ high ∧ low ≤ u.value then positive
      else if isCharAlt es then matchPartialLoop low high positive es else !positive
    else if e.type = .charAny then true
    else if low ≤ e.value ∧ e.value ≤ high then positive
    else if isCharAlt (u :: es) then matchPartialLoop low high positive (u :: es) else !positive

/-- `llama_grammar_match_partial_char`. -/
def matchPartialChar (rules : GrammarRules) (pos : ElementPtr) (u : PartialUtf8) :
    Except GrammarError Bool :=
  let e := elem rules pos
  if isPositiveChar e || decide (e.type = .charNot) then
    if u.nRemain < 0 ∨ u.nRemain = 1 ∧ u.value < 2 then .ok false
    else
      let low := u.value <<< (u.nRemain.toNat * 6)
      let high := low ||| ((1 <<< (u.nRemain.toNat * 6)) - 1)
      let low := if low = 0 then
          if u.nRemain = 2 then 1 <<< 11 else if u.nRemain = 3 then 1 <<< 16 else low
        else low
      .ok (matchPartialLoop low high (isPositiveChar e) (suffix rules pos))
  else .error .abort

/-- `llama_grammar_match_token`. -/
def matchToken (rules : GrammarRules) (pos : ElementPtr) (token : Nat) : Bool :=
  match (elem rules pos).type with
  | .token => decide ((elem rules pos).value = token)
  | .tokenNot => decide ((elem rules pos).value ≠ token)
  | _ => false

/-! ## `llama_grammar_reject_candidates` -/

/-- `*tok.code_points`. -/
def Candidate.head (tok : Candidate) : Nat := tok.codePoints.getD tok.offset 0

/-- The loop over the stacks: the candidates that all of them reject. -/
def rejectStacks (reject : GrammarStack → List Candidate → Except GrammarError (List Candidate)) :
    GrammarStacks → List Candidate → Except GrammarError (List Candidate)
  | [], rejects => .ok rejects
  | stack :: curStacks, rejects =>
    match reject stack rejects with
    | .error e => .error e
    | .ok rejects => rejectStacks reject curStacks rejects

/-- `llama_grammar_reject_candidates`, with the call for one stack as a parameter. -/
def rejectCandidates
    (reject : GrammarStack → List Candidate → Except GrammarError (List Candidate))
    (curStacks : GrammarStacks) (candidates : List Candidate) :
    Except GrammarError (List Candidate) :=
  if curStacks = [] then .error .abort
  else if candidates = [] then .ok []
  else rejectStacks reject curStacks candidates

/-- What becomes of a candidate at a character range: it goes on, or it is rejected. -/
def splitAtRange (rules : GrammarRules) (pos : ElementPtr) :
    List Candidate → Except GrammarError (List Candidate × List Candidate)
  | [] => .ok ([], [])
  | tok :: candidates =>
    match splitAtRange rules pos candidates with
    | .error e => .error e
    | .ok (next, rejects) =>
      if tok.head = 0 then
        if tok.partialUtf8.nRemain = 0 then .ok (next, rejects)
        else
          match matchPartialChar rules pos tok.partialUtf8 with
          | .error e => .error e
          | .ok matched => .ok (next, if matched then rejects else tok :: rejects)
      else
        match matchChar rules pos tok.head with
        | .error e => .error e
        | .ok (true, _) => .ok ({ tok with offset := tok.offset + 1 } :: next, rejects)
        | .ok (false, _) => .ok (next, tok :: rejects)

/-- `llama_grammar_reject_candidates_for_stack`. The recursion goes to the next code point of the
candidates; `depth` bounds how many there are. -/
def rejectForStack (rules : GrammarRules) (fuel : Nat) :
    Nat → GrammarStack → List Candidate → Except GrammarError (List Candidate)
  | _, [], candidates =>
    .ok (candidates.filter fun tok => decide (tok.head ≠ 0 ∨ tok.partialUtf8.nRemain ≠ 0))
  | 0, _ :: _, _ => .error .fuel
  | depth + 1, pos :: rest, candidates =>
    if (elem rules pos).type = .token ∨ (elem rules pos).type = .tokenNot then
      .ok (candidates.filter fun tok =>
        if tok.head = 0 then decide (tok.partialUtf8.nRemain ≠ 0)
        else !matchToken rules pos tok.id)
    else
      match splitAtRange rules pos candidates with
      | .error e => .error e
      | .ok (next, rejects) =>
        match matchChar rules pos 0 with
        | .error e => .error e
        | .ok (_, after) =>
          match advanceStack rules fuel (pushUnlessEnd rules after rest) [] with
          | .error e => .error e
          | .ok nextStacks =>
            match rejectCandidates (rejectForStack rules fuel depth) nextStacks next with
            | .error e => .error e
            | .ok nextRejects =>
              .ok (rejects ++ nextRejects.map fun tok => { tok with offset := tok.offset - 1 })

/-! ## `llama_grammar_apply_impl` -/

/-- `piece.empty() || piece[0] == 0`. -/
def pieceEmpty (piece : List UInt8) : Bool :=
  match piece with
  | [] => true
  | b :: _ => decide (b = 0)

/-- The candidates of the tokens, in the order of the sampler. -/
def grammarCandidates (vocab : GrammarVocab) (start : PartialUtf8) (ids : List Nat) :
    List Candidate :=
  ids.zipIdx.filterMap fun p =>
    if vocab.isEog p.1 || pieceEmpty (vocab.piece p.1) then none
    else
      let decoded := decodeUtf8 (vocab.piece p.1) start
      some ⟨p.2, decoded.1, 0, decoded.2, p.1⟩

/-- The tokens that are rejected before the stacks are looked at. -/
def rejectedAtOnce (vocab : GrammarVocab) (allowEog : Bool) (ids : List Nat) : List Nat :=
  ids.zipIdx.filterMap fun p =>
    if vocab.isEog p.1 then (if allowEog then none else some p.2)
    else if pieceEmpty (vocab.piece p.1) then some p.2 else none

/-- The number of code points of the longest candidate. -/
def maxDepth (candidates : List Candidate) : Nat :=
  candidates.foldr (fun tok n => max (tok.codePoints.length + 1) n) 1

/-- `llama_grammar_apply_impl` for the tokens of the sampler: the indices that get `-INFINITY`. -/
def applyImpl (vocab : GrammarVocab) (fuel : Nat) (g : GrammarState) (ids : List Nat) :
    Except GrammarError (List Nat) :=
  if g.awaitingTrigger then .ok []
  else
    let candidates := grammarCandidates vocab g.partialUtf8 ids
    match rejectCandidates (rejectForStack g.rules fuel (maxDepth candidates)) g.grammarStacks
      candidates with
    | .error e => .error e
    | .ok rejects =>
      .ok (rejectedAtOnce vocab (g.grammarStacks.any List.isEmpty) ids ++ rejects.map (·.index))

/-! ## `llama_grammar_accept_token` -/

/-- `if (std::find(...) == stacks_new.end()) stacks_new.emplace_back(...)` for each stack. -/
def addStacks (newStacks : GrammarStacks) : GrammarStacks → GrammarStacks
  | [] => newStacks
  | stack :: surviving =>
    addStacks (if stack ∈ newStacks then newStacks else newStacks ++ [stack]) surviving

/-- One stack of `llama_grammar_accept_token`: a token element takes the token, a character range
its code points one after the other. -/
def acceptTokenStack (rules : GrammarRules) (fuel token : Nat) (codePoints : List Nat)
    (stack : GrammarStack) (newStacks : GrammarStacks) : Except GrammarError GrammarStacks :=
  match stack with
  | [] => .ok newStacks
  | pos :: rest =>
    if (elem rules pos).type = .token ∨ (elem rules pos).type = .tokenNot then
      if matchToken rules pos token then
        advanceStack rules fuel (pushUnlessEnd rules (pos.add 1) rest) newStacks
      else .ok newStacks
    else
      match acceptWord rules fuel codePoints [stack] with
      | .error e => .error e
      | .ok surviving => .ok (addStacks newStacks surviving)

/-- The loop over the stacks. -/
def acceptTokenStacks (rules : GrammarRules) (fuel token : Nat) (codePoints : List Nat) :
    GrammarStacks → GrammarStacks → Except GrammarError GrammarStacks
  | [], newStacks => .ok newStacks
  | stack :: curStacks, newStacks =>
    match acceptTokenStack rules fuel token codePoints stack newStacks with
    | .error e => .error e
    | .ok newStacks => acceptTokenStacks rules fuel token codePoints curStacks newStacks

/-- `llama_grammar_accept_token`: it throws if no stack is left. -/
def acceptToken (fuel : Nat) (g : GrammarState) (token : Nat) (piece : List UInt8) :
    Except GrammarError GrammarState :=
  let decoded := decodeUtf8 piece g.partialUtf8
  match acceptTokenStacks g.rules fuel token decoded.1.dropLast g.grammarStacks [] with
  | .error e => .error e
  | .ok stacksNew =>
    if stacksNew = [] then .error .emptyStack
    else .ok { g with grammarStacks := stacksNew, partialUtf8 := decoded.2 }

/-- `llama_grammar_accept_str`: it throws if no stack is left. -/
def acceptStr (fuel : Nat) (g : GrammarState) (piece : List UInt8) :
    Except GrammarError GrammarState :=
  let decoded := decodeUtf8 piece g.partialUtf8
  match acceptWord g.rules fuel decoded.1.dropLast g.grammarStacks with
  | .error e => .error e
  | .ok stacksNew =>
    if stacksNew = [] then .error .emptyStack
    else .ok { g with grammarStacks := stacksNew, partialUtf8 := decoded.2 }

end Grammar
end BeeLlama
