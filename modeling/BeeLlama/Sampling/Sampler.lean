import BeeLlama.Grammar.Agree
import BeeLlama.Sampling.ReasoningBudget

/-!
# The sampler (`common_sampler`)

A grammar, a reasoning budget and a chain of samplers. `sample` masks the logits and lets the chain
select a token, `acceptWithInfo` moves all three.

* `LlamaGrammar.acceptImpl`: a token that a grammar is fed with, which may wait for a trigger.
* `sample`: the three ways to a token.
* `acceptWithInfo`: the grammar is fed with the token, or with the end sequence of a reasoning
  block.

A logit is a value with `⊥` for `-INFINITY`. The chain is a parameter. `fuel` is that of the
grammar, whose errors go through.
-/

namespace BeeLlama.Sampling

open Grammar

/-- `common_grammar_type`. -/
inductive GrammarType where
  | none
  | user
  | outputFormat
  | toolCalls
  deriving DecidableEq, Repr

/-- What does not change: the vocabulary, the triggers of the grammar, `grammar_lazy`, the type of
the grammar, the budget, and the chain with its states `χ`. A pattern finds its start in a text. -/
structure SamplerConfig (χ L : Type) where
  vocab : GrammarVocab
  triggerTokens : List Int32 := []
  triggerPatterns : List (List UInt8 → Option Nat) := []
  grammarLazy : Bool
  grammarType : GrammarType
  budget : BudgetConfig
  /-- `llama_sampler_apply` of the chain: the token that is selected. -/
  chainApply : χ → List (Int32 × L) → Int32 × χ
  chainAccept : χ → Int32 → χ

/-- `llama_grammar` with its buffer of tokens that have not triggered it. -/
structure LlamaGrammar where
  state : GrammarState
  triggerBuffer : List UInt8 := []
  triggerBufferPositions : List (Int32 × Nat × Nat) := []
  deriving DecidableEq, Repr

/-- `common_sampler`, with the tokens that its grammar was fed with and the grammars that got
them. -/
structure CommonSampler (χ : Type) where
  grmr : Option LlamaGrammar
  rbudget : Option ReasoningBudget
  chain : χ
  fed : List (LlamaGrammar × Int32) := []

/-- `common_sampler_accept_info`. -/
structure AcceptInfo where
  token : Int32
  isGenerated : Bool
  stateBefore : BudgetState
  stateAfter : BudgetState
  deriving DecidableEq, Repr

variable {χ L : Type} (cfg : SamplerConfig χ L) (fuel : Nat)

namespace LlamaGrammar

/-- `llama_grammar_accept_token`. -/
def acceptToken (g : LlamaGrammar) (token : Int32) (piece : List UInt8) :
    Except GrammarError LlamaGrammar := do
  let state ← Grammar.acceptToken fuel g.state (symbol token) piece
  pure { g with state }

/-- The tokens of the buffer that overlap with what begins at `start`. -/
def replay (start : Nat) (buffer : List UInt8) :
    List (Int32 × Nat × Nat) → LlamaGrammar → Except GrammarError LlamaGrammar
  | [], g => pure g
  | (tok, tokStart, tokEnd) :: positions, g =>
    if tokEnd ≤ start then replay start buffer positions g
    else do
      let pieceStart := if tokStart < start then start else tokStart
      let g ← g.acceptToken fuel tok ((buffer.drop pieceStart).take (tokEnd - pieceStart))
      replay start buffer positions g

/-- `llama_grammar_accept_impl`. -/
def acceptImpl (g : LlamaGrammar) (token : Int32) : Except GrammarError LlamaGrammar :=
  let piece := cfg.vocab.piece (symbol token)
  if g.state.awaitingTrigger then
    if token ∈ cfg.triggerTokens then
      { g with state := { g.state with awaitingTrigger := false }, triggerBuffer := [] }.acceptToken
        fuel token piece
    else
      let position := (g.triggerBuffer.length, g.triggerBuffer.length + piece.length)
      let g := { g with
        triggerBuffer := g.triggerBuffer ++ piece
        triggerBufferPositions := g.triggerBufferPositions ++ [(token, position)] }
      match cfg.triggerPatterns.findSome? (· g.triggerBuffer) with
      | some start => do
        let g ← replay fuel start g.triggerBuffer g.triggerBufferPositions
          { g with state := { g.state with awaitingTrigger := false } }
        pure { g with triggerBuffer := [], triggerBufferPositions := [] }
      | none => pure g
  else if cfg.vocab.isEog (symbol token) then
    if g.state.grammarStacks.any List.isEmpty then pure g else throw .abort
  else g.acceptToken fuel token piece

/-- `llama_grammar_apply_impl`: the indices that are masked. -/
def masked (g : LlamaGrammar) (ids : List Int32) : Except GrammarError (List Nat) :=
  applyImpl cfg.vocab fuel g.state (ids.map symbol)

end LlamaGrammar

/-- The logits at these indices are `-INFINITY`. -/
def maskAt [Bot L] (written : List Nat) (cur : List (Int32 × L)) : List (Int32 × L) :=
  cur.mapIdx fun i c => if i ∈ written then (c.1, ⊥) else c

namespace CommonSampler

/-- The indices that `llama_sampler_apply` of the grammar masks. -/
def maskedByGrammar (s : CommonSampler χ) (ids : List Int32) : Except GrammarError (List Nat) :=
  match s.grmr with
  | none => pure []
  | some g => g.masked cfg fuel ids

/-- `llama_sampler_apply` of the reasoning budget. -/
def applyBudget [Bot L] (s : CommonSampler χ) (cur : List (Int32 × L)) : List (Int32 × L) :=
  match s.rbudget with
  | none => cur
  | some ctx => ctx.apply cfg.budget cur

/-- `llama_sampler_apply` of the chain, and the token that it selects. -/
def applyChain (s : CommonSampler χ) (cur : List (Int32 × L)) : Int32 × CommonSampler χ :=
  let (id, chain) := cfg.chainApply s.chain cur
  (id, { s with chain })

/-- `grammar_should_apply`. -/
def grammarShouldApply (s : CommonSampler χ) : Bool :=
  match s.grmr, s.rbudget with
  | none, _ => false
  | some _, none => true
  | some _, some ctx =>
    if cfg.grammarLazy then decide (ctx.state = .idle ∨ ctx.state = .done)
    else if cfg.grammarType = .outputFormat then decide (ctx.state = .idle ∨ ctx.state = .done)
    else true

/-- `llama_sampler_apply` of the grammar, under a condition. -/
def applyGrammarIf [Bot L] (cond : Bool) (s : CommonSampler χ) (cur : List (Int32 × L)) :
    Except GrammarError (List (Int32 × L)) :=
  if cond then do
    let written ← s.maskedByGrammar cfg fuel (cur.map Prod.fst)
    pure (maskAt written cur)
  else pure cur

/-- `common_sampler_force_reasoning_end_on_eog`: the sampler if the end is forced. -/
def forceReasoningEndOnEog (s : CommonSampler χ) (id : Int32) : Option (CommonSampler χ) :=
  match s.rbudget with
  | none => none
  | some ctx =>
    if id = -1 then none
    else if !cfg.vocab.isEog (symbol id) then none
    else if ¬ (ctx.state = .counting ∨ ctx.state = .waitingUtf8) then none
    else
      let (ok, ctx) := ctx.forceEnd cfg.budget
      if ok then some { s with rbudget := some ctx } else none

/-- The token that is selected first. -/
def firstPass [Bot L] (s : CommonSampler χ) (cur : List (Int32 × L)) (grammarFirst : Bool) :
    Except GrammarError (Int32 × CommonSampler χ) := do
  let masked ← s.applyGrammarIf cfg fuel (grammarFirst && s.grammarShouldApply cfg)
    (s.applyBudget cfg cur)
  pure (s.applyChain cfg masked)

/-- The token that is selected where the first one ends the generation inside of a reasoning
block. -/
def repair [Bot L] (s : CommonSampler χ) (id : Int32) (cur : List (Int32 × L)) :
    Int32 × CommonSampler χ :=
  match s.forceReasoningEndOnEog cfg id with
  | none => (id, s)
  | some s => s.applyChain cfg (s.applyBudget cfg cur)

/-- Rejection sampling: the token, or another one if the grammar masks it. The logit `1.0f` of the
single token is not `-INFINITY`. -/
def resample [Bot L] (s : CommonSampler χ) (id : Int32) (cur : List (Int32 × L)) :
    Except GrammarError (Int32 × CommonSampler χ) := do
  let written ← s.maskedByGrammar cfg fuel [id]
  if 0 ∉ written then pure (id, s)
  else do
    let masked ← s.applyGrammarIf cfg fuel (s.grammarShouldApply cfg) (s.applyBudget cfg cur)
    pure (s.applyChain cfg masked)

/-- `common_sampler_sample` of a row with the logits `cur`; `sampled` is the token that a backend
has sampled. -/
def sample [Bot L] (s : CommonSampler χ) (cur : List (Int32 × L)) (sampled : Option Int32)
    (grammarFirst : Bool) : Except GrammarError (Int32 × CommonSampler χ) :=
  match sampled with
  | some id => if s.grmr.isNone && s.rbudget.isNone then pure (id, s) else throw .abort
  | none => do
    let first ← s.firstPass cfg fuel cur grammarFirst
    let (id, s) := first.2.repair cfg first.1 cur
    if grammarFirst || !s.grammarShouldApply cfg then pure (id, s)
    else s.resample cfg fuel id cur

/-- `llama_sampler_accept` of the grammar. -/
def feed (s : CommonSampler χ) (token : Int32) : Except GrammarError (CommonSampler χ) :=
  match s.grmr with
  | none => pure s
  | some g => do
    let g' ← g.acceptImpl cfg fuel token
    pure { s with grmr := some g', fed := s.fed ++ [(g, token)] }

/-- Tokens one by one. -/
def feedAll : List Int32 → CommonSampler χ → Except GrammarError (CommonSampler χ)
  | [], s => pure s
  | token :: tokens, s => do
    let s ← s.feed cfg fuel token
    feedAll tokens s

/-- `common_reasoning_budget_get_state`. -/
def budgetState (s : CommonSampler χ) : BudgetState :=
  match s.rbudget with
  | none => .idle
  | some ctx => ctx.state

/-- The reasoning budget accepts a token that was generated. -/
def acceptBudget (s : CommonSampler χ) (token : Int32) (isGenerated : Bool) : CommonSampler χ :=
  if isGenerated then { s with rbudget := s.rbudget.map fun ctx => ctx.accept cfg.budget token }
  else s

/-- The end sequence that the grammar is fed with, of a reasoning block that is done. -/
def endReplay (s : CommonSampler χ) : List Int32 :=
  match s.rbudget with
  | none => []
  | some ctx => if ctx.state = .done then (ctx.getEndMatch).getD [] else []

/-- `common_sampler_accept_impl`. -/
def acceptWithInfo (s : CommonSampler χ) (token : Int32) (isGenerated : Bool) :
    Except GrammarError (AcceptInfo × CommonSampler χ) := do
  -- the state of the budget decides before it accepts
  let acceptGrammar := isGenerated && s.grammarShouldApply cfg
  let stateBefore := s.budgetState
  let s := s.acceptBudget cfg token isGenerated
  let info := { token, isGenerated, stateBefore, stateAfter := s.budgetState }
  let s ← feedAll cfg fuel (if isGenerated && !acceptGrammar then s.endReplay else []) s
  let s ← feedAll cfg fuel (if acceptGrammar then [token] else []) s
  pure (info, { s with chain := cfg.chainAccept s.chain token })

end CommonSampler

end BeeLlama.Sampling
