import BeeLlama.Lib.Run
import BeeLlama.Sampling.TokenMatcher

/-!
# The reasoning budget (`common_reasoning_budget`)

A sampler that counts the tokens of a reasoning block, and forces the end of the block where the
budget is spent: it masks all tokens but the next one of `forced_tokens`.

* `ReasoningBudget.accept`: the machine, with its two matchers.
* `ReasoningBudget.step`: the calls from outside, where a token that is accepted is one that `apply`
  leaves.
-/

namespace BeeLlama.Sampling

/-- `common_reasoning_budget_state`. -/
inductive BudgetState where
  | idle
  | counting
  | waitingUtf8
  | forcing
  | done
  deriving DecidableEq, Repr

/-- What `common_reasoning_budget_init` gets: whether the piece of a token ends with a whole code
point, the sequences, the tokens that are forced, and the budget. -/
structure BudgetConfig where
  utf8Complete : Int32 → Bool
  startSeqs : List (List Int32)
  endSeqs : List (List Int32)
  forcedTokens : List Int32
  budget : Int

/-- `common_reasoning_budget_ctx`, as far as it changes. -/
structure ReasoningBudget where
  startMatcher : TokenMatcher
  endMatcher : TokenMatcher
  remaining : Int
  state : BudgetState
  forcePos : Nat := 0
  endMatch : Int := -1
  deriving DecidableEq

namespace ReasoningBudget

variable (cfg : BudgetConfig)

/-- `common_reasoning_budget_init_state`. -/
def init (initialState : BudgetState) : ReasoningBudget where
  startMatcher := .ofSeqs cfg.startSeqs
  endMatcher := .ofSeqs cfg.endSeqs
  remaining := cfg.budget
  state := if initialState = .counting ∧ cfg.budget ≤ 0 then .forcing else initialState

/-- A start sequence was found: the budget is counted, or the end is forced at once. -/
def activate (ctx : ReasoningBudget) : ReasoningBudget :=
  if cfg.budget ≤ 0 then { ctx with remaining := cfg.budget, state := .forcing, forcePos := 0 }
  else { ctx with remaining := cfg.budget, state := .counting }

/-- The end is forced from the first token on. -/
def startForcing (ctx : ReasoningBudget) : ReasoningBudget :=
  { ctx with state := .forcing, forcePos := 0, endMatcher := ctx.endMatcher.reset }

/-- `common_reasoning_budget_accept`. -/
def accept (ctx : ReasoningBudget) (token : Int32) : ReasoningBudget :=
  match ctx.state with
  | .idle =>
    let (p, startMatcher) := ctx.startMatcher.advance token
    let ctx := { ctx with startMatcher }
    if 0 ≤ p then ctx.activate cfg else ctx
  | .counting =>
    let (p, endMatcher) := ctx.endMatcher.advance token
    let ctx := { ctx with endMatcher }
    if 0 ≤ p then { ctx with state := .done, endMatch := p }
    else
      let ctx := { ctx with remaining := ctx.remaining - 1 }
      if ctx.remaining ≤ 0 then
        if cfg.utf8Complete token then ctx.startForcing
        else { ctx with state := .waitingUtf8, endMatcher := ctx.endMatcher.reset }
      else ctx
  | .waitingUtf8 =>
    let (p, endMatcher) := ctx.endMatcher.advance token
    let ctx := { ctx with endMatcher }
    if 0 ≤ p then { ctx with state := .done, endMatch := p }
    else if cfg.utf8Complete token then ctx.startForcing
    else ctx
  | .forcing =>
    -- the end sequence within the forced tokens is reported too
    let (p, endMatcher) := ctx.endMatcher.advance token
    let ctx := { ctx with endMatcher, forcePos := ctx.forcePos + 1 }
    if cfg.forcedTokens.length ≤ ctx.forcePos then { ctx with state := .done, endMatch := p }
    else ctx
  | .done =>
    let (p, startMatcher) := ctx.startMatcher.advance token
    let ctx := { ctx with startMatcher }
    if 0 ≤ p then
      { ctx with endMatcher := ctx.endMatcher.reset, endMatch := -1 }.activate cfg
    else ctx

/-- The token that `common_reasoning_budget_apply` leaves, if it masks the others. -/
def forced (ctx : ReasoningBudget) : Option Int32 :=
  if ctx.state ≠ .forcing then none else cfg.forcedTokens[ctx.forcePos]?

/-- `common_reasoning_budget_apply`; `⊥` is the logit of a token that is masked. -/
def apply {L : Type*} [Bot L] (ctx : ReasoningBudget) (cur : List (Int32 × L)) :
    List (Int32 × L) :=
  match ctx.forced cfg with
  | none => cur
  | some forced => cur.map fun c => if c.1 ≠ forced then (c.1, ⊥) else c

/-- `common_reasoning_budget_reset`. -/
def reset (ctx : ReasoningBudget) : ReasoningBudget where
  startMatcher := ctx.startMatcher.reset
  endMatcher := ctx.endMatcher.reset
  remaining := cfg.budget
  state := .idle

/-- `common_reasoning_budget_get_end_match`. -/
def getEndMatch (ctx : ReasoningBudget) : Option (List Int32) :=
  if ctx.endMatch < 0 then none else ctx.endMatcher.seqs[ctx.endMatch.toNat]?

/-- `common_reasoning_budget_force_end`: whether there is something to force, and the state. -/
def forceEnd (ctx : ReasoningBudget) : Bool × ReasoningBudget :=
  if cfg.forcedTokens = [] then (false, ctx) else (true, ctx.startForcing)

/-- `common_reasoning_budget_force`: only where the budget is counted. -/
def force (ctx : ReasoningBudget) : Bool × ReasoningBudget :=
  if ctx.state ≠ .counting then (false, ctx) else (true, ctx.startForcing)

end ReasoningBudget

/-- The calls. -/
inductive BudgetOp where
  | accept (token : Int32)
  | force
  | forceEnd
  | reset
  deriving DecidableEq, Repr

namespace ReasoningBudget

/-- A call. A token that is masked is not accepted. -/
def step (cfg : BudgetConfig) (ctx : ReasoningBudget) : BudgetOp → Option ReasoningBudget
  | .accept token =>
    if (ctx.forced cfg).all (· = token) then some (ctx.accept cfg token) else none
  | .force => some ctx.force.2
  | .forceEnd => some (ctx.forceEnd cfg).2
  | .reset => some (ctx.reset cfg)

end ReasoningBudget

/-- `common_reasoning_budget_init` with any initial state. -/
def BudgetInit (cfg : BudgetConfig) (ctx : ReasoningBudget) : Prop :=
  ∃ initialState, ctx = .init cfg initialState

/-- The machine with the log of its calls. -/
def budgetSys (cfg : BudgetConfig) : Sys (Sys.Recorded ReasoningBudget BudgetOp) BudgetOp :=
  .recorded (BudgetInit cfg) (ReasoningBudget.step cfg)

/-- An event of the machine. -/
abbrev BudgetEvent := Sys.Event ReasoningBudget BudgetOp

namespace BudgetOp

/-- The token that is accepted. -/
def tokens : BudgetOp → List Int32
  | .accept token => [token]
  | _ => []

end BudgetOp

/-- The tokens that were accepted, the first one first. -/
def accepted : List BudgetEvent → List Int32
  | [] => []
  | e :: log => accepted log ++ e.op.tokens

/-- The tokens that were accepted since forcing began, if it has not been interrupted. -/
def forcedStay : List BudgetEvent → List Int32
  | [] => []
  | e :: log =>
    if e.before.state = .forcing ∧ e.op ≠ .forceEnd ∧ e.op ≠ .reset then
      forcedStay log ++ e.op.tokens
    else []

/-- The tokens that were accepted up to the last transition to `done`. -/
def doneTokens : List BudgetEvent → List Int32
  | [] => []
  | e :: log =>
    if e.before.state ≠ .done ∧ e.after.state = .done then accepted (e :: log) else doneTokens log

namespace BudgetState

/-- The machine looks for a start sequence. -/
def Searching (s : BudgetState) : Prop := s = .idle ∨ s = .done

/-- The machine is in a reasoning block that is not forced to end. -/
def Reasoning (s : BudgetState) : Prop := s = .counting ∨ s = .waitingUtf8

instance : DecidablePred Searching := fun _ => inferInstanceAs (Decidable (_ ∨ _))

instance : DecidablePred Reasoning := fun _ => inferInstanceAs (Decidable (_ ∨ _))

end BudgetState

end BeeLlama.Sampling
