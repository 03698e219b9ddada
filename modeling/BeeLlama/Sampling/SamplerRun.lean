import BeeLlama.Sampling.ReasoningRun
import BeeLlama.Sampling.Sampler

/-!
# Runs of the sampler

Tokens are sampled and accepted in turn. As long as every mask in force leaves a token, what is
sampled while the grammar applies is left by the grammar.

* `samplerSys`: the runs, with the tokens that the grammar is to be fed with (`due`).
* `MasksLeave`: the masks leave a token at every selection.
* `sample_leaves`: the three ways to a token.
* `fed_eq_due`: the grammar is fed with what it is to be fed with, unless an end sequence is
  replayed into a grammar that is not lazy.
* `sampler_grammar_safe`: a grammar that is not lazy gets only tokens that it leaves.
-/

namespace BeeLlama.Sampling

open Cfg Grammar List CommonSampler

variable {χ L : Type} [LinearOrder L] [OrderBot L]

/-- `llama_grammar_apply_impl` leaves the logit of the token. -/
def GrammarLeaves (vocab : GrammarVocab) (g : LlamaGrammar) (id : Int32) : Prop :=
  Untouched vocab g.state [symbol id] 0

/-- The grammar leaves the token, if there is one. -/
def Leaves (cfg : SamplerConfig χ L) (s : CommonSampler χ) (id : Int32) : Prop :=
  ∀ g, s.grmr = some g → GrammarLeaves cfg.vocab g id

/-- The chain selects a candidate above `⊥` if there is one. -/
def SelectsAbove (cfg : SamplerConfig χ L) : Prop :=
  ∀ chain cur, (∃ c ∈ cur, ⊥ < c.2) → ∃ c ∈ cur, ⊥ < c.2 ∧ c.1 = (cfg.chainApply chain cur).1

/-! ## The runs -/

/-- A sampler between its calls: the token that was sampled and not accepted yet, and what its
grammar is to be fed with. -/
structure SamplerRun (χ : Type) where
  sampler : CommonSampler χ
  pending : Option Int32 := none
  due : List Int32 := []

/-- The calls. -/
inductive SamplerOp (L : Type) where
  | sample (cur : List (Int32 × L)) (sampled : Option Int32) (grammarFirst : Bool)
  | accept

/-- The matched end sequence of a reasoning block that an accept has ended. -/
def finishedBlock : Option ReasoningBudget → Option ReasoningBudget → List Int32
  | some before, some after =>
    if ¬ before.state.Searching ∧ after.state = .done then (after.getEndMatch).getD [] else []
  | _, _ => []

/-- What a grammar is to be fed with at an accept. -/
def dueTokens (cfg : SamplerConfig χ L) (s : CommonSampler χ) (token : Int32) : List Int32 :=
  (if s.grammarShouldApply cfg then [token] else []) ++
    (if cfg.grammarLazy ∧ s.grmr.isSome then
      finishedBlock s.rbudget (s.acceptBudget cfg token true).rbudget else [])

/-- Sampling and accepting in turn, of a sampler whose grammar comes from a run of it. -/
def samplerSys (cfg : SamplerConfig χ L) (rawRules : List (List GrammarElement)) (start : Nat) :
    Sys (SamplerRun χ) (SamplerOp L) where
  init r := (∀ g, r.sampler.grmr = some g →
      (grammarSys rawRules start).Reach (fun _ _ => True) g.state ∧
        (cfg.grammarLazy = false → g.state.awaitingTrigger = false)) ∧
    r.sampler.fed = [] ∧ r.pending = none ∧ r.due = []
  step r op r' := match op with
    | .sample cur sampled grammarFirst => ∃ id s, r.pending = none ∧
        Settles (fun fuel => r.sampler.sample cfg fuel cur sampled grammarFirst) (id, s) ∧
        r' = { r with sampler := s, pending := some id }
    | .accept => ∃ id info s, r.pending = some id ∧
        Settles (fun fuel => r.sampler.acceptWithInfo cfg fuel id true) (info, s) ∧
        r' = { sampler := s, due := r.due ++ dueTokens cfg r.sampler id }

/-- Some token is left above `⊥` by the masks in force: that of the budget, and that of the grammar
if it applies. -/
def Left (cfg : SamplerConfig χ L) (s : CommonSampler χ) (cur : List (Int32 × L)) : Prop :=
  ∃ c ∈ s.applyBudget cfg cur, ⊥ < c.2 ∧ (s.grammarShouldApply cfg = true → Leaves cfg s c.1)

/-- Some token is left at every selection of a call, also where the end of a reasoning block is
forced in it. -/
def MasksLeave (cfg : SamplerConfig χ L) (r : SamplerRun χ) : SamplerOp L → Prop
  | .sample cur _ grammarFirst => Left cfg r.sampler cur ∧
      ∀ first, Settles (fun fuel => r.sampler.firstPass cfg fuel cur grammarFirst) first →
        ∀ s, first.2.forceReasoningEndOnEog cfg first.1 = some s → Left cfg s cur
  | .accept => True

/-- No end sequence is replayed into a grammar that is not lazy. -/
def NoEagerReplay (cfg : SamplerConfig χ L) (s : CommonSampler χ) (token : Int32) : Prop :=
  cfg.grammarLazy = false → s.grmr.isSome → s.grammarShouldApply cfg = false →
    (s.acceptBudget cfg token true).endReplay = []

/-- A token that is kept by a detour is read too. -/
def NoDetour (cfg : SamplerConfig χ L) (s : CommonSampler χ) (token : Int32) : Prop :=
  ∀ g, s.grmr = some g → cfg.vocab.isEog (symbol token) = false →
    (∃ st ∈ g.state.grammarStacks, Detours g.state.rules
      (decodeUtf8 (cfg.vocab.piece (symbol token)) g.state.partialUtf8).2 (symbol token)
      (decodeUtf8 (cfg.vocab.piece (symbol token)) g.state.partialUtf8).1.dropLast st) →
    ∃ st ∈ g.state.grammarStacks, ReadsPiece g.state.rules (symbol token)
      (decodeUtf8 (cfg.vocab.piece (symbol token)) g.state.partialUtf8).1.dropLast st

/-- The condition on an accept. -/
def FeedOk (cfg : SamplerConfig χ L) (r : SamplerRun χ) : SamplerOp L → Prop
  | .sample _ _ _ => True
  | .accept => ∀ id, r.pending = some id → NoEagerReplay cfg r.sampler id ∧
      (cfg.grammarLazy = false → r.sampler.grammarShouldApply cfg = true →
        NoDetour cfg r.sampler id)

/-! ## Masks -/

theorem mem_maskAt {written : List Nat} {cur : List (Int32 × L)} {c : Int32 × L} (hc : ⊥ < c.2) :
    c ∈ maskAt written cur ↔ ∃ i, cur[i]? = some c ∧ i ∉ written := by
  rw [maskAt, mem_iff_getElem?]
  simp only [getElem?_mapIdx, Option.map_eq_some_iff]
  constructor
  · rintro ⟨i, c', hi, he⟩
    split at he
    · exact absurd (congrArg Prod.snd he ▸ hc) (lt_irrefl _)
    · next hn => exact ⟨i, he ▸ hi, hn⟩
  · rintro ⟨i, hi, hn⟩
    exact ⟨i, c, hi, if_neg hn⟩

section Masks

variable {rawRules : List (List GrammarElement)} {start : Nat}
  (hr : ∀ rule ∈ rawRules.map copyRule, ItemRule rule)
  (hl : ¬ LeftRecursive (alts (rawRules.map copyRule)))

include hr hl

omit [LinearOrder L] [OrderBot L] in
/-- Whether a token is left does not depend on the other tokens. -/
theorem masked_settles (cfg : SamplerConfig χ L) {g : LlamaGrammar}
    (hg : GrammarOk (rawRules.map copyRule) g.state) (ids : List Int32) :
    ∃ written, Settles (fun fuel => g.masked cfg fuel ids) written ∧
      ∀ i id, ids[i]? = some id → (i ∉ written ↔ GrammarLeaves cfg.vocab g id) := by
  have happly := applyImpl_settles hg.refs hr hl hg.rules_eq hg.live hg.ne cfg.vocab
  obtain ⟨written, hset, hw, hw'⟩ := happly (ids.map symbol)
  refine ⟨written, hset, fun i id hi => ?_⟩
  obtain ⟨single, hset1, h1, h1'⟩ := happly [symbol id]
  have hi : (ids.map symbol)[i]? = some (symbol id) := by rw [getElem?_map, hi]; rfl
  have hleaves : GrammarLeaves cfg.vocab g id ↔ 0 ∉ single :=
    ⟨fun ⟨w, hset', hn⟩ => hset1.unique hset' ▸ hn, fun hn => ⟨single, hset1, hn⟩⟩
  rw [hleaves]
  by_cases h : cfg.vocab.isEog (symbol id) = true ∨ pieceEmpty (cfg.vocab.piece (symbol id)) = true
  · rw [hw' i _ hi h, h1' 0 _ rfl h]
  · obtain ⟨he, hp⟩ := not_or.mp h
    have he := Bool.eq_false_of_not_eq_true he
    have hp := Bool.eq_false_of_not_eq_true hp
    rw [hw i _ hi he hp, h1 0 _ rfl he hp]

/-- The grammar of a sampler comes from a run. -/
def GrammarsOk (rules : GrammarRules) (s : CommonSampler χ) : Prop :=
  ∀ g, s.grmr = some g → GrammarOk rules g.state

omit [LinearOrder L] [OrderBot L] in
theorem maskedByGrammar_settles (cfg : SamplerConfig χ L) {s : CommonSampler χ}
    (hs : GrammarsOk (rawRules.map copyRule) s) (ids : List Int32) :
    ∃ written, Settles (fun fuel => s.maskedByGrammar cfg fuel ids) written ∧
      ∀ i id, ids[i]? = some id → (i ∉ written ↔ Leaves cfg s id) := by
  unfold maskedByGrammar Leaves
  cases e : s.grmr with
  | none => exact ⟨[], .const [], fun i id _ => by simp⟩
  | some g =>
    obtain ⟨written, hset, hw⟩ := masked_settles hr hl cfg (hs g e) ids
    exact ⟨written, hset, fun i id hi => (hw i id hi).trans (by simp)⟩

/-- What the grammar lets through. -/
theorem applyGrammarIf_settles (cfg : SamplerConfig χ L) {s : CommonSampler χ}
    (hs : GrammarsOk (rawRules.map copyRule) s) (cond : Bool) (cur : List (Int32 × L)) :
    ∃ masked, Settles (fun fuel => s.applyGrammarIf cfg fuel cond cur) masked ∧
      ∀ c, ⊥ < c.2 → (c ∈ masked ↔ c ∈ cur ∧ (cond = true → Leaves cfg s c.1)) := by
  cases cond with
  | false => exact ⟨cur, .const cur, fun c _ => by simp⟩
  | true =>
    obtain ⟨written, hset, hw⟩ := maskedByGrammar_settles hr hl cfg hs (cur.map Prod.fst)
    refine ⟨maskAt written cur, hset.bind (.const _), fun c hc => ?_⟩
    have hids : ∀ i, cur[i]? = some c → (cur.map Prod.fst)[i]? = some c.1 := fun i hi => by
      rw [getElem?_map, hi]
      rfl
    rw [mem_maskAt hc]
    constructor
    · rintro ⟨i, hi, hn⟩
      exact ⟨mem_of_getElem? hi, fun _ => (hw i _ (hids i hi)).mp hn⟩
    · rintro ⟨hmem, hleave⟩
      obtain ⟨i, hi⟩ := mem_iff_getElem?.mp hmem
      exact ⟨i, hi, (hw i _ (hids i hi)).mpr (hleave rfl)⟩

end Masks

/-- What is selected behind the masks is left by them. -/
theorem select_leaves {cfg : SamplerConfig χ L} (hchain : SelectsAbove cfg) {s : CommonSampler χ}
    {cond : Bool} {cur masked : List (Int32 × L)}
    (hm : ∀ c, ⊥ < c.2 → (c ∈ masked ↔ c ∈ cur ∧ (cond = true → Leaves cfg s c.1)))
    (hleft : ∃ c ∈ cur, ⊥ < c.2 ∧ (cond = true → Leaves cfg s c.1)) :
    ∃ c ∈ cur, ⊥ < c.2 ∧ c.1 = (s.applyChain cfg masked).1 ∧
      (cond = true → Leaves cfg s (s.applyChain cfg masked).1) := by
  obtain ⟨c, hc, habove, hl⟩ := hleft
  obtain ⟨c', hc', habove', he⟩ := hchain s.chain masked ⟨c, (hm c habove).mpr ⟨hc, hl⟩, habove⟩
  obtain ⟨hmem, hl'⟩ := (hm c' habove').mp hc'
  exact ⟨c', hmem, habove', he, fun hcond => he ▸ hl' hcond⟩


/-! ## Sampling -/

/-- The sampler but for the states of the chain and of the budget. -/
structure SameGrammar (s s' : CommonSampler χ) : Prop where
  grmr : s'.grmr = s.grmr
  fed : s'.fed = s.fed

/-- The sampler but for the state of the chain. -/
structure SameMasks (s s' : CommonSampler χ) : Prop extends SameGrammar s s' where
  rbudget : s'.rbudget = s.rbudget

theorem SameGrammar.trans {s s' s'' : CommonSampler χ} (h : SameGrammar s s')
    (h' : SameGrammar s' s'') : SameGrammar s s'' :=
  ⟨h'.grmr.trans h.grmr, h'.fed.trans h.fed⟩

section Frame

variable {cfg : SamplerConfig χ L} {s s' : CommonSampler χ}

omit [LinearOrder L] [OrderBot L] in
theorem SameGrammar.leaves_iff (h : SameGrammar s s') {id : Int32} :
    Leaves cfg s' id ↔ Leaves cfg s id := by
  rw [Leaves, Leaves, h.grmr]

omit [LinearOrder L] [OrderBot L] in
theorem SameMasks.shouldApply (h : SameMasks s s') :
    s'.grammarShouldApply cfg = s.grammarShouldApply cfg := by
  rw [grammarShouldApply, grammarShouldApply, h.grmr, h.rbudget]

theorem SameMasks.left (h : SameMasks s s') {cur : List (Int32 × L)} (hleft : Left cfg s cur) :
    Left cfg s' cur := by
  obtain ⟨c, hc, habove, hl⟩ := hleft
  refine ⟨c, ?_, habove, fun hs => h.leaves_iff.mpr (hl (h.shouldApply ▸ hs))⟩
  rw [applyBudget, h.rbudget]
  exact hc

omit [LinearOrder L] [OrderBot L] in
theorem sameMasks_applyChain (cfg : SamplerConfig χ L) (s : CommonSampler χ)
    (cur : List (Int32 × L)) : SameMasks s (s.applyChain cfg cur).2 :=
  ⟨⟨rfl, rfl⟩, rfl⟩

theorem forced_startForcing (cfg : BudgetConfig) (ctx : ReasoningBudget) :
    ctx.startForcing.forced cfg = cfg.forcedTokens[0]? :=
  if_neg fun h => h rfl

/-- Where the end of a reasoning block is forced, all tokens but one are masked. -/
theorem forced_of_forceReasoningEndOnEog {id : Int32}
    (h : s.forceReasoningEndOnEog cfg id = some s') :
    SameGrammar s s' ∧ ∃ u, ∀ cur : List (Int32 × L), ∀ c ∈ s'.applyBudget cfg cur, ⊥ < c.2 →
      c.1 = u := by
  unfold forceReasoningEndOnEog at h
  split at h
  · cases h
  · next ctx hctx =>
    split at h
    · cases h
    · split at h
      · cases h
      · split at h
        · cases h
        · by_cases hne : cfg.budget.forcedTokens = []
          · simp [ReasoningBudget.forceEnd, hne] at h
          · simp only [ReasoningBudget.forceEnd, if_neg hne, if_true] at h
            cases h
            obtain ⟨u, us, hu⟩ := exists_cons_of_ne_nil hne
            refine ⟨⟨rfl, rfl⟩, u, fun cur c hc habove => ?_⟩
            have hforced : ctx.startForcing.forced cfg.budget = some u := by
              rw [forced_startForcing, hu]
              rfl
            simp only [applyBudget, ReasoningBudget.apply, hforced, mem_map] at hc
            obtain ⟨c', -, rfl⟩ := hc
            split at habove
            · exact absurd habove (lt_irrefl _)
            · next he =>
              rw [if_neg he]
              exact not_not.mp he

end Frame

section Sample

variable {rawRules : List (List GrammarElement)}
  (hr : ∀ rule ∈ rawRules.map copyRule, ItemRule rule)
  (hl : ¬ LeftRecursive (alts (rawRules.map copyRule)))
  {cfg : SamplerConfig χ L} (hchain : SelectsAbove cfg) {s : CommonSampler χ}
  (hs : GrammarsOk (rawRules.map copyRule) s) {cur : List (Int32 × L)}

include hr hl hchain hs

/-- The first selection: with the grammar's mask if it is applied first. -/
theorem firstPass_settles (hleft : Left cfg s cur) (grammarFirst : Bool) :
    ∃ first, Settles (fun fuel => s.firstPass cfg fuel cur grammarFirst) first ∧
      SameMasks s first.2 ∧
      (grammarFirst = true → s.grammarShouldApply cfg = true → Leaves cfg s first.1) := by
  obtain ⟨masked, hset, hm⟩ := applyGrammarIf_settles hr hl cfg hs
    (grammarFirst && s.grammarShouldApply cfg) (s.applyBudget cfg cur)
  refine ⟨_, hset.bind (.const _), sameMasks_applyChain cfg s masked, fun hgf happ => ?_⟩
  obtain ⟨c, hc, habove, hleave⟩ := hleft
  obtain ⟨-, -, -, -, hsel⟩ := select_leaves hchain hm ⟨c, hc, habove, fun _ => hleave happ⟩
  exact hsel (by rw [hgf, happ]; rfl)

/-- Rejection sampling. -/
theorem resample_leaves (hleft : Left cfg s cur) (happ : s.grammarShouldApply cfg = true)
    {id id' : Int32} {s' : CommonSampler χ}
    (h : Settles (fun fuel => s.resample cfg fuel id cur) (id', s')) :
    SameMasks s s' ∧ Leaves cfg s id' := by
  obtain ⟨written, hset, hw⟩ := maskedByGrammar_settles hr hl cfg hs [id]
  have h := h.of_bind hset
  by_cases hn : 0 ∉ written
  · simp only [if_pos hn] at h
    obtain ⟨rfl, rfl⟩ := Prod.mk.inj ((Settles.const _).unique h)
    exact ⟨⟨⟨rfl, rfl⟩, rfl⟩, (hw 0 id rfl).mp hn⟩
  · simp only [if_neg hn] at h
    obtain ⟨masked, hset, hm⟩ := applyGrammarIf_settles hr hl cfg hs (s.grammarShouldApply cfg)
      (s.applyBudget cfg cur)
    have h := (Settles.const _).unique (h.of_bind hset)
    obtain ⟨-, -, -, -, hsel⟩ := select_leaves hchain hm hleft
    rw [h] at hsel
    have hsame := sameMasks_applyChain cfg s masked
    rw [h] at hsame
    exact ⟨hsame, hsel happ⟩

/-- What is sampled while the grammar applies is left by the grammar. -/
theorem sample_leaves (hleft : Left cfg s cur) {grammarFirst : Bool}
    (hrepair : ∀ first, Settles (fun fuel => s.firstPass cfg fuel cur grammarFirst) first →
      ∀ s₂, first.2.forceReasoningEndOnEog cfg first.1 = some s₂ → Left cfg s₂ cur)
    {sampled : Option Int32} {id : Int32} {s' : CommonSampler χ}
    (h : Settles (fun fuel => s.sample cfg fuel cur sampled grammarFirst) (id, s')) :
    SameGrammar s s' ∧ (s'.grammarShouldApply cfg = true → Leaves cfg s id) := by
  unfold sample at h
  cases sampled with
  | some id0 =>
    by_cases hno : (s.grmr.isNone && s.rbudget.isNone) = true
    · simp only [hno, if_true] at h
      obtain ⟨-, rfl⟩ := Prod.mk.inj ((Settles.const _).unique h)
      have hg : s.grmr = none := by
        rw [Bool.and_eq_true, Option.isNone_iff_eq_none] at hno
        exact hno.1
      exact ⟨⟨rfl, rfl⟩, fun _ g he => by rw [hg] at he; cases he⟩
    · obtain ⟨n, hn⟩ := h
      have := hn n le_rfl
      simp only [hno] at this
      cases this
  | none =>
    obtain ⟨first, hfirst, hsame, hfl⟩ := firstPass_settles hr hl hchain hs hleft grammarFirst
    have h := h.of_bind hfirst
    -- the token before rejection sampling, and the sampler whose masks are in force then
    obtain ⟨s₂, hs2, hleft2, hrep⟩ : ∃ s₂, SameGrammar s s₂ ∧ Left cfg s₂ cur ∧
        SameMasks s₂ (first.2.repair cfg first.1 cur).2 ∧
        (grammarFirst = true → s₂.grammarShouldApply cfg = true →
          Leaves cfg s (first.2.repair cfg first.1 cur).1) := by
      unfold repair
      cases e : first.2.forceReasoningEndOnEog cfg first.1 with
      | none =>
        refine ⟨first.2, hsame.toSameGrammar, hsame.left hleft, ⟨⟨rfl, rfl⟩, rfl⟩, ?_⟩
        rw [hsame.shouldApply]
        exact hfl
      | some s₂ =>
        obtain ⟨hgrammar, u, hu⟩ := forced_of_forceReasoningEndOnEog e
        have hleft2 := hrepair first hfirst s₂ e
        refine ⟨s₂, hsame.toSameGrammar.trans hgrammar, hleft2, sameMasks_applyChain cfg s₂ _,
          fun _ happ => ?_⟩
        obtain ⟨c, hc, habove, hl2⟩ := hleft2
        obtain ⟨c', hc', habove', he⟩ := hchain s₂.chain _ ⟨c, hc, habove⟩
        have hcu : (s₂.applyChain cfg (s₂.applyBudget cfg cur)).1 = c.1 :=
          he.symm.trans ((hu cur c' hc' habove').trans (hu cur c hc habove).symm)
        rw [hcu]
        exact (hsame.toSameGrammar.trans hgrammar).leaves_iff.mp (hl2 happ)
    obtain ⟨hsame2, hgf⟩ := hrep
    by_cases hdone : (grammarFirst ||
        !(first.2.repair cfg first.1 cur).2.grammarShouldApply cfg) = true
    · simp only [hdone, if_true] at h
      obtain ⟨rfl, rfl⟩ := Prod.mk.inj ((Settles.const _).unique h)
      refine ⟨hs2.trans hsame2.toSameGrammar, fun happ => ?_⟩
      rw [happ] at hdone
      exact hgf (by simpa using hdone) (hsame2.shouldApply ▸ happ)
    · simp only [hdone] at h
      have hg : GrammarsOk (rawRules.map copyRule) (first.2.repair cfg first.1 cur).2 :=
        fun g he => hs g (by rw [← hs2.grmr, ← hsame2.grmr]; exact he)
      have happ : (first.2.repair cfg first.1 cur).2.grammarShouldApply cfg = true := by
        by_contra hn
        exact hdone (by simp [Bool.eq_false_of_not_eq_true hn])
      obtain ⟨hsame3, hl3⟩ := resample_leaves hr hl hchain hg (hsame2.left hleft2) happ h
      have hall := hs2.trans hsame2.toSameGrammar
      exact ⟨hall.trans hsame3.toSameGrammar, fun _ => hall.leaves_iff.mp hl3⟩

end Sample

/-! ## What the grammar is fed with -/

section Fed

variable {cfg : SamplerConfig χ L} {fuel : Nat} {s s' : CommonSampler χ}

omit [LinearOrder L] [OrderBot L]

/-- A token that is fed. -/
theorem feed_ok {token : Int32} (h : s.feed cfg fuel token = .ok s') :
    (s.grmr = none ∧ s' = s) ∨ ∃ g g', s.grmr = some g ∧ g.acceptImpl cfg fuel token = .ok g' ∧
      s' = { s with grmr := some g', fed := s.fed ++ [(g, token)] } := by
  unfold CommonSampler.feed at h
  split at h
  · next e => exact .inl ⟨e, (Except.ok.inj h).symm⟩
  · next g e =>
    cases ha : g.acceptImpl cfg fuel token with
    | error err =>
      rw [ha] at h
      cases h
    | ok g' =>
      rw [ha] at h
      exact .inr ⟨g, g', e, ha, (Except.ok.inj h).symm⟩

/-- The tokens are fed in their order, if there is a grammar. -/
theorem feedAll_ok {tokens : List Int32} (h : s.feedAll cfg fuel tokens = .ok s') :
    s'.rbudget = s.rbudget ∧ s'.grmr.isSome = s.grmr.isSome ∧
      s'.fed.map Prod.snd = s.fed.map Prod.snd ++ if s.grmr.isSome then tokens else [] := by
  induction tokens generalizing s with
  | nil =>
    cases h
    simp
  | cons token tokens ih =>
    unfold feedAll at h
    cases hf : s.feed cfg fuel token with
    | error err =>
      rw [hf] at h
      cases h
    | ok s₁ =>
      rw [hf] at h
      obtain ⟨hb, hg, hfed⟩ := ih h
      rcases feed_ok hf with ⟨hn, rfl⟩ | ⟨g, g', he, -, rfl⟩
      · rw [hn] at hfed ⊢
        exact ⟨hb, hg.trans (by rw [hn]), hfed⟩
      · refine ⟨hb, hg.trans (by simp [he]), hfed.trans ?_⟩
        simp [he]

theorem feedAll_none (h : s.grmr = none) (tokens : List Int32) :
    s.feedAll cfg fuel tokens = .ok s := by
  induction tokens with
  | nil => rfl
  | cons token tokens ih =>
    have hf : s.feed cfg fuel token = .ok s := by
      unfold CommonSampler.feed
      rw [h]
      rfl
    rw [feedAll, hf]
    exact ih

theorem shouldApply_none (h : s.grmr = none) : s.grammarShouldApply cfg = false := by
  unfold grammarShouldApply
  rw [h]

/-- What an accept feeds. -/
theorem acceptWithInfo_ok {token : Int32} {info : AcceptInfo}
    (h : s.acceptWithInfo cfg fuel token true = .ok (info, s')) :
    s'.fed.map Prod.snd = s.fed.map Prod.snd ++
      if s.grmr.isSome then
        (if s.grammarShouldApply cfg then [token] else (s.acceptBudget cfg token true).endReplay)
      else [] := by
  unfold acceptWithInfo at h
  simp only [Bool.true_and] at h
  cases h1 : (s.acceptBudget cfg token true).feedAll cfg fuel
      (if (!s.grammarShouldApply cfg) = true then (s.acceptBudget cfg token true).endReplay
        else []) with
  | error err =>
    rw [h1] at h
    cases h
  | ok s₁ =>
    rw [h1] at h
    change (s₁.feedAll cfg fuel (if s.grammarShouldApply cfg = true then [token] else []) >>=
      fun s => pure (_, { s with chain := cfg.chainAccept s.chain token })) = _ at h
    cases h2 : s₁.feedAll cfg fuel (if s.grammarShouldApply cfg = true then [token] else []) with
    | error err =>
      rw [h2] at h
      cases h
    | ok s2 =>
      rw [h2] at h
      cases h
      obtain ⟨-, hg1, hfed1⟩ := feedAll_ok h1
      obtain ⟨-, -, hfed2⟩ := feedAll_ok h2
      refine hfed2.trans ?_
      rw [hfed1, hg1]
      change (s.fed.map Prod.snd ++ if s.grmr.isSome = true then _ else _) ++
        (if s.grmr.isSome = true then _ else _) = _
      cases s.grammarShouldApply cfg <;> cases s.grmr.isSome <;> simp

variable {cur : List (Int32 × L)}

theorem firstPass_same [LinearOrder L] [OrderBot L] {grammarFirst : Bool}
    {first : Int32 × CommonSampler χ} (h : s.firstPass cfg fuel cur grammarFirst = .ok first) :
    SameGrammar s first.2 := by
  unfold firstPass at h
  cases hm : s.applyGrammarIf cfg fuel (grammarFirst && s.grammarShouldApply cfg)
      (s.applyBudget cfg cur) with
  | error err =>
    rw [hm] at h
    cases h
  | ok masked =>
    rw [hm] at h
    exact Except.ok.inj h ▸ (sameMasks_applyChain cfg s masked).toSameGrammar

theorem repair_same [LinearOrder L] [OrderBot L] (cfg : SamplerConfig χ L)
    (s : CommonSampler χ) (id : Int32)
    (cur : List (Int32 × L)) : SameGrammar s (s.repair cfg id cur).2 := by
  unfold repair
  cases e : s.forceReasoningEndOnEog cfg id with
  | none => exact ⟨rfl, rfl⟩
  | some s2 =>
    exact (forced_of_forceReasoningEndOnEog e).1.trans (sameMasks_applyChain cfg s2 _).toSameGrammar

theorem resample_same [LinearOrder L] [OrderBot L] {id : Int32}
    {out : Int32 × CommonSampler χ} (h : s.resample cfg fuel id cur = .ok out) :
    SameGrammar s out.2 := by
  unfold resample at h
  cases hw : s.maskedByGrammar cfg fuel [id] with
  | error err =>
    rw [hw] at h
    cases h
  | ok written =>
    rw [hw] at h
    by_cases hn : 0 ∉ written
    · change (if 0 ∉ written then pure (id, s) else _) = _ at h
      rw [if_pos hn] at h
      exact Except.ok.inj h ▸ ⟨rfl, rfl⟩
    · change (if 0 ∉ written then _ else s.applyGrammarIf cfg fuel (s.grammarShouldApply cfg)
        (s.applyBudget cfg cur) >>= fun masked => pure (s.applyChain cfg masked)) = _ at h
      rw [if_neg hn] at h
      cases hm : s.applyGrammarIf cfg fuel (s.grammarShouldApply cfg) (s.applyBudget cfg cur) with
      | error err =>
        rw [hm] at h
        cases h
      | ok masked =>
        rw [hm] at h
        exact Except.ok.inj h ▸ (sameMasks_applyChain cfg s masked).toSameGrammar

/-- Sampling feeds nothing. -/
theorem sample_same [LinearOrder L] [OrderBot L] {sampled : Option Int32}
    {grammarFirst : Bool} {out : Int32 × CommonSampler χ}
    (h : s.sample cfg fuel cur sampled grammarFirst = .ok out) : SameGrammar s out.2 := by
  unfold sample at h
  cases sampled with
  | some id =>
    dsimp only at h
    split at h
    · exact Except.ok.inj h ▸ ⟨rfl, rfl⟩
    · cases h
  | none =>
    cases hf : s.firstPass cfg fuel cur grammarFirst with
    | error err =>
      rw [hf] at h
      cases h
    | ok first =>
      rw [hf] at h
      have hsame := (firstPass_same hf).trans (repair_same cfg first.2 first.1 cur)
      change (if (grammarFirst ||
          !(first.2.repair cfg first.1 cur).2.grammarShouldApply cfg) = true then
        pure (first.2.repair cfg first.1 cur)
        else (first.2.repair cfg first.1 cur).2.resample cfg fuel
          (first.2.repair cfg first.1 cur).1 cur) = _ at h
      split at h
      · exact Except.ok.inj h ▸ hsame
      · exact hsame.trans (resample_same h)

/-- Unless an end sequence is replayed into a grammar that is not lazy, it is fed with what is
due. -/
theorem fed_eq_dueTokens {token : Int32} (hno : NoEagerReplay cfg s token) : (if s.grmr.isSome then
        (if s.grammarShouldApply cfg then [token] else (s.acceptBudget cfg token true).endReplay)
      else []) = dueTokens cfg s token := by
  unfold dueTokens
  cases hg : s.grmr with
  | none =>
    simp [shouldApply_none hg]
  | some g =>
    simp only [Option.isSome_some, if_true, and_true]
    by_cases hlazy : cfg.grammarLazy = true
    · -- a lazy grammar applies unless the budget is in a block
      cases hb : s.rbudget with
      | none =>
        have happ : s.grammarShouldApply cfg = true := by
          unfold grammarShouldApply
          rw [hg, hb]
        simp [happ, finishedBlock]
      | some ctx =>
        have happ : s.grammarShouldApply cfg = decide ctx.state.Searching := by
          unfold grammarShouldApply
          rw [hg, hb]
          simp only [hlazy, if_true]
          rfl
        have hb' : (s.acceptBudget cfg token true).rbudget =
          some (ctx.accept cfg.budget token) := by
          simp [acceptBudget, hb]
        by_cases hs : ctx.state.Searching
        · simp [happ, hs, hlazy, hb', finishedBlock]
        · simp [happ, hs, hlazy, hb', finishedBlock, endReplay]
    · have hlazy := Bool.eq_false_of_not_eq_true hlazy
      cases happ : s.grammarShouldApply cfg with
      | true => simp [hlazy]
      | false => simpa [hlazy] using hno hlazy (by rw [hg]; rfl) happ

end Fed

/-! ## Accepting what the grammar leaves -/

section Accept

variable {rawRules : List (List GrammarElement)} {start : Nat}
  (hr : ∀ rule ∈ rawRules.map copyRule, ItemRule rule)
  (hl : ¬ LeftRecursive (alts (rawRules.map copyRule)))
  {cfg : SamplerConfig χ L}

/-- A grammar that is not lazy, in a run. -/
def EagerGrammar (rawRules : List (List GrammarElement)) (start : Nat) (g : LlamaGrammar) : Prop :=
  (grammarSys rawRules start).Reach (fun _ _ => True) g.state ∧ g.state.awaitingTrigger = false

theorem acceptToken_awaitingTrigger {g g' : GrammarState} {id : Nat} {piece : List UInt8}
    (h : Settles (fun fuel => Grammar.acceptToken fuel g id piece) g') :
    g'.awaitingTrigger = g.awaitingTrigger := by
  obtain ⟨n, hn⟩ := h
  have hn : Grammar.acceptToken n g id piece = .ok g' := hn n le_rfl
  unfold Grammar.acceptToken at hn
  dsimp only at hn
  split at hn
  · cases hn
  · split at hn
    · cases hn
    · rw [← Except.ok.inj hn]

include hr hl

omit [LinearOrder L] [OrderBot L] in
/-- A token that is left is accepted. -/
theorem acceptImpl_settles {g : LlamaGrammar} (hg : EagerGrammar rawRules start g) {token : Int32}
    (hleave : GrammarLeaves cfg.vocab g token)
    (hno : cfg.vocab.isEog (symbol token) = false →
      (∃ st ∈ g.state.grammarStacks, Detours g.state.rules
        (decodeUtf8 (cfg.vocab.piece (symbol token)) g.state.partialUtf8).2 (symbol token)
        (decodeUtf8 (cfg.vocab.piece (symbol token)) g.state.partialUtf8).1.dropLast st) →
      ∃ st ∈ g.state.grammarStacks, ReadsPiece g.state.rules (symbol token)
        (decodeUtf8 (cfg.vocab.piece (symbol token)) g.state.partialUtf8).1.dropLast st) :
    ∃ g', Settles (fun fuel => g.acceptImpl cfg fuel token) g' ∧
      EagerGrammar rawRules start g' := by
  obtain ⟨hreach, hawait⟩ := hg
  have hok : GrammarOk (rawRules.map copyRule) g.state := hreach.inv (grammarSys_inductive hr hl)
  obtain ⟨single, hset, -, hw⟩ :=
    applyImpl_settles hok.refs hr hl hok.rules_eq hok.live hok.ne cfg.vocab [symbol token]
  have hn : 0 ∉ single := by
    obtain ⟨w, hset', hn⟩ := hleave
    exact hset.unique hset' ▸ hn
  unfold LlamaGrammar.acceptImpl
  simp only [hawait]
  by_cases he : cfg.vocab.isEog (symbol token) = true
  · have hany : g.state.grammarStacks.any List.isEmpty = true :=
      (((hw 0 _ rfl (.inl he)).mp hn).resolve_left (by rw [hawait]; decide)).2
    refine ⟨g, ?_, hreach, hawait⟩
    simp only [he, if_true, hany]
    exact .const g
  · have he := Bool.eq_false_of_not_eq_true he
    have hp : pieceEmpty (cfg.vocab.piece (symbol token)) = false := by
      by_contra hp
      have hp := Bool.eq_true_of_not_eq_false hp
      rcases (hw 0 _ rfl (.inr hp)).mp hn with h | h
      · exact absurd (hawait.symm.trans h) (by decide)
      · exact absurd (he.symm.trans h.1) (by decide)
    have hi : [symbol token][0]? = some (symbol token) := rfl
    have hagree := (apply_accept_agree hr hl hreach cfg.vocab hi he hp).mpr fun h =>
      hno he (h.resolve_left (by rw [hawait]; decide))
    obtain ⟨state, hacc⟩ := hagree.1 hleave
    refine ⟨{ g with state }, ?_, .step hreach (fun _ ho => ho.elim)
      (show (grammarSys rawRules start).step g.state
        (.acceptToken (symbol token) (cfg.vocab.piece (symbol token))) state from hacc) trivial,
      (acceptToken_awaitingTrigger hacc).trans hawait⟩
    simp only [he]
    exact hacc.bind (.const _)

omit [LinearOrder L] [OrderBot L] in
/-- With a token that is left the sampler accepts, and feeds its grammar with that token or with
nothing. -/
theorem acceptWithInfo_settles {s : CommonSampler χ}
    (hg : ∀ g, s.grmr = some g → EagerGrammar rawRules start g) {token : Int32}
    (hleave : s.grammarShouldApply cfg = true → Leaves cfg s token)
    (hreplay : s.grmr.isSome → s.grammarShouldApply cfg = false →
      (s.acceptBudget cfg token true).endReplay = [])
    (hno : s.grammarShouldApply cfg = true → NoDetour cfg s token) :
    ∃ info s', Settles (fun fuel => s.acceptWithInfo cfg fuel token true) (info, s') ∧
      (∀ g, s'.grmr = some g → EagerGrammar rawRules start g) ∧
      ∀ f ∈ s'.fed, f ∈ s.fed ∨ GrammarLeaves cfg.vocab f.1 f.2 := by
  unfold acceptWithInfo
  simp only [Bool.true_and]
  -- nothing is replayed, or there is no grammar
  have hfirst : Settles (fun fuel => (s.acceptBudget cfg token true).feedAll cfg fuel
      (if (!s.grammarShouldApply cfg) = true then (s.acceptBudget cfg token true).endReplay
        else [])) (s.acceptBudget cfg token true) := by
    cases happ : s.grammarShouldApply cfg with
    | true => exact .const _
    | false =>
      cases hgr : s.grmr with
      | some g =>
        rw [hreplay (by rw [hgr]; rfl) happ]
        exact .const _
      | none =>
        have hnone : (s.acceptBudget cfg token true).grmr = none := hgr
        exact ⟨0, fun m _ => feedAll_none hnone _⟩
  cases happ : s.grammarShouldApply cfg with
  | false =>
    rw [happ] at hfirst
    exact ⟨_, _, hfirst.bind (.bind (.const _) (.const _)), hg, fun f hf => .inl hf⟩
  | true =>
    rw [happ] at hfirst
    cases hgr : s.grmr with
    | none =>
      rw [shouldApply_none hgr] at happ
      cases happ
    | some g =>
      obtain ⟨g', hset, hg'⟩ := acceptImpl_settles hr hl (hg g hgr) (hleave happ g hgr)
        (hno happ g hgr)
      have hfeed : Settles (fun fuel => (s.acceptBudget cfg token true).feedAll cfg fuel [token])
          { s.acceptBudget cfg token true with
            grmr := some g'
            fed := s.fed ++ [(g, token)] } := by
        have hgr' : (s.acceptBudget cfg token true).grmr = some g := hgr
        unfold feedAll CommonSampler.feed
        simp only [hgr']
        exact .bind (.bind hset (.const _)) (.const _)
      refine ⟨_, _, hfirst.bind (.bind hfeed (.const _)), fun g1 he => ?_, fun f hf => ?_⟩
      · exact Option.some.inj he ▸ hg'
      · rcases mem_append.mp hf with hf | hf
        · exact .inl hf
        · obtain rfl := mem_singleton.mp hf
          exact .inr (hleave happ g hgr)

end Accept

/-! ## The invariants -/

section Invariants

variable {rawRules : List (List GrammarElement)} {start : Nat} {cfg : SamplerConfig χ L}

/-- The grammar is fed with what is due, unless an end sequence is replayed into a grammar that is
not lazy. -/
theorem fed_eq_due {r : SamplerRun χ} (h : (samplerSys cfg rawRules start).Reach (FeedOk cfg) r) :
    r.sampler.fed.map Prod.snd = r.due := by
  induction h with
  | init h =>
    rw [h.2.1, h.2.2.2]
    rfl
  | @step r r' op _ _ hs hok ih =>
    cases op with
    | sample cur sampled grammarFirst =>
      obtain ⟨id, s, -, ⟨n, hn⟩, rfl⟩ := hs
      have hfed : s.fed = r.sampler.fed := (sample_same (hn n le_rfl)).fed
      rw [← ih]
      exact congrArg _ hfed
    | accept =>
      obtain ⟨id, info, s, hp, ⟨n, hn⟩, rfl⟩ := hs
      have := acceptWithInfo_ok (hn n le_rfl)
      rw [fed_eq_dueTokens (hok id hp).1] at this
      rw [← ih]
      exact this

/-- A sampler whose grammar is not lazy: the token that waits is left, and so was all that the
grammar was fed with. -/
structure SamplerInv (rawRules : List (List GrammarElement)) (start : Nat)
    (cfg : SamplerConfig χ L) (r : SamplerRun χ) : Prop where
  grammar : ∀ g, r.sampler.grmr = some g → EagerGrammar rawRules start g
  pending : ∀ id, r.pending = some id → r.sampler.grammarShouldApply cfg = true →
    Leaves cfg r.sampler id
  fed : ∀ f ∈ r.sampler.fed, GrammarLeaves cfg.vocab f.1 f.2

variable (hr : ∀ rule ∈ rawRules.map copyRule, ItemRule rule)
  (hl : ¬ LeftRecursive (alts (rawRules.map copyRule)))

include hr hl

theorem samplerInv (hchain : SelectsAbove cfg) (hlazy : cfg.grammarLazy = false) {r : SamplerRun χ}
    (h : (samplerSys cfg rawRules start).Reach
      (fun r op => MasksLeave cfg r op ∧ FeedOk cfg r op) r) :
    SamplerInv rawRules start cfg r := by
  induction h with
  | init h =>
    refine ⟨fun g hg => ⟨(h.1 g hg).1, (h.1 g hg).2 hlazy⟩, fun id hp => ?_, fun f hf => ?_⟩
    · rw [h.2.2.1] at hp
      cases hp
    · rw [h.2.1] at hf
      cases hf
  | @step r r' op _ _ hs hok ih =>
    cases op with
    | sample cur sampled grammarFirst =>
      obtain ⟨id, s, -, hset, rfl⟩ := hs
      have hg : GrammarsOk (rawRules.map copyRule) r.sampler := fun g hg =>
        (ih.grammar g hg).1.inv (grammarSys_inductive hr hl)
      obtain ⟨hsame, hleave⟩ := sample_leaves hr hl hchain hg hok.1.1 hok.1.2 hset
      refine ⟨fun g hg => ih.grammar g (hsame.grmr ▸ hg), fun id' hp happ => ?_, ?_⟩
      · cases hp
        exact hsame.leaves_iff.mpr (hleave happ)
      · change ∀ f ∈ s.fed, _
        rw [hsame.fed]
        exact ih.fed
    | accept =>
      obtain ⟨id, info, s, hp, hset, rfl⟩ := hs
      obtain ⟨hreplay, hno⟩ := hok.2 id hp
      obtain ⟨info', s', hset', hg, hfed⟩ := acceptWithInfo_settles hr hl ih.grammar
        (ih.pending id hp) (hreplay hlazy) (hno hlazy)
      obtain ⟨-, rfl⟩ := Prod.mk.inj (hset.unique hset')
      refine ⟨hg, fun id' hp' => (nomatch hp'), fun f hf => ?_⟩
      exact (hfed f hf).elim (ih.fed f) fun hleave => hleave

end Invariants

/-- As long as the masks leave a token, a grammar that is not lazy is fed with tokens that it leaves
only, so that no accept throws, and every grammar is fed with what is due: if no end sequence is
replayed into a grammar that is not lazy, and no token is kept by a detour only. -/
theorem sampler_grammar_safe {cfg : SamplerConfig χ L} (hchain : SelectsAbove cfg)
    {rawRules : List (List GrammarElement)} {start : Nat}
    (hr : ∀ rule ∈ rawRules.map copyRule, ItemRule rule)
    (hl : ¬ LeftRecursive (alts (rawRules.map copyRule))) {r : SamplerRun χ}
    (h : (samplerSys cfg rawRules start).Reach
      (fun r op => MasksLeave cfg r op ∧ FeedOk cfg r op) r) :
    r.sampler.fed.map Prod.snd = r.due ∧
      (cfg.grammarLazy = false →
        (∀ f ∈ r.sampler.fed, GrammarLeaves cfg.vocab f.1 f.2) ∧
        ∀ id, r.pending = some id → FeedOk cfg r .accept →
          ∃ out, Settles (fun fuel => r.sampler.acceptWithInfo cfg fuel id true) out) := by
  refine ⟨fed_eq_due (h.mono fun _ _ h => h.2), fun hlazy => ?_⟩
  have hinv := samplerInv hr hl hchain hlazy h
  refine ⟨hinv.fed, fun id hp hok => ?_⟩
  obtain ⟨hreplay, hno⟩ := hok id hp
  obtain ⟨info, s, hset, -⟩ := acceptWithInfo_settles hr hl hinv.grammar (hinv.pending id hp)
    (hreplay hlazy) (hno hlazy)
  exact ⟨_, hset⟩

/-! ## Two runs -/

/-- The first candidate above `0`. -/
def firstAbove (_ : Unit) (cur : List (Int32 × Nat)) : Int32 × Unit :=
  (((cur.find? fun c => 0 < c.2).map Prod.fst).getD (-1), ())

/-- An eager grammar of an output format; the tokens `3` and `4` have the pieces `>` and `a`. -/
def outputFormat : SamplerConfig Unit Nat where
  vocab := ⟨fun id => if id = 4 then [97] else [62], fun id => id = 9⟩
  grammarLazy := false
  grammarType := .outputFormat
  budget := twoTokens
  chainApply := firstAbove
  chainAccept := fun _ _ => ()

theorem selectsAbove_outputFormat : SelectsAbove outputFormat := by
  rintro ⟨⟩ cur ⟨c, hc, habove⟩
  change ∃ c ∈ cur, _ ∧ c.1 = ((cur.find? fun c => decide (0 < c.2)).map Prod.fst).getD (-1)
  cases e : cur.find? fun c => decide (0 < c.2) with
  | none => exact absurd (decide_eq_true habove) (find?_eq_none.mp e c hc)
  | some c' =>
    have hpos := find?_some e
    exact ⟨c', mem_of_find?_eq_some e, of_decide_eq_true hpos, rfl⟩

/-- `root ::= "a"`. -/
def onlyA : List (List GrammarElement) := [[⟨.char, 97⟩, ⟨.end_, 0⟩]]

/-- The grammar as it is initialised. -/
def onlyA_start : LlamaGrammar where
  state := { rules := onlyA.map copyRule, grammarStacks := [[⟨0, 0⟩]] }

theorem onlyA_not_leftRecursive : ¬ LeftRecursive (alts (onlyA.map copyRule)) := by
  refine not_leftRecursive_of_terms fun r rhs hrhs q ss => ?_
  cases r with
  | zero =>
    have : rhs = [.term [⟨.char, 97⟩]] := by
      revert hrhs
      exact fun h => mem_singleton.mp h
    simp [this]
  | succ r =>
    have e : alts (onlyA.map copyRule) (r + 1) = [[]] := rfl
    rw [e] at hrhs
    simp [mem_singleton.mp hrhs]

theorem onlyA_reach : (grammarSys onlyA 0).Reach (fun _ _ => True) onlyA_start.state := by
  refine .init ⟨rfl, rfl, 3, fun m hm => ?_⟩
  obtain ⟨k, rfl⟩ := Nat.exists_eq_add_of_le' hm
  rfl

/-- It leaves `a`. -/
theorem onlyA_leaves : GrammarLeaves outputFormat.vocab onlyA_start 4 := by
  refine ⟨[], ⟨3, fun m hm => ?_⟩, not_mem_nil⟩
  obtain ⟨k, rfl⟩ := Nat.exists_eq_add_of_le' hm
  rfl

/-- The sampler without a budget, before a token and behind the `a`. -/
def freeSampler : SamplerRun Unit where
  sampler := { grmr := some onlyA_start, rbudget := none, chain := () }

/-- The token `3` is selected first, and `4` behind the mask of the grammar. -/
theorem sampler_grammar_safe_resampled : ∃ r : SamplerRun Unit, r.pending = some 4 ∧
    r.sampler.fed.map Prod.snd = r.due ∧
      (outputFormat.grammarLazy = false →
        (∀ f ∈ r.sampler.fed, GrammarLeaves outputFormat.vocab f.1 f.2) ∧
        ∀ id, r.pending = some id → FeedOk outputFormat r .accept →
          ∃ out, Settles (fun fuel => r.sampler.acceptWithInfo outputFormat fuel id true) out) := by
  have hinit : (samplerSys outputFormat onlyA 0).Reach
      (fun r op => MasksLeave outputFormat r op ∧ FeedOk outputFormat r op) freeSampler :=
    .init ⟨fun g hg => Option.some.inj hg ▸ ⟨onlyA_reach, fun _ => rfl⟩, rfl, rfl, rfl⟩
  have hstep : (samplerSys outputFormat onlyA 0).step freeSampler
      (.sample [(3, 5), (4, 7)] none false) { freeSampler with pending := some 4 } := by
    refine ⟨4, freeSampler.sampler, rfl, ⟨3, fun m hm => ?_⟩, rfl⟩
    obtain ⟨k, rfl⟩ := Nat.exists_eq_add_of_le' hm
    rfl
  have hleft : Left outputFormat freeSampler.sampler [(3, 5), (4, 7)] :=
    ⟨(4, 7), by decide, by decide, fun _ g hg => Option.some.inj hg ▸ onlyA_leaves⟩
  have hmasks : MasksLeave outputFormat freeSampler (.sample [(3, 5), (4, 7)] none false) := by
    refine ⟨hleft, fun first hfirst s hs => ?_⟩
    have hnone : first.2.rbudget = none := by
      obtain ⟨n, hn⟩ := hfirst
      obtain ⟨rfl⟩ := Except.ok.inj (hn n le_rfl)
      rfl
    rw [forceReasoningEndOnEog, hnone] at hs
    cases hs
  exact ⟨_, rfl, sampler_grammar_safe selectsAbove_outputFormat (by decide) onlyA_not_leftRecursive
    (.step hinit (fun _ ho => ho.elim) hstep ⟨hmasks, trivial⟩)⟩

/-- The sampler inside of a reasoning block, which the prompt has begun. -/
def thinkingSampler : SamplerRun Unit where
  sampler := { grmr := some onlyA_start, rbudget := some (.init twoTokens .counting), chain := () }

/-- The end of a reasoning block is replayed into the grammar of an output format, which throws. -/
theorem eager_replay_throws : ∃ r : SamplerRun Unit,
    (samplerSys outputFormat onlyA 0).Reach (MasksLeave outputFormat) r ∧ r.pending = some 3 ∧
      r.sampler.grammarShouldApply outputFormat = false ∧
      ¬ ∃ out, Settles (fun fuel => r.sampler.acceptWithInfo outputFormat fuel 3 true) out := by
  have hinit : (samplerSys outputFormat onlyA 0).Reach (MasksLeave outputFormat) thinkingSampler :=
    .init ⟨fun g hg => Option.some.inj hg ▸ ⟨onlyA_reach, fun _ => rfl⟩, rfl, rfl, rfl⟩
  have hstep : (samplerSys outputFormat onlyA 0).step thinkingSampler
      (.sample [(3, 5), (4, 7)] none false) { thinkingSampler with pending := some 3 } := by
    refine ⟨3, thinkingSampler.sampler, rfl, ⟨0, fun m _ => rfl⟩, rfl⟩
  have hleft : Left outputFormat thinkingSampler.sampler [(3, 5), (4, 7)] :=
    ⟨(3, 5), by decide, by decide, fun happ => absurd happ (by decide)⟩
  have hmasks : MasksLeave outputFormat thinkingSampler (.sample [(3, 5), (4, 7)] none false) := by
    refine ⟨hleft, fun first hfirst s hs => ?_⟩
    obtain ⟨n, hn⟩ := hfirst
    obtain ⟨rfl⟩ := Except.ok.inj (hn n le_rfl)
    cases hs
  refine ⟨_, .step hinit (fun _ ho => ho.elim) hstep hmasks, rfl, rfl, ?_⟩
  rintro ⟨out, n, hn⟩
  have hout := hn (n + 3) (Nat.le_add_right n 3)
  have hreplay : (thinkingSampler.sampler.acceptBudget outputFormat 3 true).endReplay = [3] := by
    decide +kernel
  simp only [acceptWithInfo, hreplay] at hout
  cases hout

end BeeLlama.Sampling
