import BeeLlama.Sampling.ReasoningBudget

/-!
# Runs of the reasoning budget

* `BudgetMove`: what a call can do, and `step_cases`, that it does nothing else.
* `EndInv`, `WindowInv`, `ForcedInv`: the matcher of the end sequences, the tokens of a reasoning
  block, and those of a stay in `forcing`. They hold in every run.
* `StartInv`: the matcher of the start sequences. It is not reset where the end is forced, so what
  it has seen must not be left in the middle of a sequence then.
* `budget_sound`: what a run that meets this does.
-/

namespace BeeLlama.Sampling

open ReasoningBudget List

/-- What a call does. -/
inductive BudgetMove (cfg : BudgetConfig) (ctx : ReasoningBudget) :
    BudgetOp → ReasoningBudget → Prop where
  | search {t : Int32} (hs : ctx.state.Searching) (hp : (ctx.startMatcher.advance t).1 < 0) :
      BudgetMove cfg ctx (.accept t) { ctx with startMatcher := (ctx.startMatcher.advance t).2 }
  | activateIdle {t : Int32} (hs : ctx.state = .idle) (hp : 0 ≤ (ctx.startMatcher.advance t).1) :
      BudgetMove cfg ctx (.accept t)
        (activate cfg { ctx with startMatcher := (ctx.startMatcher.advance t).2 })
  | activateDone {t : Int32} (hs : ctx.state = .done) (hp : 0 ≤ (ctx.startMatcher.advance t).1) :
      BudgetMove cfg ctx (.accept t)
        (activate cfg { ctx with
          startMatcher := (ctx.startMatcher.advance t).2
          endMatcher := ctx.endMatcher.reset
          endMatch := -1 })
  | naturalEnd {t : Int32} (hs : ctx.state.Reasoning) (hp : 0 ≤ (ctx.endMatcher.advance t).1) :
      BudgetMove cfg ctx (.accept t)
        { ctx with
          endMatcher := (ctx.endMatcher.advance t).2
          state := .done
          endMatch := (ctx.endMatcher.advance t).1 }
  | count {t : Int32} (hs : ctx.state = .counting) (hr : 0 < ctx.remaining - 1) :
      BudgetMove cfg ctx (.accept t)
        { ctx with
          endMatcher := (ctx.endMatcher.advance t).2
          remaining := ctx.remaining - 1 }
  | spent {t : Int32} (hs : ctx.state = .counting) :
      BudgetMove cfg ctx (.accept t)
        (startForcing { ctx with
          endMatcher := (ctx.endMatcher.advance t).2
          remaining := ctx.remaining - 1 })
  | wait {t : Int32} (hs : ctx.state = .counting) :
      BudgetMove cfg ctx (.accept t)
        { ctx with
          endMatcher := (ctx.endMatcher.advance t).2.reset
          remaining := ctx.remaining - 1
          state := .waitingUtf8 }
  | waitMore {t : Int32} (hs : ctx.state = .waitingUtf8) (hc : cfg.utf8Complete t = false) :
      BudgetMove cfg ctx (.accept t) { ctx with endMatcher := (ctx.endMatcher.advance t).2 }
  | waited {t : Int32} (hs : ctx.state = .waitingUtf8) :
      BudgetMove cfg ctx (.accept t)
        (startForcing { ctx with endMatcher := (ctx.endMatcher.advance t).2 })
  | forceMore {t : Int32} (hs : ctx.state = .forcing)
      (ht : ∀ u, cfg.forcedTokens[ctx.forcePos]? = some u → u = t)
      (hlen : ctx.forcePos + 1 < cfg.forcedTokens.length) :
      BudgetMove cfg ctx (.accept t)
        { ctx with
          endMatcher := (ctx.endMatcher.advance t).2
          forcePos := ctx.forcePos + 1 }
  | forceLast {t : Int32} (hs : ctx.state = .forcing)
      (ht : ∀ u, cfg.forcedTokens[ctx.forcePos]? = some u → u = t)
      (hlen : cfg.forcedTokens.length ≤ ctx.forcePos + 1) :
      BudgetMove cfg ctx (.accept t)
        { ctx with
          endMatcher := (ctx.endMatcher.advance t).2
          forcePos := ctx.forcePos + 1
          state := .done
          endMatch := (ctx.endMatcher.advance t).1 }
  | force (hs : ctx.state = .counting) : BudgetMove cfg ctx .force ctx.startForcing
  | forceNot (hs : ctx.state ≠ .counting) : BudgetMove cfg ctx .force ctx
  | forceEnd : BudgetMove cfg ctx .forceEnd ctx.startForcing
  | reset : BudgetMove cfg ctx .reset (ctx.reset cfg)

section Steps

variable {cfg : BudgetConfig} {ctx ctx' : ReasoningBudget}

/-- An accept moves the machine. -/
theorem accept_move {t : Int32} (ht : (ctx.forced cfg).all (· = t)) :
    BudgetMove cfg ctx (.accept t) (ctx.accept cfg t) := by
  unfold ReasoningBudget.accept
  split
  · next hs =>
    dsimp only
    split
    · next hp => exact .activateIdle hs hp
    · next hp => exact .search (.inl hs) (not_le.mp hp)
  · next hs =>
    dsimp only
    split
    · next hp => exact .naturalEnd (.inl hs) hp
    · split
      · split
        · exact .spent hs
        · exact .wait hs
      · next hr => exact .count hs (not_le.mp hr)
  · next hs =>
    dsimp only
    split
    · next hp => exact .naturalEnd (.inr hs) hp
    · split
      · exact .waited hs
      · next hc => exact .waitMore hs (Bool.eq_false_of_not_eq_true hc)
  · next hs =>
    have ht : ∀ u, cfg.forcedTokens[ctx.forcePos]? = some u → u = t := fun u hu => by
      rw [forced, if_neg (fun h => h hs), hu] at ht
      exact of_decide_eq_true ht
    dsimp only
    split
    · next hlen => exact .forceLast hs ht hlen
    · next hlen => exact .forceMore hs ht (not_le.mp hlen)
  · next hs =>
    dsimp only
    split
    · next hp => exact .activateDone hs hp
    · next hp => exact .search (.inr hs) (not_le.mp hp)

/-- A call does nothing else. -/
theorem step_cases (hforced : cfg.forcedTokens ≠ []) {op : BudgetOp}
    (h : step cfg ctx op = some ctx') : BudgetMove cfg ctx op ctx' := by
  cases op with
  | accept t =>
    simp only [step] at h
    split at h
    · next ht => exact Option.some.inj h ▸ accept_move ht
    · cases h
  | force =>
    cases h
    unfold ReasoningBudget.force
    split
    · next hs => exact .forceNot hs
    · next hs => exact .force (not_not.mp hs)
  | forceEnd =>
    cases h
    rw [ReasoningBudget.forceEnd, if_neg hforced]
    exact .forceEnd
  | reset =>
    cases h
    exact .reset

end Steps

@[simp] theorem startForcing_state (ctx : ReasoningBudget) :
    ctx.startForcing.state = .forcing := rfl

@[simp] theorem startForcing_forcePos (ctx : ReasoningBudget) : ctx.startForcing.forcePos = 0 := rfl

@[simp] theorem startForcing_endMatch (ctx : ReasoningBudget) :
    ctx.startForcing.endMatch = ctx.endMatch := rfl

@[simp] theorem startForcing_endMatcher (ctx : ReasoningBudget) :
    ctx.startForcing.endMatcher = ctx.endMatcher.reset := rfl

@[simp] theorem startForcing_startMatcher (ctx : ReasoningBudget) :
    ctx.startForcing.startMatcher = ctx.startMatcher := rfl

@[simp] theorem activate_endMatch (cfg : BudgetConfig) (ctx : ReasoningBudget) :
    (ctx.activate cfg).endMatch = ctx.endMatch := by
  unfold activate
  split <;> rfl

@[simp] theorem activate_endMatcher (cfg : BudgetConfig) (ctx : ReasoningBudget) :
    (ctx.activate cfg).endMatcher = ctx.endMatcher := by
  unfold activate
  split <;> rfl

@[simp] theorem activate_startMatcher (cfg : BudgetConfig) (ctx : ReasoningBudget) :
    (ctx.activate cfg).startMatcher = ctx.startMatcher := by
  unfold activate
  split <;> rfl

/-- Where the budget is counted after a start sequence, all of it is left; where the end is forced,
it is forced from the first token on. -/
theorem activate_spec (cfg : BudgetConfig) (ctx : ReasoningBudget) :
    ((ctx.activate cfg).state = .counting ∧ 0 < cfg.budget ∧
      (ctx.activate cfg).remaining = cfg.budget) ∨
    ((ctx.activate cfg).state = .forcing ∧ (ctx.activate cfg).forcePos = 0) := by
  unfold activate
  split
  · exact .inr ⟨rfl, rfl⟩
  · next h => exact .inl ⟨rfl, not_le.mp h, rfl⟩

/-! ## The end sequences -/

/-- The matcher of the end sequences knows accepted tokens only, and a sequence that is reported
ended with the last of them at the transition to `done`. -/
structure EndInv (cfg : BudgetConfig) (ctx : ReasoningBudget) (log : List BudgetEvent) : Prop where
  seqs : ctx.endMatcher.seqs = collect cfg.endSeqs
  idle : ctx.state = .idle → ctx.endMatcher.state = 0
  tracks : ctx.state.Reasoning ∨ ctx.state = .forcing → ctx.endMatcher.Tracks (accepted log)
  endMatch : 0 ≤ ctx.endMatch →
    ∃ seq, ctx.endMatcher.seqs[ctx.endMatch.toNat]? = some seq ∧ seq <:+ doneTokens log

variable {e : BudgetEvent} {t : Int32} {s : BudgetState}

theorem accepted_accept (h : e.op = .accept t)
    (log : List BudgetEvent) : accepted (e :: log) = accepted log ++ [t] := by
  rw [accepted, h, BudgetOp.tokens]

theorem doneTokens_done (hb : e.before.state ≠ .done)
    (ha : e.after.state = .done) (log : List BudgetEvent) :
    doneTokens (e :: log) = accepted (e :: log) :=
  if_pos ⟨hb, ha⟩

theorem doneTokens_other (h : e.before.state = .done ∨ e.after.state ≠ .done)
    (log : List BudgetEvent) : doneTokens (e :: log) = doneTokens log :=
  if_neg fun ⟨hb, ha⟩ => h.elim hb fun h => h ha

theorem Searching.not_reasoning (h : s.Searching) : ¬ (s.Reasoning ∨ s = .forcing) := by
  rcases h with rfl | rfl <;> decide

theorem Reasoning.ne_done (h : s.Reasoning) : s ≠ .done := by
  rcases h with rfl | rfl <;> decide

variable {log : List BudgetEvent} {ctx ctx' : ReasoningBudget} {cfg : BudgetConfig}

/-- The end of a block, natural or forced: the match is one of accepted tokens. -/
theorem EndInv.finish (h : EndInv cfg ctx log) (hs : ctx.state.Reasoning ∨ ctx.state = .forcing)
    (hstate : ctx'.state = .done) (hm : ctx'.endMatcher = (ctx.endMatcher.advance t).2)
    (hp : ctx'.endMatch = (ctx.endMatcher.advance t).1) :
    EndInv cfg ctx' (⟨ctx, .accept t, ctx'⟩ :: log) where
  seqs := by rw [hm]; exact h.seqs
  idle := fun hi => by rw [hstate] at hi; cases hi
  tracks := fun hr => by rw [hstate] at hr; exact absurd hr (by decide)
  endMatch := fun hge => by
    rw [hp] at hge
    obtain ⟨seq, hseq, hsuf⟩ := (h.tracks hs).matched hge
    refine ⟨seq, by rw [hm, hp]; exact hseq, ?_⟩
    have hb : ctx.state ≠ .done := by
      rcases hs with hs | hs
      · exact Reasoning.ne_done hs
      · rw [hs]; decide
    rw [doneTokens_done hb hstate, accepted_accept rfl]
    exact hsuf

variable {op : BudgetOp}

/-- The other calls: no match is reported, and the last one stays where the machine was not done
anew. -/
theorem EndInv.keep (h : EndInv cfg ctx log) (hseqs : ctx'.endMatcher.seqs = ctx.endMatcher.seqs)
    (hm : ctx'.endMatcher.state = 0 ∨ (ctx'.state = .idle → ctx.state = .idle ∧
        ctx'.endMatcher = ctx.endMatcher) ∧ (ctx'.state.Reasoning ∨ ctx'.state = .forcing →
        ctx'.endMatcher.Tracks (accepted (⟨ctx, op, ctx'⟩ :: log))))
    (hp : ctx'.endMatch = -1 ∨
      ctx'.endMatch = ctx.endMatch ∧ (ctx.state = .done ∨ ctx'.state ≠ .done)) :
    EndInv cfg ctx' (⟨ctx, op, ctx'⟩ :: log) where
  seqs := hseqs.trans h.seqs
  idle := fun hi => hm.elim id fun hm => by
    rw [(hm.1 hi).2]
    exact h.idle (hm.1 hi).1
  tracks := fun hr => hm.elim (fun hm => TokenMatcher.tracks_of_state hm _) fun hm => hm.2 hr
  endMatch := fun hge => by
    rcases hp with hp | ⟨hp, hd⟩
    · rw [hp] at hge
      exact absurd hge (by decide)
    · rw [hp] at hge ⊢
      rw [hseqs, doneTokens_other hd]
      exact h.endMatch hge

theorem EndInv.move (h : EndInv cfg ctx log) (hm : BudgetMove cfg ctx op ctx') :
    EndInv cfg ctx' (⟨ctx, op, ctx'⟩ :: log) := by
  cases hm with
  | search hs hp =>
    refine h.keep rfl (.inr ⟨fun hi => ⟨hi, rfl⟩, fun hr => ?_⟩) (.inr ⟨rfl, ?_⟩)
    · exact absurd hr (Searching.not_reasoning hs)
    · exact hs.symm.imp id fun hs => by rw [hs]; decide
  | activateIdle hs hp =>
    refine h.keep (by simp) (.inl (by simpa using h.idle hs)) (.inr ⟨by simp, .inr ?_⟩)
    rcases activate_spec cfg { ctx with startMatcher := (ctx.startMatcher.advance _).2 } with
      ha | ha <;> rw [ha.1] <;> decide
  | activateDone hs hp => exact h.keep (by simp) (.inl (by simp)) (.inl (by simp))
  | naturalEnd hs hp => exact h.finish (.inl hs) rfl rfl rfl
  | forceLast hs ht hlen => exact h.finish (.inr hs) rfl rfl rfl
  | @count t hs hr =>
    refine h.keep rfl (.inr ⟨fun hi => ?_, fun _ => ?_⟩) (.inr ⟨rfl, .inr (by rw [hs]; decide)⟩)
    · exact absurd (hs.symm.trans hi) (by decide)
    · exact (h.tracks (.inl (.inl hs))).advance t
  | @waitMore t hs hc =>
    refine h.keep rfl (.inr ⟨fun hi => ?_, fun _ => ?_⟩) (.inr ⟨rfl, .inr (by rw [hs]; decide)⟩)
    · exact absurd (hs.symm.trans hi) (by decide)
    · exact (h.tracks (.inl (.inr hs))).advance t
  | @forceMore t hs ht hlen =>
    refine h.keep rfl (.inr ⟨fun hi => ?_, fun _ => ?_⟩) (.inr ⟨rfl, .inr (by rw [hs]; decide)⟩)
    · exact absurd (hs.symm.trans hi) (by decide)
    · exact (h.tracks (.inr hs)).advance t
  | spent hs => exact h.keep rfl (.inl rfl) (.inr ⟨rfl, .inr (by simp)⟩)
  | wait hs => exact h.keep rfl (.inl rfl) (.inr ⟨rfl, .inr (by simp)⟩)
  | waited hs => exact h.keep rfl (.inl rfl) (.inr ⟨rfl, .inr (by simp)⟩)
  | force hs => exact h.keep rfl (.inl rfl) (.inr ⟨rfl, .inr (by simp)⟩)
  | forceEnd => exact h.keep rfl (.inl rfl) (.inr ⟨rfl, .inr (by simp)⟩)
  | reset => exact h.keep rfl (.inl rfl) (.inl rfl)
  | forceNot hs =>
    refine h.keep rfl (.inr ⟨fun hi => ⟨hi, rfl⟩, fun hr => ?_⟩) (.inr ⟨rfl, ?_⟩)
    · change ctx.endMatcher.Tracks (accepted log ++ [])
      rw [append_nil]
      exact h.tracks hr
    · exact (eq_or_ne ctx.state .done).imp id id

/-! ## The start sequences -/

/-- The end is not forced while the matcher of the start sequences is inside of one. -/
def StartClean (ctx : ReasoningBudget) (op : BudgetOp) : Prop :=
  op = .forceEnd → ctx.state.Searching → ctx.startMatcher.state = 0

instance (ctx : ReasoningBudget) (op : BudgetOp) : Decidable (StartClean ctx op) :=
  inferInstanceAs (Decidable (_ → _ → _))

/-- A start sequence is at the end of the tokens where an accept begins a reasoning block. -/
def Activated (cfg : BudgetConfig) (log : List BudgetEvent) : Prop :=
  ∀ e older, e :: older <:+ log → ∀ t, e.op = .accept t → e.before.state.Searching →
    e.after.state = .counting ∨ e.after.state = .forcing →
    ∃ seq ∈ cfg.startSeqs, seq ≠ [] ∧ seq <:+ accepted (e :: older)

/-- The matcher of the start sequences knows accepted tokens only while it is used, and nothing
else. -/
structure StartInv (cfg : BudgetConfig) (ctx : ReasoningBudget) (log : List BudgetEvent) :
    Prop where
  seqs : ctx.startMatcher.seqs = collect cfg.startSeqs
  searching : ctx.state.Searching → ctx.startMatcher.Tracks (accepted log)
  other : ¬ ctx.state.Searching → ctx.startMatcher.state = 0
  activated : Activated cfg log

theorem Activated.cons (h : Activated cfg log)
    {e : BudgetEvent} (he : ∀ t, e.op = .accept t → e.before.state.Searching →
      e.after.state = .counting ∨ e.after.state = .forcing →
      ∃ seq ∈ cfg.startSeqs, seq ≠ [] ∧ seq <:+ accepted (e :: log)) :
    Activated cfg (e :: log) := by
  intro e' older hsuf
  rcases suffix_cons_iff.mp hsuf with heq | hsuf
  · obtain ⟨rfl, rfl⟩ := cons_eq_cons.mp heq
    exact he
  · exact h e' older hsuf

/-- A call that leaves the matcher as it is, or resets it. -/
theorem StartInv.keep (h : StartInv cfg ctx log) (hm : ctx'.startMatcher.state = 0)
    (hseqs : ctx'.startMatcher.seqs = ctx.startMatcher.seqs)
    (hop : ∀ t, op = .accept t → ¬ ctx.state.Searching) :
    StartInv cfg ctx' (⟨ctx, op, ctx'⟩ :: log) where
  seqs := hseqs.trans h.seqs
  searching := fun _ => TokenMatcher.tracks_of_state hm _
  other := fun _ => hm
  activated := h.activated.cons fun t ht hs => absurd hs (hop t ht)

/-- A token that ends a start sequence. -/
theorem StartInv.activate (h : StartInv cfg ctx log) (hs : ctx.state.Searching)
    (hp : 0 ≤ (ctx.startMatcher.advance t).1)
    (hm : ctx'.startMatcher = (ctx.startMatcher.advance t).2) :
    StartInv cfg ctx' (⟨ctx, .accept t, ctx'⟩ :: log) := by
  have hstate : ctx'.startMatcher.state = 0 := by
    rw [hm]
    exact TokenMatcher.advance_state_of_match hp
  refine ⟨by rw [hm]; exact h.seqs, fun _ => TokenMatcher.tracks_of_state hstate _,
    fun _ => hstate, h.activated.cons fun t' ht _ _ => ?_⟩
  obtain ⟨seq, hseq, hsuf⟩ := (h.searching hs).matched hp
  have hmem : seq ∈ collect cfg.startSeqs := h.seqs ▸ mem_of_getElem? hseq
  obtain ⟨hne, hmem⟩ := (collect_spec cfg.startSeqs).2 seq hmem
  exact ⟨seq, hmem, hne, by rw [accepted_accept rfl]; exact hsuf⟩

theorem StartInv.move (h : StartInv cfg ctx log) (hok : StartClean ctx op)
    (hm : BudgetMove cfg ctx op ctx') : StartInv cfg ctx' (⟨ctx, op, ctx'⟩ :: log) := by
  have hother : ∀ {s : BudgetState}, ctx.state = s → ¬ s.Searching →
      ctx.startMatcher.state = 0 ∧ ¬ ctx.state.Searching := fun he hs =>
    ⟨h.other (he ▸ hs), he ▸ hs⟩
  cases hm with
  | @search t hs hp =>
    refine ⟨h.seqs, fun _ => ?_, fun hn => absurd hs hn, h.activated.cons fun t' _ _ ha => ?_⟩
    · rw [accepted_accept rfl]
      exact (h.searching hs).advance t
    · exact absurd ha (by rcases hs with hs | hs <;> simp [hs])
  | activateIdle hs hp => exact h.activate (.inl hs) hp (by simp)
  | activateDone hs hp => exact h.activate (.inr hs) hp (by simp)
  | naturalEnd hs hp =>
    have hn : ¬ ctx.state.Searching := by rcases hs with hs | hs <;> rw [hs] <;> decide
    exact h.keep (h.other hn) rfl fun _ _ => hn
  | count hs hr => exact h.keep (hother hs (by decide)).1 rfl fun _ _ => (hother hs (by decide)).2
  | spent hs => exact h.keep (hother hs (by decide)).1 rfl fun _ _ => (hother hs (by decide)).2
  | wait hs => exact h.keep (hother hs (by decide)).1 rfl fun _ _ => (hother hs (by decide)).2
  | waitMore hs hc =>
    exact h.keep (hother hs (by decide)).1 rfl fun _ _ => (hother hs (by decide)).2
  | waited hs => exact h.keep (hother hs (by decide)).1 rfl fun _ _ => (hother hs (by decide)).2
  | forceMore hs ht hlen =>
    exact h.keep (hother hs (by decide)).1 rfl fun _ _ => (hother hs (by decide)).2
  | forceLast hs ht hlen =>
    exact h.keep (hother hs (by decide)).1 rfl fun _ _ => (hother hs (by decide)).2
  | force hs => exact h.keep (hother hs (by decide)).1 rfl fun _ ht => nomatch ht
  | forceEnd =>
    refine h.keep ?_ rfl fun _ ht => nomatch ht
    exact (em ctx.state.Searching).elim (hok rfl) h.other
  | reset => exact h.keep rfl rfl fun _ ht => nomatch ht
  | forceNot hs =>
    refine ⟨h.seqs, fun hs => ?_, h.other, h.activated.cons fun _ ht => nomatch ht⟩
    change ctx.startMatcher.Tracks (accepted log ++ [])
    rw [append_nil]
    exact h.searching hs

/-! ## The tokens of a reasoning block -/

/-- Consecutive calls in a reasoning block that is not forced to end, the last one first: at most
`budget` tokens are counted, and behind them it is waited for the first whole code point. -/
def Window (cfg : BudgetConfig) (block : List BudgetEvent) : Prop :=
  ∃ waited counted, block = waited ++ counted ∧
    (∀ e ∈ counted, e.before.state = .counting) ∧ (accepted counted).length ≤ cfg.budget ∧
    (∀ e ∈ waited, e.before.state = .waitingUtf8) ∧
    ∀ e ∈ waited.tail, ∀ t, e.op = .accept t → cfg.utf8Complete t = false

/-- The same while the block goes on. -/
def OpenWindow (cfg : BudgetConfig) (ctx : ReasoningBudget) (block : List BudgetEvent) : Prop :=
  ∃ waited counted, block = waited ++ counted ∧
    (∀ e ∈ counted, e.before.state = .counting) ∧ (accepted counted).length ≤ cfg.budget ∧
    (∀ e ∈ waited, e.before.state = .waitingUtf8) ∧
    (∀ e ∈ waited, ∀ t, e.op = .accept t → cfg.utf8Complete t = false) ∧
    (ctx.state = .counting → waited = [] ∧ (accepted counted).length + ctx.remaining ≤ cfg.budget)

/-- A call of a reasoning block. -/
def InReasoning (block : List BudgetEvent) : Prop := ∀ e ∈ block, e.before.state.Reasoning

/-- How an accept goes on in a reasoning block: the block goes on or ends, and a whole code point
ends the wait. -/
def WindowStep (cfg : BudgetConfig) (e : BudgetEvent) : Prop :=
  ∀ t, e.op = .accept t → e.before.state.Reasoning →
    (e.after.state ≠ .idle ∧ (e.before.state = .waitingUtf8 → e.after.state ≠ .counting)) ∧
    (e.before.state = .waitingUtf8 → cfg.utf8Complete t →
      e.after.state = .forcing ∨ e.after.state = .done)

/-- What is left of the budget while it is counted, and the tokens of every reasoning block. -/
structure WindowInv (cfg : BudgetConfig) (ctx : ReasoningBudget) (log : List BudgetEvent) :
    Prop where
  remaining : ctx.state = .counting → 0 < ctx.remaining
  last : ctx.state.Reasoning → ∀ block, block <+: log → InReasoning block → OpenWindow cfg ctx block
  window : ∀ block, block <:+: log → InReasoning block → Window cfg block
  steps : ∀ e ∈ log, WindowStep cfg e

section WindowSteps

variable {cfg : BudgetConfig} {ctx ctx' : ReasoningBudget} {op : BudgetOp}

theorem BudgetOp.length_tokens (op : BudgetOp) : op.tokens.length ≤ 1 := by
  cases op <;> simp [BudgetOp.tokens]

/-- How the machine comes to `counting`: with a new budget, or with what is left of it. -/
theorem BudgetMove.counting (h : BudgetMove cfg ctx op ctx') (hs' : ctx'.state = .counting) :
    (¬ ctx.state.Reasoning ∧ 0 < cfg.budget ∧ ctx'.remaining = cfg.budget) ∨
      (ctx.state = .counting ∧ 0 < ctx'.remaining ∧
        op.tokens.length + ctx'.remaining ≤ ctx.remaining) := by
  have hact : ∀ c : ReasoningBudget, (c.activate cfg).state = .counting →
      0 < cfg.budget ∧ (c.activate cfg).remaining = cfg.budget := fun c hc => by
    rcases activate_spec cfg c with h | h
    · exact h.2
    · exact absurd (h.1.symm.trans hc) (by decide)
  cases h with
  | search hs hp => exact absurd hs (by rw [hs']; decide)
  | activateIdle hs hp => exact .inl ⟨by rw [hs]; decide, hact _ hs'⟩
  | activateDone hs hp => exact .inl ⟨by rw [hs]; decide, hact _ hs'⟩
  | count hs hr =>
    refine .inr ⟨hs, hr, ?_⟩
    simp [BudgetOp.tokens]
  | waitMore hs hc => exact absurd (hs.symm.trans hs') (by decide)
  | forceMore hs ht hlen => exact absurd (hs.symm.trans hs') (by decide)
  | forceNot hs => exact absurd hs' hs
  | naturalEnd | spent | wait | waited | forceLast | force | forceEnd | reset => cases hs'

/-- How the machine comes to wait, or goes on to wait. -/
theorem BudgetMove.waiting (h : BudgetMove cfg ctx op ctx') (hs' : ctx'.state = .waitingUtf8) :
    ctx.state = .counting ∨
      (ctx.state = .waitingUtf8 ∧ ∀ t, op = .accept t → cfg.utf8Complete t = false) := by
  have hact : ∀ c : ReasoningBudget, (c.activate cfg).state ≠ .waitingUtf8 := fun c hc => by
    rcases activate_spec cfg c with h | h <;> exact absurd (h.1.symm.trans hc) (by decide)
  cases h with
  | search hs hp => exact absurd hs (by rw [hs']; decide)
  | activateIdle hs hp => exact absurd hs' (hact _)
  | activateDone hs hp => exact absurd hs' (hact _)
  | count hs hr => exact .inl hs
  | wait hs => exact .inl hs
  | waitMore hs hc => exact .inr ⟨hs, fun t ht => BudgetOp.accept.inj ht ▸ hc⟩
  | forceMore hs ht hlen => exact absurd (hs.symm.trans hs') (by decide)
  | forceNot hs => exact .inr ⟨hs', fun t ht => nomatch ht⟩
  | naturalEnd | spent | waited | forceLast | force | forceEnd | reset => cases hs'

theorem BudgetMove.windowStep (h : BudgetMove cfg ctx op ctx') :
    WindowStep cfg ⟨ctx, op, ctx'⟩ := by
  intro t ht hr
  have hidle : ctx.state ≠ .idle := fun e => absurd hr (by rw [e]; decide)
  have hdone : ctx.state ≠ .done := Reasoning.ne_done hr
  subst ht
  cases h with
  | search hs hp => exact absurd hs (not_or.mpr ⟨hidle, hdone⟩)
  | activateIdle hs hp => exact absurd hs hidle
  | activateDone hs hp => exact absurd hs hdone
  | naturalEnd hs hp => simp
  | count hs hr => simp [hs]
  | spent hs => simp
  | wait hs => simp [hs]
  | waitMore hs hc => simp [hs, hc]
  | waited hs => simp
  | forceMore hs ht hlen => exact absurd hr (by rw [hs]; decide)
  | forceLast hs ht hlen => exact absurd hr (by rw [hs]; decide)

theorem length_accepted_cons (e : BudgetEvent) (log : List BudgetEvent) :
    (accepted (e :: log)).length = (accepted log).length + e.op.tokens.length := by
  rw [accepted, length_append]

theorem OpenWindow.nil (hbudget : 0 ≤ cfg.budget)
    (h : ctx.state = .counting → ctx.remaining ≤ cfg.budget) : OpenWindow cfg ctx [] :=
  ⟨[], [], rfl, by simp, by simpa [accepted] using hbudget, by simp, by simp,
    fun hs => ⟨rfl, by simpa [accepted] using h hs⟩⟩

/-- One more call of a block, which ends the block or not. -/
theorem OpenWindow.window {block : List BudgetEvent} (h : OpenWindow cfg ctx block)
    (hr : ctx.state.Reasoning) (hrem : ctx.state = .counting → 0 < ctx.remaining) :
    Window cfg (⟨ctx, op, ctx'⟩ :: block) := by
  obtain ⟨waited, counted, rfl, hc, hlen, hw, hcomplete, hopen⟩ := h
  rcases hr with hs | hs
  · obtain ⟨rfl, hleft⟩ := hopen hs
    refine ⟨[], ⟨ctx, op, ctx'⟩ :: counted, rfl, ?_, ?_, by simp, by simp⟩
    · exact forall_mem_cons.mpr ⟨hs, hc⟩
    · have := BudgetOp.length_tokens op
      have := hrem hs
      rw [length_accepted_cons]
      push_cast
      omega
  · exact ⟨⟨ctx, op, ctx'⟩ :: waited, counted, rfl, hc, hlen,
      forall_mem_cons.mpr ⟨hs, hw⟩, hcomplete⟩

/-- One more call of a block that goes on. -/
theorem OpenWindow.cons {block : List BudgetEvent} (h : OpenWindow cfg ctx block)
    (hm : BudgetMove cfg ctx op ctx') (hr : ctx.state.Reasoning)
    (hrem : ctx.state = .counting → 0 < ctx.remaining) (hr' : ctx'.state.Reasoning) :
    OpenWindow cfg ctx' (⟨ctx, op, ctx'⟩ :: block) := by
  obtain ⟨waited, counted, rfl, hc, hlen, hw, hcomplete, hopen⟩ := h
  rcases hr with hs | hs
  · obtain ⟨rfl, hleft⟩ := hopen hs
    have hlen' := length_accepted_cons ⟨ctx, op, ctx'⟩ counted
    have hrem := hrem hs
    refine ⟨[], ⟨ctx, op, ctx'⟩ :: counted, rfl, ?_, ?_, by simp, by simp, fun hs' => ⟨rfl, ?_⟩⟩
    · exact forall_mem_cons.mpr ⟨hs, hc⟩
    · have := BudgetOp.length_tokens op
      rw [hlen']
      push_cast
      omega
    · rcases hm.counting hs' with ⟨hn, -⟩ | ⟨-, -, hdec⟩
      · exact absurd (.inl hs) hn
      · rw [hlen']
        push_cast
        omega
  · have hs' : ctx'.state = .waitingUtf8 := hr'.resolve_left fun hs' => by
      rcases hm.counting hs' with ⟨hn, -⟩ | ⟨hc, -⟩
      · exact hn (.inr hs)
      · exact absurd (hs.symm.trans hc) (by decide)
    rcases hm.waiting hs' with hc | ⟨-, hcomp⟩
    · exact absurd (hs.symm.trans hc) (by decide)
    · exact ⟨⟨ctx, op, ctx'⟩ :: waited, counted, rfl, hc, hlen,
        forall_mem_cons.mpr ⟨hs, hw⟩, forall_mem_cons.mpr ⟨hcomp, hcomplete⟩,
        fun hs'' => absurd (hs'.symm.trans hs'') (by decide)⟩

end WindowSteps

theorem WindowInv.move (hbudget : 0 ≤ cfg.budget) (h : WindowInv cfg ctx log)
    (hm : BudgetMove cfg ctx op ctx') : WindowInv cfg ctx' (⟨ctx, op, ctx'⟩ :: log) where
  remaining := fun hs' => by
    rcases hm.counting hs' with ⟨-, hb, he⟩ | ⟨-, hr, -⟩
    · rwa [he]
    · exact hr
  last := fun hr' block hblock hin => by
    rcases prefix_cons_iff.mp hblock with rfl | ⟨block, rfl, hpre⟩
    · refine .nil hbudget fun hs' => ?_
      rcases hm.counting hs' with ⟨-, -, he⟩ | ⟨hs, -, hdec⟩
      · exact he.le
      · obtain ⟨w, c, he, -, -, -, -, hopen⟩ :=
          h.last (.inl hs) [] nil_prefix fun _ hmem => absurd hmem not_mem_nil
        have := (hopen hs).2
        omega
    · obtain ⟨hr, hin⟩ := forall_mem_cons.mp hin
      exact (h.last hr block hpre hin).cons hm hr h.remaining hr'
  window := fun block hblock hin => by
    rcases infix_cons_iff.mp hblock with hblock | hblock
    · rcases prefix_cons_iff.mp hblock with rfl | ⟨block, rfl, hpre⟩
      · exact ⟨[], [], rfl, by simp, by simpa [accepted] using hbudget, by simp, by simp⟩
      · obtain ⟨hr, hin⟩ := forall_mem_cons.mp hin
        exact (h.last hr block hpre hin).window hr h.remaining
    · exact h.window block hblock hin
  steps := forall_mem_cons.mpr ⟨hm.windowStep, h.steps⟩

/-! ## The tokens that are forced -/

/-- What an accept does in `forcing`: it goes on, or all tokens are there. -/
def ForcedStep (cfg : BudgetConfig) (log : List BudgetEvent) : Prop :=
  ∀ e older, e :: older <:+ log → ∀ t, e.op = .accept t → e.before.state = .forcing →
    e.after.state = .forcing ∨ (e.after.state = .done ∧ forcedStay (e :: older) = cfg.forcedTokens)

/-- The tokens of a stay in `forcing` are the first forced tokens. -/
structure ForcedInv (cfg : BudgetConfig) (ctx : ReasoningBudget) (log : List BudgetEvent) :
    Prop where
  stay : ctx.state = .forcing → ctx.forcePos < cfg.forcedTokens.length ∧
    forcedStay log = cfg.forcedTokens.take ctx.forcePos
  steps : ForcedStep cfg log

section ForcedSteps

variable {cfg : BudgetConfig} {ctx ctx' : ReasoningBudget} {log : List BudgetEvent}

theorem ForcedStep.cons (h : ForcedStep cfg log) {e : BudgetEvent}
    (he : ∀ t, e.op = .accept t → e.before.state = .forcing → e.after.state = .forcing ∨
      (e.after.state = .done ∧ forcedStay (e :: log) = cfg.forcedTokens)) :
    ForcedStep cfg (e :: log) := by
  intro e' older hsuf
  rcases suffix_cons_iff.mp hsuf with heq | hsuf
  · obtain ⟨rfl, rfl⟩ := cons_eq_cons.mp heq
    exact he
  · exact h e' older hsuf

/-- Another token of the stay. -/
theorem forcedStay_accept {t : Int32} (hs : ctx.state = .forcing)
    (hstay : forcedStay log = cfg.forcedTokens.take ctx.forcePos)
    (hlt : ctx.forcePos < cfg.forcedTokens.length)
    (ht : ∀ u, cfg.forcedTokens[ctx.forcePos]? = some u → u = t) :
    forcedStay (⟨ctx, .accept t, ctx'⟩ :: log) = cfg.forcedTokens.take (ctx.forcePos + 1) := by
  have hget := getElem?_eq_getElem hlt
  rw [forcedStay, if_pos ⟨hs, BudgetOp.noConfusion, BudgetOp.noConfusion⟩, hstay,
    take_add_one, hget, ht _ hget]
  rfl

/-- A call that does not go on with a stay. -/
theorem ForcedInv.other {op : BudgetOp} (h : ForcedInv cfg ctx log)
    (hforced : cfg.forcedTokens ≠ [])
    (hop : ctx.state ≠ .forcing ∨ op = .forceEnd ∨ op = .reset)
    (hs' : ctx'.state = .forcing → ctx'.forcePos = 0) :
    ForcedInv cfg ctx' (⟨ctx, op, ctx'⟩ :: log) where
  stay := fun hs => by
    rw [hs' hs, forcedStay, if_neg, take_zero]
    · exact ⟨length_pos_iff.mpr hforced, rfl⟩
    · rintro ⟨hf, h1, h2⟩
      exact hop.elim (fun hop => hop hf) fun hop => hop.elim h1 h2
  steps := h.steps.cons fun t ht hf => by
    rcases hop with hop | rfl | rfl
    · exact absurd hf hop
    · cases ht
    · cases ht

theorem ForcedInv.move {op : BudgetOp} (hforced : cfg.forcedTokens ≠ []) (h : ForcedInv cfg ctx log)
    (hm : BudgetMove cfg ctx op ctx') : ForcedInv cfg ctx' (⟨ctx, op, ctx'⟩ :: log) := by
  have hact : ∀ c : ReasoningBudget, (c.activate cfg).state = .forcing →
      (c.activate cfg).forcePos = 0 := fun c hc => by
    rcases activate_spec cfg c with h | h
    · exact absurd (h.1.symm.trans hc) (by decide)
    · exact h.2
  have hne : ∀ {s : BudgetState}, ctx.state = s → s ≠ .forcing →
      ctx.state ≠ .forcing := fun he hs => he ▸ hs
  cases hm with
  | search hs hp =>
    have hn : ctx.state ≠ .forcing := by rcases hs with hs | hs <;> rw [hs] <;> decide
    exact h.other hforced (.inl hn) fun hs' => absurd hs' hn
  | activateIdle hs hp => exact h.other hforced (.inl (hne hs (by decide))) (hact _)
  | activateDone hs hp => exact h.other hforced (.inl (hne hs (by decide))) (hact _)
  | naturalEnd hs hp =>
    have hn : ctx.state ≠ .forcing := by rcases hs with hs | hs <;> rw [hs] <;> decide
    exact h.other hforced (.inl hn) fun hs' => nomatch hs'
  | count hs hr =>
    exact h.other hforced (.inl (hne hs (by decide))) fun hs' => absurd hs' (hne hs (by decide))
  | spent hs => exact h.other hforced (.inl (hne hs (by decide))) fun _ => rfl
  | wait hs => exact h.other hforced (.inl (hne hs (by decide))) fun hs' => nomatch hs'
  | waitMore hs hc =>
    exact h.other hforced (.inl (hne hs (by decide))) fun hs' => absurd hs' (hne hs (by decide))
  | waited hs => exact h.other hforced (.inl (hne hs (by decide))) fun _ => rfl
  | @forceMore t hs ht hlen =>
    obtain ⟨hlt, hstay⟩ := h.stay hs
    exact ⟨fun _ => ⟨hlen, forcedStay_accept hs hstay hlt ht⟩, h.steps.cons fun _ _ _ => .inl hs⟩
  | @forceLast t hs ht hlen =>
    obtain ⟨hlt, hstay⟩ := h.stay hs
    refine ⟨fun hs' => (nomatch hs'), h.steps.cons fun _ _ _ => .inr ⟨rfl, ?_⟩⟩
    rw [forcedStay_accept hs hstay hlt ht, take_of_length_le hlen]
  | force hs => exact h.other hforced (.inl (hne hs (by decide))) fun _ => rfl
  | forceEnd => exact h.other hforced (.inr (.inl rfl)) fun _ => rfl
  | reset => exact h.other hforced (.inr (.inr rfl)) fun hs' => nomatch hs'
  | forceNot hs =>
    refine ⟨fun hs => ?_, h.steps.cons fun _ ht => nomatch ht⟩
    obtain ⟨hlt, hstay⟩ := h.stay hs
    refine ⟨hlt, ?_⟩
    rw [forcedStay, if_pos ⟨hs, BudgetOp.noConfusion, BudgetOp.noConfusion⟩, hstay]
    exact append_nil _

end ForcedSteps

/-! ## The machine -/

/-- What a run of the machine does. -/
structure BudgetSound (cfg : BudgetConfig) (ctx : ReasoningBudget) (log : List BudgetEvent) :
    Prop where
  /-- A reasoning block begins where the accepted tokens end with a start sequence. -/
  activated : Activated cfg log
  /-- The tokens of a reasoning block, and how it ends. -/
  window : ∀ block, block <:+: log → InReasoning block → Window cfg block
  windowSteps : ∀ e ∈ log, WindowStep cfg e
  /-- In `forcing` the first forced tokens were accepted, and behind the last one it is done. -/
  forcing : ctx.state = .forcing → ctx.forcePos < cfg.forcedTokens.length ∧
    forcedStay log = cfg.forcedTokens.take ctx.forcePos
  forced : ForcedStep cfg log
  /-- The end match is an end sequence that the tokens up to the last transition to `done` end
  with. -/
  endMatch : 0 ≤ ctx.endMatch →
    ∃ seq ∈ cfg.endSeqs, ctx.getEndMatch = some seq ∧ seq <:+ doneTokens log

section Machine

variable {cfg : BudgetConfig} (hbudget : 0 ≤ cfg.budget) (hforced : cfg.forcedTokens ≠ [])

include hforced

theorem endInv_inductive : (budgetSys cfg).Inductive (fun _ _ => True)
    fun r => EndInv cfg r.state r.log :=
  Sys.recorded_inductive (fun _ _ => True)
    (fun _ ⟨_, he⟩ => he ▸
      ⟨rfl, fun _ => rfl, fun _ => TokenMatcher.tracks_of_state rfl _, fun h => nomatch h⟩)
    fun _ _ _ _ h hs _ => h.move (step_cases hforced hs)

theorem forcedInv_inductive : (budgetSys cfg).Inductive (fun _ _ => True)
    fun r => ForcedInv cfg r.state r.log :=
  Sys.recorded_inductive (fun _ _ => True)
    (fun _ ⟨_, he⟩ => he ▸ ⟨fun _ => ⟨length_pos_iff.mpr hforced, rfl⟩,
      fun _ _ h => absurd (suffix_nil.mp h) (cons_ne_nil _ _)⟩)
    fun _ _ _ _ h hs _ => h.move hforced (step_cases hforced hs)

theorem startInv_inductive : (budgetSys cfg).Inductive (fun r op => StartClean r.state op)
    fun r => StartInv cfg r.state r.log :=
  Sys.recorded_inductive StartClean
    (fun _ ⟨_, he⟩ => he ▸
      ⟨rfl, fun _ => TokenMatcher.tracks_of_state rfl _, fun _ => rfl,
        fun _ _ h => absurd (suffix_nil.mp h) (cons_ne_nil _ _)⟩)
    fun _ _ _ _ h hs hok => h.move hok (step_cases hforced hs)

include hbudget

omit hforced in
theorem windowInv_init (initialState : BudgetState) :
    WindowInv cfg (.init cfg initialState) [] where
  remaining := fun hs => by
    unfold ReasoningBudget.init at hs ⊢
    split at hs
    · cases hs
    · next hn => exact not_le.mp fun hle => hn ⟨hs, hle⟩
  last := fun _ block hblock _ => by
    rw [prefix_nil.mp hblock]
    exact .nil hbudget fun _ => le_refl _
  window := fun block hblock _ => by
    rw [infix_nil.mp hblock]
    exact ⟨[], [], rfl, by simp, by simpa [accepted] using hbudget, by simp, by simp⟩
  steps := by simp

theorem windowInv_inductive : (budgetSys cfg).Inductive (fun _ _ => True)
    fun r => WindowInv cfg r.state r.log :=
  Sys.recorded_inductive (fun _ _ => True)
    (fun _ ⟨s, he⟩ => he ▸ windowInv_init hbudget s)
    fun _ _ _ _ h hs _ => h.move hbudget (step_cases hforced hs)

end Machine

/-- In a run where the end is not forced while the matcher of the start sequences is inside of one,
a reasoning block begins behind a start sequence only, takes at most its budget, is ended by the
forced tokens, and reports an end sequence of the accepted tokens. -/
theorem budget_sound (cfg : BudgetConfig) (hbudget : 0 ≤ cfg.budget)
    (hforced : cfg.forcedTokens ≠ []) {r : Sys.Recorded ReasoningBudget BudgetOp}
    (h : (budgetSys cfg).Reach (fun r op => StartClean r.state op) r) :
    BudgetSound cfg r.state r.log := by
  have hall : (budgetSys cfg).Reach (fun _ _ => True) r := h.mono fun _ _ _ => trivial
  have hend : EndInv cfg r.state r.log := hall.inv (endInv_inductive hforced)
  have hwin : WindowInv cfg r.state r.log := hall.inv (windowInv_inductive hbudget hforced)
  have hfor : ForcedInv cfg r.state r.log := hall.inv (forcedInv_inductive hforced)
  have hstart : StartInv cfg r.state r.log := h.inv (startInv_inductive hforced)
  refine ⟨hstart.activated, hwin.window, hwin.steps, hfor.stay, hfor.steps, fun hp => ?_⟩
  obtain ⟨seq, hseq, hsuf⟩ := hend.endMatch hp
  have hmem : seq ∈ collect cfg.endSeqs := hend.seqs ▸ mem_of_getElem? hseq
  refine ⟨seq, ((collect_spec cfg.endSeqs).2 seq hmem).2, ?_, hsuf⟩
  rw [getEndMatch, if_neg (not_lt.mpr hp), hseq]

/-- A budget of two tokens between `1 2` and `3`, which is forced. -/
def twoTokens : BudgetConfig where
  utf8Complete := fun _ => true
  startSeqs := [[1, 2]]
  endSeqs := [[3]]
  forcedTokens := [3]
  budget := 2

/-- A block whose budget is spent. -/
theorem budget_sound_spent : ∃ r : Sys.Recorded ReasoningBudget BudgetOp,
    BudgetSound twoTokens r.state r.log ∧ accepted r.log = [1, 2, 7, 8, 3] ∧
      r.state.state = .done ∧ r.state.getEndMatch = some [3] := by
  have h := Sys.reach_recorded (BudgetInit twoTokens) (step twoTokens)
    (fun ctx op => decide (StartClean ctx op))
    [.accept 1, .accept 2, .accept 7, .accept 8, .accept 3] (s := .init twoTokens .idle)
    ⟨.idle, rfl⟩ (by decide +kernel)
  exact ⟨_, budget_sound twoTokens (by decide) (by decide)
    (h.mono fun _ _ hok => of_decide_eq_true hok), by decide +kernel, by decide +kernel,
    by decide +kernel⟩

/-- The end is forced behind the first token of a start sequence; the second one behind the forced
end then begins a block. -/
theorem start_across_forcing :
    ∃ r, (budgetSys twoTokens).Reach (fun _ _ => True) r ∧ ¬ Activated twoTokens r.log := by
  have h := Sys.reach_recorded (BudgetInit twoTokens) (step twoTokens) (fun _ _ => true)
    [.accept 1, .forceEnd, .accept 3, .accept 2] (s := .init twoTokens .idle) ⟨.idle, rfl⟩
    (by decide +kernel)
  refine ⟨_, h.mono fun _ _ _ => trivial, fun hact => ?_⟩
  have := hact _ _ (suffix_refl _) 2 (by decide +kernel) (by decide +kernel)
    (by decide +kernel)
  exact absurd this (by decide +kernel)

end BeeLlama.Sampling
