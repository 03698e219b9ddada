import BeeLlama.Peg.Terminal

/-!
# Parsers that call others

* `parseWith_succ`: the parsers by what they call (`Shape`), so that a proof has one case for all
  that only call another parser.
* `parseWith_mono`: a result does not depend on the fuel.
* `within_parse`: a result ends behind its start and inside of the input.
* `parseWith_or_stop`: terminals that stop the parse do not change it otherwise.
-/

namespace BeeLlama.Peg

/-- A parser by what it calls. -/
inductive Shape where
  | sequence (children : List Nat)
  | choice (children : List Nat)
  | repetition (child : Nat) (minCount maxCount : Int)
  | and_ (child : Nat)
  | not_ (child : Nat)
  | call (child : Nat)
  | leaf (p : PegParser)
  | missing (e : PegError)

/-- The shape of an entry of the arena. -/
def shape (arena : Arena) (id : Nat) : Shape :=
  match arena.parsers[id]? with
  | none => .missing .noParser
  | some p =>
    match p with
    | .sequence children => .sequence children
    | .choice children => .choice children
    | .repetition child minCount maxCount => .repetition child minCount maxCount
    | .and_ child => .and_ child
    | .not_ child => .not_ child
    | .ref name =>
      match arena.rules.lookup name with
      | none => .missing .noRule
      | some id => .call id
    | .schema child => .call child
    | .rule _ child => .call child
    | .atomic child => .call child
    | .tag child _ => .call child
    | .gbnf child => .call child
    | .ac child => .call child
    | p => .leaf p

/-- The parse of a shape. -/
def parseShape (ctx : ParseContext) (leaf : PegParser → Nat → Except PegError ParseResult)
    (parse : Nat → Nat → Except PegError ParseResult) (start : Nat) :
    Shape → Except PegError ParseResult
  | .sequence children => sequenceLoop parse start children start
  | .choice children => choiceLoop parse start children
  | .repetition child minCount maxCount =>
    repetitionLoop (parse child) ctx minCount maxCount start (ctx.input.length + 1) start 0
  | .and_ child =>
    match parse child start with
    | .error e => .error e
    | .ok result => .ok ⟨result.type, start, start⟩
  | .not_ child =>
    match parse child start with
    | .error e => .error e
    | .ok result =>
      match result.type with
      | .success => .ok (failAt start)
      | .needMore => .ok ⟨.needMore, start, start⟩
      | .fail => .ok ⟨.success, start, start⟩
  | .call child => parse child start
  | .leaf p => leaf p start
  | .missing e => .error e

section Parse

variable {arena : Arena} {ctx : ParseContext}
  {leaf leaf' : PegParser → Nat → Except PegError ParseResult}

theorem parseWith_succ (fuel id start : Nat) : parseWith arena ctx leaf (fuel + 1) id start =
      parseShape ctx leaf (parseWith arena ctx leaf fuel) start (shape arena id) := by
  unfold parseWith shape
  cases arena.parsers[id]? with
  | none => rfl
  | some p =>
    cases p with
    | ref name =>
      dsimp only
      cases arena.rules.lookup name <;> rfl
    | _ => rfl

/-! ## The loops, one call at a time -/

section Loops

variable {f : Nat → Nat → Except PegError ParseResult} {start pos child : Nat}
  {children : List Nat} {r : ParseResult}

theorem sequenceLoop_cons_iff : sequenceLoop f start (child :: children) pos = .ok r ↔
    ∃ q, f child pos = .ok q ∧
      (q.type = .fail ∧ r = ⟨.fail, start, q.stop⟩ ∨
        q.type = .needMore ∧ r = ⟨.needMore, start, q.stop⟩ ∨
        q.type = .success ∧ sequenceLoop f start children q.stop = .ok r) := by
  rw [sequenceLoop]
  cases f child pos with
  | error e => simp
  | ok q =>
    dsimp only
    cases ht : q.type <;> simp [ht, @eq_comm _ r]

theorem choiceLoop_cons_iff : choiceLoop f start (child :: children) = .ok r ↔
    ∃ q, f child start = .ok q ∧
      (q.type ≠ .fail ∧ r = q ∨ q.type = .fail ∧ choiceLoop f start children = .ok r) := by
  rw [choiceLoop]
  cases f child start with
  | error e => simp
  | ok q =>
    dsimp only
    by_cases ht : q.type = .fail <;> simp [ht, @eq_comm _ r]

/-- The loop calls its child again. -/
abbrev Repeats (ctx : ParseContext) (maxCount : Int) (pos count : Nat) : Prop :=
  (maxCount = -1 ∨ (count : Int) < maxCount) ∧ pos < ctx.input.length

section Repetition

variable {minCount maxCount : Int} {fuel count : Nat}

theorem repetitionLoop_done (hc : ¬ Repeats ctx maxCount pos count) :
    repetitionLoop (f child) ctx minCount maxCount start (fuel + 1) pos count =
      .ok (repetitionFinish ctx minCount start pos count) := by
  rw [repetitionLoop, if_neg hc]

theorem repetitionLoop_call_iff (hc : Repeats ctx maxCount pos count) :
    repetitionLoop (f child) ctx minCount maxCount start (fuel + 1) pos count = .ok r ↔
      ∃ q, f child pos = .ok q ∧
        ((q.type = .fail ∨ q.type = .success ∧ q.stop = pos) ∧
            r = repetitionFinish ctx minCount start pos count ∨
          q.type = .needMore ∧ r = ⟨.needMore, start, q.stop⟩ ∨
          q.type = .success ∧ q.stop ≠ pos ∧ repetitionLoop (f child) ctx minCount maxCount start
            fuel q.stop (count + 1) = .ok r) := by
  rw [repetitionLoop, if_pos hc]
  cases f child pos with
  | error e => simp
  | ok q =>
    dsimp only
    cases ht : q.type with
    | fail => simp [ht, @eq_comm _ r]
    | needMore => simp [ht, @eq_comm _ r]
    | success => by_cases hs : q.stop = pos <;> simp [ht, hs, @eq_comm _ r]

end Repetition

theorem parseShape_and_iff : parseShape ctx leaf f start (.and_ child) = .ok r ↔
    ∃ q, f child start = .ok q ∧ r = ⟨q.type, start, start⟩ := by
  simp only [parseShape]
  cases f child start with
  | error e => simp
  | ok q => simp [eq_comm]

theorem parseShape_not_iff : parseShape ctx leaf f start (.not_ child) = .ok r ↔
    ∃ q, f child start = .ok q ∧
      (q.type = .success ∧ r = failAt start ∨ q.type = .needMore ∧ r = ⟨.needMore, start, start⟩ ∨
        q.type = .fail ∧ r = ⟨.success, start, start⟩) := by
  simp only [parseShape]
  cases f child start with
  | error e => simp
  | ok q => cases ht : q.type <;> simp [ht, eq_comm]

end Loops

/-! ## Fuel -/

section Mono

variable {f g : Nat → Nat → Except PegError ParseResult}
  (h : ∀ id pos r, f id pos = .ok r → g id pos = .ok r)

include h

variable {r : ParseResult}

theorem sequenceLoop_mono {start : Nat} {children : List Nat} {pos : Nat}
    (e : sequenceLoop f start children pos = .ok r) :
    sequenceLoop g start children pos = .ok r := by
  induction children generalizing pos with
  | nil => exact e
  | cons child children ih =>
    obtain ⟨q, eq, hq⟩ := sequenceLoop_cons_iff.mp e
    exact sequenceLoop_cons_iff.mpr ⟨q, h _ _ _ eq, hq.imp id (Or.imp id (And.imp id ih))⟩

theorem choiceLoop_mono {start : Nat} {children : List Nat}
    (e : choiceLoop f start children = .ok r) : choiceLoop g start children = .ok r := by
  induction children with
  | nil => exact e
  | cons child children ih =>
    obtain ⟨q, eq, hq⟩ := choiceLoop_cons_iff.mp e
    exact choiceLoop_cons_iff.mpr ⟨q, h _ _ _ eq, hq.imp id (And.imp id ih)⟩

theorem repetitionLoop_mono {child : Nat} {minCount maxCount : Int} {start fuel pos count : Nat}
    (e : repetitionLoop (f child) ctx minCount maxCount start fuel pos count = .ok r) :
    repetitionLoop (g child) ctx minCount maxCount start fuel pos count = .ok r := by
  induction fuel generalizing pos count with
  | zero => exact e
  | succ fuel ih =>
    by_cases hc : Repeats ctx maxCount pos count
    · obtain ⟨q, eq, hq⟩ := (repetitionLoop_call_iff hc).mp e
      exact (repetitionLoop_call_iff hc).mpr
        ⟨q, h _ _ _ eq, hq.imp id (Or.imp id (And.imp id (And.imp id ih)))⟩
    · rwa [repetitionLoop_done hc] at e ⊢

theorem parseShape_mono (hl : ∀ p start r, leaf p start = .ok r → leaf' p start = .ok r)
    {start : Nat} {sh : Shape} (e : parseShape ctx leaf f start sh = .ok r) :
    parseShape ctx leaf' g start sh = .ok r := by
  cases sh with
  | sequence children => exact sequenceLoop_mono h e
  | choice children => exact choiceLoop_mono h e
  | repetition child minCount maxCount => exact repetitionLoop_mono h e
  | and_ child =>
    obtain ⟨q, eq, hq⟩ := parseShape_and_iff.mp e
    exact parseShape_and_iff.mpr ⟨q, h _ _ _ eq, hq⟩
  | not_ child =>
    obtain ⟨q, eq, hq⟩ := parseShape_not_iff.mp e
    exact parseShape_not_iff.mpr ⟨q, h _ _ _ eq, hq⟩
  | call child => exact h child start r e
  | leaf p => exact hl p start r e
  | missing err => cases e

end Mono

/-- More fuel gives the same result, and so do terminals that agree where they return. -/
theorem parseWith_mono (hl : ∀ p start r, leaf p start = .ok r → leaf' p start = .ok r)
    {fuel fuel' : Nat} (hf : fuel ≤ fuel') {id start : Nat} {r : ParseResult}
    (e : parseWith arena ctx leaf fuel id start = .ok r) :
    parseWith arena ctx leaf' fuel' id start = .ok r := by
  induction fuel generalizing fuel' id start r with
  | zero => cases e
  | succ fuel ih =>
    obtain ⟨fuel', rfl⟩ := Nat.exists_eq_succ_of_ne_zero (show fuel' ≠ 0 by omega)
    rw [parseWith_succ] at e ⊢
    exact parseShape_mono (fun id pos r => ih (by omega)) hl e

/-! ## Where a parser ends -/

section Within

variable {f : Nat → Nat → Except PegError ParseResult}
  (h : ∀ id pos r, pos ≤ ctx.input.length → f id pos = .ok r → Within ctx pos r)

include h

variable {r : ParseResult}

theorem within_sequence {start : Nat} {children : List Nat} {pos : Nat}
    (h₁ : start ≤ pos) (h₂ : pos ≤ ctx.input.length)
    (e : sequenceLoop f start children pos = .ok r) : Within ctx start r := by
  induction children generalizing pos with
  | nil =>
    cases e
    exact within_success h₁ h₂
  | cons child children ih =>
    obtain ⟨q, eq, hq⟩ := sequenceLoop_cons_iff.mp e
    have hw := h _ _ _ h₂ eq
    have hle := le_trans h₁ hw.le_stop
    rcases hq with ⟨-, rfl⟩ | ⟨ht, rfl⟩ | ⟨-, e'⟩
    · exact within_fail hle hw.stop_le
    · exact within_more (hw.lenient ht) hle hw.stop_le
    · exact ih hle hw.stop_le e'

theorem within_choice {start : Nat} {children : List Nat}
    (h₂ : start ≤ ctx.input.length) (e : choiceLoop f start children = .ok r) :
    Within ctx start r := by
  induction children with
  | nil =>
    cases e
    exact within_failAt h₂
  | cons child children ih =>
    obtain ⟨q, eq, ⟨-, rfl⟩ | ⟨-, e'⟩⟩ := choiceLoop_cons_iff.mp e
    · exact h _ _ _ h₂ eq
    · exact ih e'

omit h in
theorem within_finish {minCount : Int} {start pos count : Nat} (h₁ : start ≤ pos)
    (h₂ : pos ≤ ctx.input.length) :
    Within ctx start (repetitionFinish ctx minCount start pos count) := by
  unfold repetitionFinish
  split
  · split
    · next hl => exact within_more hl.2 h₁ h₂
    · exact within_fail h₁ h₂
  · exact within_success h₁ h₂

theorem within_repetition {child : Nat} {minCount maxCount : Int} {start fuel pos count : Nat}
    (h₁ : start ≤ pos) (h₂ : pos ≤ ctx.input.length)
    (e : repetitionLoop (f child) ctx minCount maxCount start fuel pos count = .ok r) :
    Within ctx start r := by
  induction fuel generalizing pos count with
  | zero => cases e
  | succ fuel ih =>
    by_cases hc : Repeats ctx maxCount pos count
    · obtain ⟨q, eq, hq⟩ := (repetitionLoop_call_iff hc).mp e
      have hw := h _ _ _ h₂ eq
      have hle := le_trans h₁ hw.le_stop
      rcases hq with ⟨-, rfl⟩ | ⟨ht, rfl⟩ | ⟨-, -, e'⟩
      · exact within_finish h₁ h₂
      · exact within_more (hw.lenient ht) hle hw.stop_le
      · exact ih hle hw.stop_le e'
    · rw [repetitionLoop_done hc] at e
      cases e
      exact within_finish h₁ h₂

theorem within_shape (hl : ∀ p pos r, pos ≤ ctx.input.length → leaf p pos = .ok r →
    Within ctx pos r)
    {start : Nat} {sh : Shape} (h₂ : start ≤ ctx.input.length)
    (e : parseShape ctx leaf f start sh = .ok r) : Within ctx start r := by
  cases sh with
  | sequence children => exact within_sequence h le_rfl h₂ e
  | choice children => exact within_choice h h₂ e
  | repetition child minCount maxCount => exact within_repetition h le_rfl h₂ e
  | and_ child =>
    obtain ⟨q, eq, rfl⟩ := parseShape_and_iff.mp e
    exact ⟨le_rfl, h₂, (h _ _ _ h₂ eq).lenient⟩
  | not_ child =>
    obtain ⟨q, eq, ⟨-, rfl⟩ | ⟨ht, rfl⟩ | ⟨-, rfl⟩⟩ := parseShape_not_iff.mp e
    · exact within_failAt h₂
    · exact within_more ((h _ _ _ h₂ eq).lenient ht) le_rfl h₂
    · exact within_success le_rfl h₂
  | call child => exact h _ _ _ h₂ e
  | leaf p => exact hl _ _ _ h₂ e
  | missing err => cases e

end Within

theorem within_parse (hl : ∀ p pos r, pos ≤ ctx.input.length → leaf p pos = .ok r →
    Within ctx pos r)
    {fuel id start : Nat} {r : ParseResult} (h₂ : start ≤ ctx.input.length)
    (e : parseWith arena ctx leaf fuel id start = .ok r) : Within ctx start r := by
  induction fuel generalizing id start r with
  | zero => cases e
  | succ fuel ih =>
    rw [parseWith_succ] at e
    exact within_shape (fun id pos r => ih) hl h₂ e

/-! ## Terminals that stop the parse -/

section Stop

variable {f f' : Nat → Nat → Except PegError ParseResult}

/-- The second parse is the first one, or it was stopped. -/
def OrStop (a a' : Except PegError ParseResult) : Prop := a' = a ∨ a' = .error .stop

theorem OrStop.refl (a : Except PegError ParseResult) : OrStop a a := .inl rfl

variable (h : ∀ id pos, OrStop (f id pos) (f' id pos))

include h

theorem orStop_sequence (start : Nat) (children : List Nat) (pos : Nat) :
    OrStop (sequenceLoop f start children pos) (sequenceLoop f' start children pos) := by
  induction children generalizing pos with
  | nil => exact .refl _
  | cons child children ih =>
    rw [sequenceLoop, sequenceLoop]
    rcases h child pos with e | e
    · rw [e]
      cases f child pos with
      | error err => exact .refl _
      | ok q =>
        dsimp only
        cases q.type with
        | success => exact ih q.stop
        | fail => exact .refl _
        | needMore => exact .refl _
    · rw [e]
      exact .inr rfl

theorem orStop_choice (start : Nat) (children : List Nat) :
    OrStop (choiceLoop f start children) (choiceLoop f' start children) := by
  induction children with
  | nil => exact .refl _
  | cons child children ih =>
    rw [choiceLoop, choiceLoop]
    rcases h child start with e | e
    · rw [e]
      cases f child start with
      | error err => exact .refl _
      | ok q =>
        dsimp only
        split
        · exact .refl _
        · exact ih
    · rw [e]
      exact .inr rfl

theorem orStop_repetition (child : Nat) (minCount maxCount : Int) (start fuel pos count : Nat) :
    OrStop (repetitionLoop (f child) ctx minCount maxCount start fuel pos count)
      (repetitionLoop (f' child) ctx minCount maxCount start fuel pos count) := by
  induction fuel generalizing pos count with
  | zero => exact .refl _
  | succ fuel ih =>
    rw [repetitionLoop, repetitionLoop]
    split
    · rcases h child pos with e | e
      · rw [e]
        cases f child pos with
        | error err => exact .refl _
        | ok q =>
          dsimp only
          cases q.type with
          | success =>
            dsimp only
            split
            · exact .refl _
            · exact ih q.stop (count + 1)
          | fail => exact .refl _
          | needMore => exact .refl _
      · rw [e]
        exact .inr rfl
    · exact .refl _

theorem orStop_shape (hl : ∀ p pos, OrStop (leaf p pos) (leaf' p pos)) (start : Nat) (sh : Shape) :
    OrStop (parseShape ctx leaf f start sh) (parseShape ctx leaf' f' start sh) := by
  cases sh with
  | sequence children => exact orStop_sequence h start children start
  | choice children => exact orStop_choice h start children
  | repetition child minCount maxCount => exact orStop_repetition h child _ _ start _ start 0
  | and_ child =>
    simp only [parseShape]
    rcases h child start with e | e
    · rw [e]
      exact .refl _
    · rw [e]
      exact .inr rfl
  | not_ child =>
    simp only [parseShape]
    rcases h child start with e | e
    · rw [e]
      exact .refl _
    · rw [e]
      exact .inr rfl
  | call child => exact h child start
  | leaf p => exact hl p start
  | missing err => exact .refl _

end Stop

theorem parseWith_or_stop (hl : ∀ p pos, OrStop (leaf p pos) (leaf' p pos)) (fuel id start : Nat) :
    OrStop (parseWith arena ctx leaf fuel id start) (parseWith arena ctx leaf' fuel id start) := by
  induction fuel generalizing id start with
  | zero => exact .refl _
  | succ fuel ih =>
    rw [parseWith_succ, parseWith_succ]
    exact orStop_shape ih hl start _

end Parse

end BeeLlama.Peg
