import BeeLlama.Peg.Combinators
import Mathlib.Order.WellFounded
import Mathlib.Data.Fintype.Prod

/-!
# Parses end

A parser is called at a position (`Calls`). Where no call comes back to itself (`Consumes`) every
parse ends, on every input (`parses_total`).
-/

namespace BeeLlama.Peg

/-- The parser returns the result. -/
def Parses (arena : Arena) (ctx : ParseContext) (id pos : Nat) (r : ParseResult) : Prop :=
  ∃ fuel, parse arena ctx fuel id pos = .ok r

/-- The parsers succeed one behind the other, and lead from the start to the position. -/
inductive After (arena : Arena) (ctx : ParseContext) (start : Nat) : List Nat → Nat → Prop
  | nil : After arena ctx start [] start
  | snoc {done : List Nat} {child pos : Nat} {r : ParseResult} (h : After arena ctx start done pos)
      (hr : Parses arena ctx child pos r) (ht : r.type = .success) :
      After arena ctx start (done ++ [child]) r.stop

/-- The parser calls the other one when it is called at its position. -/
inductive Calls (arena : Arena) (ctx : ParseContext) : Nat × Nat → Nat × Nat → Prop
  | sequence {id start pos child : Nat} {done rest : List Nat}
      (h : shape arena id = .sequence (done ++ child :: rest))
      (hd : After arena ctx start done pos) : Calls arena ctx (id, start) (child, pos)
  | choice {id start child : Nat} {done rest : List Nat}
      (h : shape arena id = .choice (done ++ child :: rest))
      (hd : ∀ other ∈ done, ∃ r, Parses arena ctx other start r ∧ r.type = .fail) :
      Calls arena ctx (id, start) (child, start)
  | repetition {id start pos child count : Nat} {minCount maxCount : Int}
      (h : shape arena id = .repetition child minCount maxCount)
      (hd : After arena ctx start (List.replicate count child) pos)
      (hr : Repeats ctx maxCount pos count) : Calls arena ctx (id, start) (child, pos)
  | and_ {id start child : Nat} (h : shape arena id = .and_ child) :
      Calls arena ctx (id, start) (child, start)
  | not_ {id start child : Nat} (h : shape arena id = .not_ child) :
      Calls arena ctx (id, start) (child, start)
  | call {id start child : Nat} (h : shape arena id = .call child) :
      Calls arena ctx (id, start) (child, start)

/-- No parser comes back to itself before it has read some of the input. -/
def Consumes (arena : Arena) : Prop :=
  ∀ (ctx : ParseContext) (id pos : Nat), pos ≤ ctx.input.length →
    ¬ Relation.TransGen (Calls arena ctx) (id, pos) (id, pos)

/-- The parsers that a shape names. -/
def Shape.children : Shape → List Nat
  | .sequence children => children
  | .choice children => children
  | .repetition child _ _ => [child]
  | .and_ child => [child]
  | .not_ child => [child]
  | .call child => [child]
  | .leaf _ => []
  | .missing _ => []

/-- Every index names an entry and every reference a rule, as `common_peg_parser_builder` makes
them. -/
structure Arena.Closed (arena : Arena) : Prop where
  children_lt : ∀ id, ∀ child ∈ (shape arena id).children, child < arena.parsers.length
  resolved : ∀ id < arena.parsers.length, ∀ e, shape arena id ≠ .missing e
  root_lt : arena.root < arena.parsers.length

section Total

variable {arena : Arena} {ctx : ParseContext}

theorem parse_mono {fuel fuel' : Nat} (hf : fuel ≤ fuel') {id pos : Nat} {r : ParseResult}
    (e : parse arena ctx fuel id pos = .ok r) : parse arena ctx fuel' id pos = .ok r :=
  parseWith_mono (fun _ _ _ h => h) hf e

theorem parse_within {fuel id pos : Nat} {r : ParseResult} (hp : pos ≤ ctx.input.length)
    (e : parse arena ctx fuel id pos = .ok r) : Within ctx pos r := by
  refine within_parse (fun p pos r h e => ?_) hp e
  cases e
  exact within_terminal ctx p h

section Loops

variable {start : Nat}

/-- A sequence ends when the parsers end that it calls. -/
theorem sequence_total (children : List Nat)
    (h : ∀ done child rest pos, children = done ++ child :: rest →
      After arena ctx start done pos → pos ≤ ctx.input.length → ∃ r, Parses arena ctx child pos r)
    {done rest : List Nat} {pos : Nat} (hc : children = done ++ rest)
    (hd : After arena ctx start done pos) (hp : pos ≤ ctx.input.length) :
    ∃ fuel r, sequenceLoop (parse arena ctx fuel) start rest pos = .ok r := by
  induction rest generalizing done pos with
  | nil => exact ⟨0, _, rfl⟩
  | cons child rest ih =>
    obtain ⟨q, n, hq⟩ := h done child rest pos hc hd hp
    cases ht : q.type with
    | fail => exact ⟨n, _, sequenceLoop_cons_iff.mpr ⟨q, hq, .inl ⟨ht, rfl⟩⟩⟩
    | needMore => exact ⟨n, _, sequenceLoop_cons_iff.mpr ⟨q, hq, .inr (.inl ⟨ht, rfl⟩)⟩⟩
    | success =>
      obtain ⟨m, r, hr⟩ := ih (show children = (done ++ [child]) ++ rest by simp [hc])
        (hd.snoc ⟨n, hq⟩ ht)
        (parse_within hp hq).stop_le
      exact ⟨max n m, r, sequenceLoop_cons_iff.mpr ⟨q, parse_mono (le_max_left n m) hq,
        .inr (.inr ⟨ht, sequenceLoop_mono (fun _ _ _ => parse_mono (le_max_right n m)) hr⟩)⟩⟩

/-- A choice ends when the parsers end that it calls. -/
theorem choice_total (children : List Nat)
    (h : ∀ done child rest, children = done ++ child :: rest →
      (∀ other ∈ done, ∃ r, Parses arena ctx other start r ∧ r.type = .fail) →
      ∃ r, Parses arena ctx child start r)
    {done rest : List Nat} (hc : children = done ++ rest)
    (hd : ∀ other ∈ done, ∃ r, Parses arena ctx other start r ∧ r.type = .fail) :
    ∃ fuel r, choiceLoop (parse arena ctx fuel) start rest = .ok r := by
  induction rest generalizing done with
  | nil => exact ⟨0, _, rfl⟩
  | cons child rest ih =>
    obtain ⟨q, n, hq⟩ := h done child rest hc hd
    by_cases ht : q.type = .fail
    · have hd' : ∀ other ∈ done ++ [child],
          ∃ r, Parses arena ctx other start r ∧ r.type = .fail := by
        intro other ho
        rcases List.mem_append.mp ho with ho | ho
        · exact hd other ho
        · rw [List.mem_singleton.mp ho]
          exact ⟨q, ⟨n, hq⟩, ht⟩
      obtain ⟨m, r, hr⟩ := ih (by simp [hc]) hd'
      exact ⟨max n m, r, choiceLoop_cons_iff.mpr ⟨q, parse_mono (le_max_left n m) hq,
        .inr ⟨ht, choiceLoop_mono (fun _ _ _ => parse_mono (le_max_right n m)) hr⟩⟩⟩
    · exact ⟨n, q, choiceLoop_cons_iff.mpr ⟨q, hq, .inl ⟨ht, rfl⟩⟩⟩

/-- A repetition ends when its parser ends: every call but the last one reads some of the input. -/
theorem repetition_total (child : Nat) (minCount maxCount : Int)
    (h : ∀ pos count, After arena ctx start (List.replicate count child) pos →
      Repeats ctx maxCount pos count → ∃ r, Parses arena ctx child pos r)
    {left pos count : Nat} (hd : After arena ctx start (List.replicate count child) pos)
    (hp : pos ≤ ctx.input.length) (hl : ctx.input.length - pos < left) :
    ∃ fuel r, repetitionLoop (parse arena ctx fuel child) ctx minCount maxCount start left pos
      count = .ok r := by
  induction left generalizing pos count with
  | zero => omega
  | succ left ih =>
    by_cases hc : Repeats ctx maxCount pos count
    · obtain ⟨q, n, hq⟩ := h pos count hd hc
      have hw := parse_within hp hq
      cases ht : q.type with
      | fail =>
        exact ⟨n, _, (repetitionLoop_call_iff hc).mpr ⟨q, hq, .inl ⟨.inl ht, rfl⟩⟩⟩
      | needMore =>
        exact ⟨n, _, (repetitionLoop_call_iff hc).mpr ⟨q, hq, .inr (.inl ⟨ht, rfl⟩)⟩⟩
      | success =>
        by_cases hs : q.stop = pos
        · exact ⟨n, _, (repetitionLoop_call_iff hc).mpr ⟨q, hq, .inl ⟨.inr ⟨ht, hs⟩, rfl⟩⟩⟩
        · have hd' := hd.snoc ⟨n, hq⟩ ht
          rw [← List.replicate_succ'] at hd'
          have := hw.le_stop
          obtain ⟨m, r, hr⟩ := ih hd' hw.stop_le (by omega)
          have hm : ∀ id pos r, parse arena ctx m id pos = .ok r →
              parse arena ctx (max n m) id pos = .ok r :=
            fun _ _ _ => parse_mono (le_max_right n m)
          exact ⟨max n m, r, (repetitionLoop_call_iff hc).mpr
            ⟨q, parse_mono (le_max_left n m) hq, .inr (.inr ⟨ht, hs, repetitionLoop_mono hm hr⟩)⟩⟩
    · exact ⟨0, _, repetitionLoop_done hc⟩

end Loops

/-- A parser ends when the parsers end that it calls. -/
theorem parses_of_calls (closed : arena.Closed) {id start : Nat}
    (hid : id < arena.parsers.length) (hs : start ≤ ctx.input.length)
    (h : ∀ child pos, child < arena.parsers.length → pos ≤ ctx.input.length →
      Calls arena ctx (id, start) (child, pos) → ∃ r, Parses arena ctx child pos r) :
    ∃ r, Parses arena ctx id start r := by
  have hlt := closed.children_lt id
  suffices ∃ fuel r, parseShape ctx (fun p start => .ok (terminal ctx p start))
      (parse arena ctx fuel) start (shape arena id) = .ok r by
    obtain ⟨fuel, r, e⟩ := this
    exact ⟨r, fuel + 1, (parseWith_succ fuel id start).trans e⟩
  cases hsh : shape arena id with
  | sequence children =>
    rw [hsh] at hlt
    refine sequence_total children (fun done child rest pos hc hd hp => ?_)
      (show children = [] ++ children from rfl) .nil hs
    exact h child pos (hlt child (by simp [Shape.children, hc])) hp (.sequence (hc ▸ hsh) hd)
  | choice children =>
    rw [hsh] at hlt
    refine choice_total children (fun done child rest hc hd => ?_)
      (show children = [] ++ children from rfl) (by simp)
    exact h child start (hlt child (by simp [Shape.children, hc])) hs (.choice (hc ▸ hsh) hd)
  | repetition child minCount maxCount =>
    rw [hsh] at hlt
    refine repetition_total child minCount maxCount (fun pos count hd hr => ?_) .nil hs (by omega)
    exact h child pos (hlt child (by simp [Shape.children])) (Nat.le_of_lt hr.2)
      (.repetition hsh hd hr)
  | and_ child =>
    rw [hsh] at hlt
    obtain ⟨q, n, hq⟩ := h child start (hlt child (by simp [Shape.children])) hs (.and_ hsh)
    exact ⟨n, _, parseShape_and_iff.mpr ⟨q, hq, rfl⟩⟩
  | not_ child =>
    rw [hsh] at hlt
    obtain ⟨q, n, hq⟩ := h child start (hlt child (by simp [Shape.children])) hs (.not_ hsh)
    cases ht : q.type with
    | success => exact ⟨n, _, parseShape_not_iff.mpr ⟨q, hq, .inl ⟨ht, rfl⟩⟩⟩
    | needMore => exact ⟨n, _, parseShape_not_iff.mpr ⟨q, hq, .inr (.inl ⟨ht, rfl⟩)⟩⟩
    | fail => exact ⟨n, _, parseShape_not_iff.mpr ⟨q, hq, .inr (.inr ⟨ht, rfl⟩)⟩⟩
  | call child =>
    rw [hsh] at hlt
    obtain ⟨q, n, hq⟩ := h child start (hlt child (by simp [Shape.children])) hs (.call hsh)
    exact ⟨n, q, hq⟩
  | leaf p => exact ⟨0, _, rfl⟩
  | missing e => exact absurd hsh (closed.resolved id hid e)

/-- Every parse ends: there are only so many calls, and none comes back to itself. -/
theorem parses_total (closed : arena.Closed) (consumes : Consumes arena) {id start : Nat}
    (hid : id < arena.parsers.length) (hs : start ≤ ctx.input.length) :
    ∃ r, Parses arena ctx id start r := by
  let State := Fin arena.parsers.length × Fin (ctx.input.length + 1)
  let below : State → State → Prop := fun a b =>
    Relation.TransGen (Calls arena ctx) (b.1.val, b.2.val) (a.1.val, a.2.val)
  have : IsTrans State below := ⟨fun a b c h1 h2 => h2.trans h1⟩
  have : Std.Irrefl below := ⟨fun a => consumes ctx a.1 a.2 (Nat.lt_succ_iff.mp a.2.isLt)⟩
  have wf : WellFounded below := Finite.wellFounded_of_trans_of_irrefl below
  suffices ∀ a : State, ∃ r, Parses arena ctx a.1 a.2 r from
    this (⟨id, hid⟩, ⟨start, Nat.lt_succ_of_le hs⟩)
  intro a
  induction a using wf.induction with
  | _ a ih =>
    refine parses_of_calls closed a.1.isLt (Nat.lt_succ_iff.mp a.2.isLt) ?_
    intro child pos hchild hpos hcall
    exact ih (⟨child, hchild⟩, ⟨pos, Nat.lt_succ_of_le hpos⟩) (.single hcall)

/-- A parser only calls those that it names. -/
theorem Calls.mem_children {a b : Nat × Nat} (h : Calls arena ctx a b) :
    b.1 ∈ (shape arena a.1).children := by
  cases h with
  | sequence h hd => simp [h, Shape.children]
  | choice h hd => simp [h, Shape.children]
  | repetition h hd hr => simp [h, Shape.children]
  | and_ h => simp [h, Shape.children]
  | not_ h => simp [h, Shape.children]
  | call h => simp [h, Shape.children]

/-- An arena without references back, where every parser names only later ones, consumes. -/
theorem consumes_of_lt (h : ∀ id, ∀ child ∈ (shape arena id).children, id < child) :
    Consumes arena := by
  intro ctx id pos _ hcycle
  have hlt : ∀ a b, Relation.TransGen (Calls arena ctx) a b → a.1 < b.1 := by
    intro a b hab
    induction hab with
    | single hab => exact h _ _ hab.mem_children
    | tail _ hbc ih => exact lt_trans ih (h _ _ hbc.mem_children)
  exact lt_irrefl id (hlt _ _ hcycle)

end Total

end BeeLlama.Peg
