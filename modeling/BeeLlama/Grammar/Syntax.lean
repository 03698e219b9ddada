import BeeLlama.Grammar.Element

/-!
# Rules as productions

The alternatives of a rule as sequences of symbols (`alts`), and a stack as the sequence of symbols
that it still has to match (`stackSyms`). An expansion in `llama_grammar_advance_stack` is an
expansion of the first symbol (`next_expands`, `exists_next`), so the loop ends if no rule is
left-recursive (`advanceStack_ends`).
-/

namespace BeeLlama.Grammar

open Cfg Worklist List

/-- An element that continues a character range. -/
def isModifier (e : GrammarElement) : Bool :=
  decide (e.type = .charRngUpper ∨ e.type = .charAlt)

/-- The symbols of an alternative from an element on. A terminal is a range with its modifiers;
`inRange` says that the elements before are a range. -/
def symsFrom : Bool → List GrammarElement → List (Sym Nat (List GrammarElement))
  | _, [] => []
  | inRange, e :: es =>
    match e.type with
    | .end_ => []
    | .alt => []
    | .ruleRef => .rule e.value :: symsFrom false es
    | .charRngUpper => if inRange then symsFrom true es else .term [e] :: symsFrom false es
    | .charAlt => if inRange then symsFrom true es else .term [e] :: symsFrom false es
    | .char => .term (e :: es.takeWhile isModifier) :: symsFrom true es
    | .charNot => .term (e :: es.takeWhile isModifier) :: symsFrom true es
    | .charAny => .term (e :: es.takeWhile isModifier) :: symsFrom true es
    | .token => .term [e] :: symsFrom false es
    | .tokenNot => .term [e] :: symsFrom false es

/-- The alternatives of a rule. -/
def alts (rules : GrammarRules) (r : Nat) : List (List (Sym Nat (List GrammarElement))) :=
  (altStarts (rules.getD r [])).map fun i => symsFrom false ((rules.getD r []).drop i)

/-- What a stack still has to match. -/
def stackSyms (rules : GrammarRules) (stack : GrammarStack) :
    List (Sym Nat (List GrammarElement)) :=
  stack.flatMap fun p => symsFrom false (suffix rules p)

variable {rules : GrammarRules}

@[simp] theorem stackSyms_nil : stackSyms rules [] = [] := rfl

theorem stackSyms_cons (p : ElementPtr) (stack : GrammarStack) :
    stackSyms rules (p :: stack) = symsFrom false (suffix rules p) ++ stackSyms rules stack := rfl

@[simp] theorem suffix_mk (r i : Nat) : suffix rules ⟨r, i⟩ = (rules.getD r []).drop i := rfl

theorem suffix_add (p : ElementPtr) (n : Nat) :
    suffix rules (p.add n) = (suffix rules p).drop n := by
  simp [suffix, ElementPtr.add, drop_drop]

variable {e : GrammarElement} {stack : GrammarStack}

theorem symsFrom_of_end (h : isEndOfSequence e = true) (b : Bool)
    (es : List GrammarElement) : symsFrom b (e :: es) = [] := by
  unfold isEndOfSequence at h
  unfold symsFrom
  split at h <;> simp_all

theorem isEndOfSequence_eq_false (h : isEndOfSequence e = false) :
    e.type ≠ .end_ ∧ e.type ≠ .alt := by
  unfold isEndOfSequence at h
  constructor <;> intro ht <;> simp [ht] at h

/-- A pointer to an element and the elements from there. -/
theorem suffix_eq_cons {p : ElementPtr} (h : (elem rules p).type ≠ .end_) :
    ∃ es, suffix rules p = elem rules p :: es ∧ suffix rules (p.add 1) = es := by
  rw [suffix_add]
  unfold elem at h ⊢
  cases e : suffix rules p with
  | nil => simp [e] at h
  | cons a es => exact ⟨es, by simp, by simp⟩

theorem symsFrom_suffix_of_end {p : ElementPtr} (h : isEndOfSequence (elem rules p) = true)
    (b : Bool) : symsFrom b (suffix rules p) = [] := by
  cases e : suffix rules p with
  | nil => rfl
  | cons a es =>
    have ha : elem rules p = a := by simp [elem, e]
    exact symsFrom_of_end (ha ▸ h) b es

theorem stackSyms_pushUnlessEnd (p : ElementPtr) (stack : GrammarStack) :
    stackSyms rules (pushUnlessEnd rules p stack) =
      symsFrom false (suffix rules p) ++ stackSyms rules stack := by
  unfold pushUnlessEnd
  split
  · next h => rw [symsFrom_suffix_of_end h, nil_append]
  · rfl

theorem expandStack_ruleRef {pos : ElementPtr} {rest : GrammarStack}
    (ht : (elem rules pos).type = .ruleRef) :
    expandStack rules (pos :: rest) =
      .ok (some ((altStarts (rules.getD (elem rules pos).value [])).map fun subpos =>
        pushUnlessEnd rules ⟨(elem rules pos).value, subpos⟩
          (pushUnlessEnd rules (pos.add 1) rest))) := by
  simp only [expandStack, ht]

/-- A stack that is replaced has a rule reference on top. -/
theorem expandStack_some {l : GrammarStacks} (e : expandStack rules stack = .ok (some l)) :
    ∃ pos rest, stack = pos :: rest ∧ (elem rules pos).type = .ruleRef ∧
      l = (altStarts (rules.getD (elem rules pos).value [])).map fun subpos =>
        pushUnlessEnd rules ⟨(elem rules pos).value, subpos⟩
          (pushUnlessEnd rules (pos.add 1) rest) := by
  cases stack with
  | nil => cases e
  | cons pos rest =>
    by_cases ht : (elem rules pos).type = .ruleRef
    · rw [expandStack_ruleRef ht] at e
      exact ⟨pos, rest, rfl, ht, (Option.some.inj (Except.ok.inj e)).symm⟩
    · cases h : (elem rules pos).type <;> simp_all [expandStack]

theorem stackSyms_ruleRef {pos : ElementPtr} (h : (elem rules pos).type = .ruleRef)
    (rest : GrammarStack) : stackSyms rules (pos :: rest) =
      .rule (elem rules pos).value :: stackSyms rules (pushUnlessEnd rules (pos.add 1) rest) := by
  have hne : (elem rules pos).type ≠ .end_ := by
    rw [h]
    decide
  obtain ⟨es, e1, e2⟩ := suffix_eq_cons hne
  rw [stackSyms_cons, stackSyms_pushUnlessEnd, e1, e2]
  simp only [symsFrom, h, cons_append]

/-- An expansion of a stack expands its first symbol. -/
theorem next_expands {a b : GrammarStack} (h : Next (expandStack rules) a b) :
    Expands (alts rules) (stackSyms rules a) (stackSyms rules b) := by
  obtain ⟨l, e, hb⟩ := h
  obtain ⟨pos, rest, rfl, ht, rfl⟩ := expandStack_some e
  obtain ⟨i, hi, rfl⟩ := mem_map.mp hb
  refine ⟨_, _, _, stackSyms_ruleRef ht rest, mem_map.mpr ⟨i, hi, rfl⟩, ?_⟩
  rw [stackSyms_pushUnlessEnd, suffix_mk]

/-- Each expansion of the first symbol is one of the stack. -/
theorem exists_next {pos : ElementPtr} {rest : GrammarStack}
    (ht : (elem rules pos).type = .ruleRef) {rhs : List (Sym Nat (List GrammarElement))}
    (hr : rhs ∈ alts rules (elem rules pos).value) :
    ∃ b, Next (expandStack rules) (pos :: rest) b ∧
      stackSyms rules b = rhs ++ stackSyms rules (pushUnlessEnd rules (pos.add 1) rest) := by
  obtain ⟨i, hi, rfl⟩ := mem_map.mp hr
  refine ⟨pushUnlessEnd rules ⟨(elem rules pos).value, i⟩
    (pushUnlessEnd rules (pos.add 1) rest), ⟨_, expandStack_ruleRef ht, ?_⟩, ?_⟩
  · exact mem_map.mpr ⟨i, hi, rfl⟩
  · rw [stackSyms_pushUnlessEnd, suffix_mk]

/-- The expansions of a stack are finite if those of its symbols are. -/
theorem acc_next (h : Ends (alts rules) (stackSyms rules stack)) :
    Acc (fun b a => Next (expandStack rules) a b) stack :=
  Subrelation.accessible (fun hn => next_expands hn)
    (InvImage.accessible (stackSyms rules) h)

/-! ## The rules in leftmost position -/

theorem symsFrom_ruleRef_mem {r : Nat} {b : Bool} {es : List GrammarElement}
    (h : .rule r ∈ symsFrom b es) : ∃ e ∈ es, e.type = .ruleRef ∧ e.value = r := by
  induction es generalizing b with
  | nil => cases h
  | cons e es ih =>
    have tail : ∀ {b}, .rule r ∈ symsFrom b es →
        ∃ e' ∈ e :: es, e'.type = .ruleRef ∧ e'.value = r :=
      fun h => (ih h).imp fun _ h => ⟨mem_cons_of_mem _ h.1, h.2⟩
    have skip : ∀ {b t}, .rule r ∈ (.term t :: symsFrom b es : List (Cfg.Sym Nat _)) →
        ∃ e' ∈ e :: es, e'.type = .ruleRef ∧ e'.value = r :=
      fun h => tail ((mem_cons.mp h).resolve_left (by simp))
    unfold symsFrom at h
    split at h
    · cases h
    · cases h
    · next ht =>
      rcases mem_cons.mp h with h | h
      · exact ⟨e, mem_cons_self, ht, by simpa using h.symm⟩
      · exact tail h
    · split at h
      · exact tail h
      · exact skip h
    · split at h
      · exact tail h
      · exact skip h
    all_goals exact skip h

/-- A rule of an alternative is a rule of the grammar. -/
theorem lt_of_mem_alts (hv : refsValid rules = true) {r r' : Nat}
    {rhs : List (Sym Nat (List GrammarElement))} (hr : rhs ∈ alts rules r)
    (h : .rule r' ∈ rhs) : r' < rules.length := by
  obtain ⟨i, -, rfl⟩ := mem_map.mp hr
  obtain ⟨e, he, ht, rfl⟩ := symsFrom_ruleRef_mem h
  have he' := mem_of_mem_drop he
  have hrule : rules.getD r [] ∈ rules := by
    by_cases hlt : r < rules.length
    · simp [getD_eq_getElem?_getD, hlt]
    · simp [getD_eq_getElem?_getD, hlt] at he'
  have := all_eq_true.mp (all_eq_true.mp hv _ hrule) e he'
  simpa [ht] using this

theorem lt_of_leftEdge (hv : refsValid rules = true) {r r' : Nat}
    (h : LeftEdge (alts rules) r r') : r' < rules.length := by
  obtain ⟨pre, post, hr, -⟩ := h
  exact lt_of_mem_alts hv hr (by simp)

/-- Without left recursion every sequence of symbols ends. -/
theorem ends_of_not_leftRecursive (hv : refsValid rules = true)
    (h : ¬ LeftRecursive (alts rules)) (ss : List (Sym Nat (List GrammarElement))) :
    Ends (alts rules) ss :=
  ends_of_acc fun r _ => acc_of_not_leftRecursive (Set.finite_lt_nat rules.length)
    (fun _ _ he => lt_of_leftEdge hv he) h r

/-- Without left recursion the loop of `llama_grammar_advance_stack` ends. -/
theorem advanceStack_ends (hv : refsValid rules = true) (h : ¬ LeftRecursive (alts rules))
    (stack : GrammarStack) (newStacks : GrammarStacks) :
    ∃ fuel, advanceStack rules fuel stack newStacks ≠ .error .fuel := by
  have ha : ∀ t ∈ [stack], Acc (fun b a => Next (expandStack rules) a b) t :=
    fun t _ => acc_next (ends_of_not_leftRecursive hv h _)
  rcases @search_ends _ _ _ (expandStack rules) .fuel _ ha [] newStacks with
    ⟨n, out, e⟩ | ⟨n, t, -, x, er, -, ex, e⟩
  · exact ⟨n, by rw [advanceStack, e]; simp⟩
  · refine ⟨n, ?_⟩
    rw [advanceStack, e]
    intro h
    cases x with
    | nil => cases ex
    | cons pos rest =>
      obtain rfl := Except.error.inj h
      cases ht : (elem rules pos).type <;> simp [expandStack, ht] at ex

end BeeLlama.Grammar
