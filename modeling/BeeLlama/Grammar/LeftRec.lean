import BeeLlama.Grammar.Syntax
import Mathlib.Data.List.TakeWhile

/-!
# The search for left recursion (`llama_grammar_detect_left_recursion`)

The search goes from a rule to the references in leftmost position of its alternatives, and over a
reference to a rule with an empty alternative also to the next one. It does not see that a rule can
vanish through other rules.

* `detectAll_eq_false_iff`: the search finds nothing if and only if no rule comes back to itself
  over rules with an empty alternative (`SkipEdge`).
* `detect_complete_iff`: it is complete exactly if a left recursion of the grammar, if there is
  one, is also one of this kind.
-/

namespace BeeLlama
namespace Grammar

open Cfg List

/-- `r'` is in leftmost position of an alternative of `r`, after rules with an empty
alternative. -/
def SkipEdge (rules : GrammarRules) (r r' : Nat) : Prop :=
  ∃ pre post, pre ++ .rule r' :: post ∈ alts rules r ∧
    ∀ s ∈ pre, ∃ q, s = .rule q ∧ [] ∈ alts rules q

/-! ## The elements of a rule and its alternatives -/

/-- The elements end with `LLAMA_GRETYPE_END`, which is nowhere before. -/
def EndsOnce (es : List GrammarElement) : Prop :=
  ∃ body, es = body ++ [⟨.end_, 0⟩] ∧ ∀ e ∈ body, e.type ≠ .end_

theorem endsOnce_copyRule (rule : List GrammarElement) : EndsOnce (copyRule rule) :=
  ⟨_, rfl, fun e he => by simpa using mem_takeWhile_imp he⟩

variable {e : GrammarElement} {es : List GrammarElement}

theorem EndsOnce.tail (h : EndsOnce (e :: es)) (he : e.type ≠ .end_) : EndsOnce es := by
  obtain ⟨body, e1, hb⟩ := h
  cases body with
  | nil => cases e1; exact absurd rfl he
  | cons a body =>
    cases e1
    exact ⟨body, rfl, fun x hx => hb x (mem_cons_of_mem _ hx)⟩

theorem EndsOnce.tail_eq_nil (h : EndsOnce (e :: es)) (he : e.type = .end_) : es = [] := by
  obtain ⟨body, e1, hb⟩ := h
  cases body with
  | nil => cases e1; rfl
  | cons a body =>
    cases e1
    exact absurd he (hb _ mem_cons_self)

theorem scanAlternates_add (es : List GrammarElement) (i k : Nat) :
    scanAlternates es (i + k) = (scanAlternates es i).map (· + k) := by
  induction es generalizing i with
  | nil => rfl
  | cons e es ih =>
    have h : i + k + 1 = i + 1 + k := by omega
    unfold scanAlternates
    split
    · rfl
    · simp only [h, ih (i + 1), map_cons]
    · simp only [h, ih (i + 1)]

/-- The alternatives after the first one. -/
def laterAlts (es : List GrammarElement) : List (List (Sym Nat (List GrammarElement))) :=
  (scanAlternates es 0).map fun i => symsFrom false (es.drop i)

theorem alts_eq (rules : GrammarRules) (r : Nat) :
    alts rules r = symsFrom false (rules.getD r []) :: laterAlts (rules.getD r []) := by
  simp [alts, altStarts, laterAlts]

theorem laterAlts_of_end (h : e.type = .end_) (es : List GrammarElement) :
    laterAlts (e :: es) = [] := by
  simp [laterAlts, scanAlternates, h]

theorem laterAlts_of_alt (h : e.type = .alt) (es : List GrammarElement) :
    laterAlts (e :: es) = symsFrom false es :: laterAlts es := by
  simp [laterAlts, scanAlternates, h, scanAlternates_add es 0 1, Function.comp_def]

theorem laterAlts_of_not_end (h : isEndOfSequence e = false)
    (es : List GrammarElement) : laterAlts (e :: es) = laterAlts es := by
  obtain ⟨h1, h2⟩ := isEndOfSequence_eq_false h
  have hs : scanAlternates (e :: es) 0 = scanAlternates es 1 := by
    cases ht : e.type <;> simp_all [scanAlternates]
  simp [laterAlts, hs, scanAlternates_add es 0 1, Function.comp_def]

/-- An element that is no rule reference is not an empty symbol sequence, and hides what comes
after it. -/
theorem symsFrom_false_of_not_end (h : isEndOfSequence e = false) (es : List GrammarElement) :
    (e.type = .ruleRef ∧ symsFrom false (e :: es) = .rule e.value :: symsFrom false es) ∨
      e.type ≠ .ruleRef ∧ ∃ t b, symsFrom false (e :: es) = .term t :: symsFrom b es := by
  obtain ⟨h1, h2⟩ := isEndOfSequence_eq_false h
  cases ht : e.type <;> simp_all [symsFrom]

/-- The first loop finds an empty alternative. -/
theorem hasEmptyAlternate_iff (h : EndsOnce es) (start : Bool) : hasEmptyAlternate es start = true ↔
      (start = true ∧ symsFrom false es = []) ∨ [] ∈ laterAlts es := by
  induction es generalizing start with
  | nil =>
    obtain ⟨body, e, -⟩ := h
    cases body <;> cases e
  | cons e es ih =>
    by_cases he : isEndOfSequence e = true
    · have hs := symsFrom_of_end he false es
      by_cases hend : e.type = .end_
      · obtain rfl := h.tail_eq_nil hend
        cases start <;> simp [hasEmptyAlternate, he, hs, laterAlts_of_end hend]
      · have halt : e.type = .alt := by
          unfold isEndOfSequence at he
          split at he <;> simp_all
        have hc : [] = symsFrom false es ↔ symsFrom false es = [] := eq_comm
        cases start <;>
          simp [hasEmptyAlternate, he, hs, laterAlts_of_alt halt, ih (h.tail hend), hc]
    · have he' : isEndOfSequence e = false := by simpa using he
      rw [laterAlts_of_not_end he']
      have hne : symsFrom false (e :: es) ≠ [] := by
        rcases symsFrom_false_of_not_end he' es with ⟨-, e⟩ | ⟨-, t, b, e⟩ <;> simp [e]
      have hi := ih (h.tail (isEndOfSequence_eq_false he').1) false
      simp [hasEmptyAlternate, he', hne, hi]

/-! ## The references that the second loop visits -/

section

variable (empty : Nat → Prop) [DecidablePred empty]

/-- The references that the second loop visits. -/
def leftRefs : List GrammarElement → Bool → List Nat
  | [], _ => []
  | e :: es, recurse =>
    if e.type = .ruleRef ∧ recurse = true then
      e.value :: leftRefs es (decide (empty e.value))
    else leftRefs es (isEndOfSequence e)

/-- The first references of a sequence, over rules that may be empty. -/
def firstRefs : List (Sym Nat (List GrammarElement)) → List Nat
  | [] => []
  | .term _ :: _ => []
  | .rule q :: ss => q :: if empty q then firstRefs ss else []

variable {empty}

theorem mem_firstRefs {ss : List (Sym Nat (List GrammarElement))} {r : Nat} :
    r ∈ firstRefs empty ss ↔
      ∃ pre post, ss = pre ++ .rule r :: post ∧ ∀ s ∈ pre, ∃ q, s = .rule q ∧ empty q := by
  induction ss with
  | nil => simp [firstRefs]
  | cons s ss ih =>
    constructor
    · intro h
      cases s with
      | term t => cases h
      | rule q =>
        rcases mem_cons.mp h with rfl | h
        · exact ⟨[], ss, rfl, by simp⟩
        · split at h
          · next hq =>
            obtain ⟨pre, post, rfl, hpre⟩ := ih.mp h
            refine ⟨.rule q :: pre, post, rfl, fun s hs => ?_⟩
            rcases mem_cons.mp hs with rfl | hs
            · exact ⟨q, rfl, hq⟩
            · exact hpre s hs
          · cases h
    · rintro ⟨pre, post, e, hpre⟩
      cases pre with
      | nil =>
        cases e
        exact mem_cons_self
      | cons p pre =>
        cases e
        obtain ⟨q, rfl, hq⟩ := hpre s mem_cons_self
        refine mem_cons_of_mem _ ?_
        rw [if_pos hq]
        exact ih.mpr ⟨pre, post, rfl, fun s hs => hpre s (mem_cons_of_mem _ hs)⟩

/-- The loop visits the first references of the alternatives. -/
theorem mem_leftRefs {es : List GrammarElement} (h : EndsOnce es) (recurse : Bool) {r : Nat} :
    r ∈ leftRefs empty es recurse ↔
      (recurse = true ∧ r ∈ firstRefs empty (symsFrom false es)) ∨
        ∃ a ∈ laterAlts es, r ∈ firstRefs empty a := by
  induction es generalizing recurse with
  | nil =>
    obtain ⟨body, e, -⟩ := h
    cases body <;> cases e
  | cons e es ih =>
    by_cases he : isEndOfSequence e = true
    · have hs := symsFrom_of_end he false es
      have href : ¬ (e.type = .ruleRef ∧ recurse = true) := by
        rintro ⟨ht, -⟩
        simp [isEndOfSequence, ht] at he
      by_cases hend : e.type = .end_
      · obtain rfl := h.tail_eq_nil hend
        simp [leftRefs, href, hs, laterAlts_of_end hend, firstRefs]
      · have halt : e.type = .alt := by
          unfold isEndOfSequence at he
          split at he <;> simp_all
        simp [leftRefs, href, hs, he, laterAlts_of_alt halt, ih (h.tail hend), firstRefs]
    · have he' : isEndOfSequence e = false := by simpa using he
      have hi := fun b => ih (h.tail (isEndOfSequence_eq_false he').1) b
      rw [laterAlts_of_not_end he']
      rcases symsFrom_false_of_not_end he' es with ⟨ht, e1⟩ | ⟨ht, t, b, e1⟩
      · cases recurse with
        | false => simp [leftRefs, he', hi]
        | true =>
          rw [e1]
          simp only [leftRefs, ht, and_self, if_true, mem_cons, hi, firstRefs, true_and,
            decide_eq_true_eq, or_assoc]
          by_cases hq : empty e.value
          · simp [hq]
          · simp [hq]
      · simp [leftRefs, ht, he', hi, e1, firstRefs]

end

/-! ## The search -/

section Search

variable {rules : GrammarRules}

/-- The rule has an empty alternative. -/
abbrev Vanishes (rules : GrammarRules) (q : Nat) : Prop :=
  hasEmptyAlternate (rules.getD q []) true = true

/-- The references that the search follows. -/
def Follows (rules : GrammarRules) (r r' : Nat) : Prop :=
  r' ∈ leftRefs (Vanishes rules) (rules.getD r []) true

/-- What is known during the search: a rule that may be empty has an empty alternative, and the
paths from a rule that is done are finite. -/
structure DetectOk (rules : GrammarRules) (st : Detect) : Prop where
  empty : ∀ q, st.mayBeEmpty q = true → Vanishes rules q
  visited : ∀ q, st.visited q = true → Acc (fun b a => Follows rules a b) q

/-- What the search from a rule leaves when it found nothing. -/
structure Cleared (rules : GrammarRules) (r : Nat) (st st' : Detect) : Prop where
  ok : DetectOk rules st'
  progress : st'.inProgress = st.inProgress
  empty : st'.mayBeEmpty r = true ↔ Vanishes rules r
  keeps : ∀ q, st.mayBeEmpty q = true → st'.mayBeEmpty q = true
  acc : Acc (fun b a => Follows rules a b) r

theorem detectLoop_cleared {detect : Nat → Detect → Option (Bool × Detect)}
    (hd : ∀ r st st', DetectOk rules st → detect r st = some (false, st') → Cleared rules r st st')
    {es : List GrammarElement} {recurse : Bool} {st st' : Detect} (h : DetectOk rules st)
    (e : detectLoop detect es recurse st = some (false, st')) :
    DetectOk rules st' ∧ st'.inProgress = st.inProgress ∧
      (∀ q, st.mayBeEmpty q = true → st'.mayBeEmpty q = true) ∧
      ∀ r ∈ leftRefs (Vanishes rules) es recurse, Acc (fun b a => Follows rules a b) r := by
  induction es generalizing recurse st with
  | nil =>
    cases e
    exact ⟨h, rfl, fun _ => id, by simp [leftRefs]⟩
  | cons el es ih =>
    unfold detectLoop at e
    split at e
    · next hc =>
      split at e
      · cases e
      · cases e
      · next st1 e1 =>
        have hc1 := hd _ _ _ h e1
        have hrec : st1.mayBeEmpty el.value = decide (Vanishes rules el.value) := by
          rw [Bool.eq_iff_iff, hc1.empty, decide_eq_true_eq]
        obtain ⟨h2, hp, hk, ha⟩ := ih hc1.ok e
        rw [hrec] at ha
        refine ⟨h2, hp.trans hc1.progress, fun q hq => hk q (hc1.keeps q hq), fun r hr => ?_⟩
        simp only [leftRefs, if_pos hc] at hr
        rcases mem_cons.mp hr with rfl | hr
        · exact hc1.acc
        · exact ha r hr
    · next hc =>
      obtain ⟨h2, hp, hk, ha⟩ := ih h e
      refine ⟨h2, hp, hk, fun r hr => ?_⟩
      simp only [leftRefs, if_neg hc] at hr
      exact ha r hr

/-- If the search from a rule finds nothing, the paths from the rule are finite. -/
theorem detectLeftRecursion_cleared {depth r : Nat} {st st' : Detect} (h : DetectOk rules st)
    (e : detectLeftRecursion rules depth r st = some (false, st')) : Cleared rules r st st' := by
  induction depth generalizing r st st' with
  | zero => cases e
  | succ depth ih =>
    unfold detectLeftRecursion at e
    split at e
    · cases e
    · next hp =>
      dsimp only at e
      set st0 : Detect :=
        if hasEmptyAlternate (rules.getD r []) true = true then
          { st with
            inProgress := Function.update st.inProgress r true
            mayBeEmpty := Function.update st.mayBeEmpty r true }
        else { st with inProgress := Function.update st.inProgress r true } with hst0
      have h0 : DetectOk rules st0 ∧ st0.inProgress = Function.update st.inProgress r true ∧
          (st0.mayBeEmpty r = true ↔ Vanishes rules r) ∧
          ∀ q, st.mayBeEmpty q = true → st0.mayBeEmpty q = true := by
        rw [hst0]
        split
        · next hv =>
          refine ⟨⟨fun q hq => ?_, h.visited⟩, rfl, ⟨fun _ => hv, fun _ => by simp⟩, fun q hq => ?_⟩
          · by_cases hqr : q = r
            · rw [hqr]; exact hv
            · exact h.empty q (by simpa [hqr] using hq)
          · by_cases hqr : q = r
            · simp [hqr]
            · simpa [hqr] using hq
        · next hv =>
          exact ⟨⟨h.empty, h.visited⟩, rfl,
            ⟨fun hq => absurd (h.empty r hq) hv, fun hq => absurd hq hv⟩, fun _ => id⟩
      obtain ⟨h0, hprog, hempty, hkeep⟩ := h0
      split at e
      · cases e
      · cases e
      · next st1 e1 =>
        cases e
        obtain ⟨h1, hp1, hk1, ha⟩ := detectLoop_cleared (fun r st st' => ih) h0 e1
        have hacc : Acc (fun b a => Follows rules a b) r := .intro _ fun b hb => ha b hb
        refine ⟨⟨h1.empty, fun q hq => ?_⟩, ?_, ⟨h1.empty r, fun hv => hk1 r (hempty.mpr hv)⟩,
          fun q hq => hk1 q (hkeep q hq), hacc⟩
        · by_cases hqr : q = r
          · rw [hqr]; exact hacc
          · exact h1.visited q (by simpa [hqr] using hq)
        · funext q
          by_cases hqr : q = r
          · simpa [hqr] using hp
          · simp [hp1, hprog, hqr]

/-- The rules in progress: they come to the rule `r`, and there is depth left for the others. -/
structure Path (rules : GrammarRules) (r depth : Nat) (st : Detect) (P : Finset Nat) : Prop where
  mem : ∀ q, st.inProgress q = true ↔ q ∈ P
  lt : ∀ q ∈ P, q < rules.length
  path : ∀ q ∈ P, Relation.TransGen (Follows rules) q r
  depth : rules.length < depth + P.card

theorem detectLoop_finds_nothing {detect : Nat → Detect → Option (Bool × Detect)}
    {inProgress : Nat → Bool}
    (hd : ∀ r st st', DetectOk rules st → detect r st = some (false, st') → Cleared rules r st st')
    {es : List GrammarElement} {recurse : Bool} {st : Detect} (h : DetectOk rules st)
    (hp : st.inProgress = inProgress)
    (hf : ∀ r ∈ leftRefs (Vanishes rules) es recurse, ∀ st, DetectOk rules st →
      st.inProgress = inProgress → ∃ st', detect r st = some (false, st')) :
    ∃ st', detectLoop detect es recurse st = some (false, st') := by
  induction es generalizing recurse st with
  | nil => exact ⟨st, rfl⟩
  | cons el es ih =>
    unfold detectLoop
    by_cases hc : el.type = .ruleRef ∧ recurse = true
    · simp only [leftRefs, if_pos hc] at hf
      obtain ⟨st1, e1⟩ := hf _ mem_cons_self st h hp
      have hc1 := hd _ _ _ h e1
      have hrec : st1.mayBeEmpty el.value = decide (Vanishes rules el.value) := by
        rw [Bool.eq_iff_iff, hc1.empty, decide_eq_true_eq]
      obtain ⟨st', e'⟩ := @ih (decide (Vanishes rules el.value)) st1 hc1.ok
        (hc1.progress.trans hp) fun r hr => hf r (mem_cons_of_mem _ hr)
      exact ⟨st', by simp only [if_pos hc, e1, hrec, e']⟩
    · simp only [leftRefs, if_neg hc] at hf
      obtain ⟨st', e'⟩ := ih h hp hf
      exact ⟨st', by simp only [if_neg hc, e']⟩

/-- Without a cycle the search finds nothing, and its depth is enough. -/
theorem detectLeftRecursion_finds_nothing (hlt : ∀ r r', Follows rules r r' → r' < rules.length)
    (hacyc : ∀ r, ¬ Relation.TransGen (Follows rules) r r) {depth r : Nat} {st : Detect}
    {P : Finset Nat} (h : DetectOk rules st) (hr : r < rules.length)
    (hp : Path rules r depth st P) :
    ∃ st', detectLeftRecursion rules depth r st = some (false, st') := by
  induction depth generalizing r st P with
  | zero =>
    have hsub : P ⊆ Finset.range rules.length := fun q hq => Finset.mem_range.mpr (hp.lt q hq)
    have := Finset.card_le_card hsub
    have := hp.depth
    simp only [Finset.card_range] at *
    omega
  | succ depth ih =>
    have hnp : st.inProgress r = false := by
      rw [← Bool.not_eq_true]
      exact fun hpr => hacyc r (hp.path r ((hp.mem r).mp hpr))
    have hrP : r ∉ P := fun hrP => by
      rw [← hp.mem, hnp] at hrP
      cases hrP
    unfold detectLeftRecursion
    rw [if_neg (by simp [hnp])]
    dsimp only
    set st0 : Detect :=
      if hasEmptyAlternate (rules.getD r []) true = true then
        { st with
          inProgress := Function.update st.inProgress r true
          mayBeEmpty := Function.update st.mayBeEmpty r true }
      else { st with inProgress := Function.update st.inProgress r true } with hst0
    have h0 : DetectOk rules st0 ∧ st0.inProgress = Function.update st.inProgress r true := by
      rw [hst0]
      split
      · next hv =>
        refine ⟨⟨fun q hq => ?_, h.visited⟩, rfl⟩
        by_cases hqr : q = r
        · rw [hqr]; exact hv
        · exact h.empty q (by simpa [hqr] using hq)
      · exact ⟨⟨h.empty, h.visited⟩, rfl⟩
    have hpath : ∀ r' ∈ leftRefs (Vanishes rules) (rules.getD r []) true, ∀ st',
        st'.inProgress = Function.update st.inProgress r true →
          Path rules r' depth st' (insert r P) := by
      intro r' hr' st' hst'
      refine ⟨fun q => ?_, fun q hq => ?_, fun q hq => ?_, ?_⟩
      · rw [hst', Finset.mem_insert, ← hp.mem]
        by_cases hqr : q = r <;> simp [hqr]
      · rcases Finset.mem_insert.mp hq with rfl | hq
        · exact hr
        · exact hp.lt q hq
      · rcases Finset.mem_insert.mp hq with rfl | hq
        · exact .single hr'
        · exact (hp.path q hq).tail hr'
      · have := hp.depth
        rw [Finset.card_insert_of_notMem hrP]
        omega
    have hloop : ∃ st', detectLoop (detectLeftRecursion rules depth) (rules.getD r []) true st0 =
        some (false, st') :=
      detectLoop_finds_nothing (fun r st st' hst e => detectLeftRecursion_cleared hst e) h0.1 h0.2
        fun r' hr' st' hst' hp' => ih hst' (hlt r r' hr') (hpath r' hr' st' hp')
    obtain ⟨st1, e1⟩ := hloop
    rw [e1]
    exact ⟨_, rfl⟩

theorem detectRules_acc {rs : List Nat} {st : Detect} (h : DetectOk rules st)
    (e : detectRules rules rs st = some false) :
    ∀ r ∈ rs, Acc (fun b a => Follows rules a b) r := by
  induction rs generalizing st with
  | nil => exact fun r hr => absurd hr not_mem_nil
  | cons a rs ih =>
    intro r hr
    unfold detectRules at e
    split at e
    · next hv =>
      rcases mem_cons.mp hr with rfl | hr
      · exact h.visited _ hv
      · exact ih h e r hr
    · split at e
      · cases e
      · cases e
      · next st1 e1 =>
        have hc := detectLeftRecursion_cleared h e1
        rcases mem_cons.mp hr with rfl | hr
        · exact hc.acc
        · exact ih hc.ok e r hr

theorem detectRules_finds_nothing (hlt : ∀ r r', Follows rules r r' → r' < rules.length)
    (hacyc : ∀ r, ¬ Relation.TransGen (Follows rules) r r) {rs : List Nat}
    (hrs : ∀ r ∈ rs, r < rules.length) {st : Detect} (h : DetectOk rules st)
    (hp : st.inProgress = fun _ => false) : detectRules rules rs st = some false := by
  induction rs generalizing st with
  | nil => rfl
  | cons a rs ih =>
    have hrs' : ∀ r ∈ rs, r < rules.length := fun r hr => hrs r (mem_cons_of_mem _ hr)
    unfold detectRules
    split
    · exact ih hrs' h hp
    · have hpath : Path rules a (rules.length + 1) st ∅ :=
        ⟨by simp [hp], by simp, by simp, by simp⟩
      obtain ⟨st1, e1⟩ := detectLeftRecursion_finds_nothing hlt hacyc h (hrs a mem_cons_self) hpath
      have hc := detectLeftRecursion_cleared h e1
      rw [e1]
      exact ih hrs' hc.ok (hc.progress.trans hp)

theorem acc_irrefl {r : Nat} (h : Acc (fun b a => Follows rules a b) r) :
    ¬ Relation.TransGen (Follows rules) r r := by
  induction h with
  | intro r _ ih =>
    intro hr
    obtain ⟨s, hs, hsr⟩ := Relation.TransGen.head'_iff.mp hr
    exact ih s hs (Relation.TransGen.tail' hsr hs)

end Search

/-! ## What the search finds -/

section

variable {rules : GrammarRules}

theorem vanishes_iff (hone : ∀ rule ∈ rules, EndsOnce rule) {q : Nat} (hq : q < rules.length) :
    Vanishes rules q ↔ [] ∈ alts rules q := by
  have hrule : rules.getD q [] ∈ rules := by simp [getD_eq_getElem?_getD, hq]
  rw [Vanishes, hasEmptyAlternate_iff (hone _ hrule), alts_eq, mem_cons]
  refine or_congr_left ⟨fun h => h.2.symm, fun h => ⟨rfl, h.symm⟩⟩

theorem follows_iff (hv : refsValid rules = true) (hone : ∀ rule ∈ rules, EndsOnce rule)
    {r r' : Nat} : Follows rules r r' ↔ SkipEdge rules r r' := by
  by_cases hr : r < rules.length
  · have hrule : rules.getD r [] ∈ rules := by simp [getD_eq_getElem?_getD, hr]
    rw [Follows, mem_leftRefs (hone _ hrule)]
    have hmem : ((true = true ∧
        r' ∈ firstRefs (Vanishes rules) (symsFrom false (rules.getD r []))) ∨
        ∃ a ∈ laterAlts (rules.getD r []), r' ∈ firstRefs (Vanishes rules) a) ↔
        ∃ a ∈ alts rules r, r' ∈ firstRefs (Vanishes rules) a := by
      rw [alts_eq]
      simp
    rw [hmem]
    constructor
    · rintro ⟨a, ha, hf⟩
      obtain ⟨pre, post, rfl, hpre⟩ := mem_firstRefs.mp hf
      refine ⟨pre, post, ha, fun s hs => ?_⟩
      obtain ⟨q, rfl, hq⟩ := hpre s hs
      have hlt : q < rules.length := lt_of_mem_alts hv ha (mem_append_left _ hs)
      exact ⟨q, rfl, (vanishes_iff hone hlt).mp hq⟩
    · rintro ⟨pre, post, ha, hpre⟩
      refine ⟨_, ha, mem_firstRefs.mpr ⟨pre, post, rfl, fun s hs => ?_⟩⟩
      obtain ⟨q, rfl, hq⟩ := hpre s hs
      have hlt : q < rules.length := lt_of_mem_alts hv ha (mem_append_left _ hs)
      exact ⟨q, rfl, (vanishes_iff hone hlt).mpr hq⟩
  · have hnil : rules.getD r [] = [] := by simp [getD_eq_getElem?_getD, hr]
    constructor
    · intro h
      rw [Follows, hnil] at h
      cases h
    · rintro ⟨pre, post, ha, -⟩
      rw [alts_eq, hnil] at ha
      simp [symsFrom, laterAlts, scanAlternates] at ha

/-- The search finds nothing if and only if no rule comes back to itself over rules with an empty
alternative. -/
theorem detectAll_eq_false_iff (hv : refsValid rules = true)
    (hone : ∀ rule ∈ rules, EndsOnce rule) :
    detectAll rules = some false ↔ ¬ ∃ r, Relation.TransGen (SkipEdge rules) r r := by
  have hrel : Follows rules = SkipEdge rules := by
    funext r r'
    exact propext (follows_iff hv hone)
  have hlt : ∀ r r', Follows rules r r' → r' < rules.length := by
    intro r r' h
    obtain ⟨pre, post, ha, -⟩ := (follows_iff hv hone).mp h
    exact lt_of_mem_alts hv ha (by simp)
  have h0 : DetectOk rules {} := ⟨by simp, by simp⟩
  rw [← hrel]
  constructor
  · rintro h ⟨r, hr⟩
    have hrlt : r < rules.length := by
      obtain ⟨s, -, hs⟩ := Relation.TransGen.tail'_iff.mp hr
      exact hlt s r hs
    exact acc_irrefl (detectRules_acc h0 h r (mem_range.mpr hrlt)) hr
  · intro h
    exact detectRules_finds_nothing hlt (fun r hr => h ⟨r, hr⟩)
      (fun r hr => mem_range.mp hr) h0 rfl

theorem SkipEdge.leftEdge {r r' : Nat} (h : SkipEdge rules r r') : LeftEdge (alts rules) r r' := by
  obtain ⟨pre, post, ha, hpre⟩ := h
  refine ⟨pre, post, ha, ?_⟩
  clear ha
  induction pre with
  | nil => exact .nil
  | cons s pre ih =>
    obtain ⟨q, rfl, hq⟩ := hpre s mem_cons_self
    exact .rule hq .nil (ih fun s hs => hpre s (mem_cons_of_mem _ hs))

end

/-- The search is complete, and `llama_grammar_advance_stack` ends on every stack of a grammar that
it accepts, exactly if a left recursion of the grammar can be seen over rules with an empty
alternative alone. -/
theorem detect_complete_iff (rawRules : List (List GrammarElement))
    (hv : refsValid (rawRules.map copyRule) = true) :
    (detectAll (rawRules.map copyRule) = some false →
      ¬ LeftRecursive (alts (rawRules.map copyRule)) ∧
        ∀ stack newStacks, ∃ fuel,
          advanceStack (rawRules.map copyRule) fuel stack newStacks ≠ .error .fuel) ↔
    (LeftRecursive (alts (rawRules.map copyRule)) →
      ∃ r, Relation.TransGen (SkipEdge (rawRules.map copyRule)) r r) := by
  have hone : ∀ rule ∈ rawRules.map copyRule, EndsOnce rule := by
    intro rule hrule
    obtain ⟨raw, -, rfl⟩ := mem_map.mp hrule
    exact endsOnce_copyRule raw
  have hd := detectAll_eq_false_iff hv hone
  constructor
  · intro h hl
    by_contra hn
    exact (h (hd.mpr hn)).1 hl
  · intro h hfalse
    have hnl : ¬ LeftRecursive (alts (rawRules.map copyRule)) := fun hl => hd.mp hfalse (h hl)
    exact ⟨hnl, fun stack newStacks => advanceStack_ends hv hnl stack newStacks⟩

/-- `root ::= "a" root |`. -/
def listOfA : List (List GrammarElement) :=
  [[⟨.char, 97⟩, ⟨.ruleRef, 0⟩, ⟨.alt, 0⟩, ⟨.end_, 0⟩]]

theorem listOfA_not_leftRecursive : ¬ LeftRecursive (alts (listOfA.map copyRule)) := by
  have hedge : ∀ r r', ¬ LeftEdge (alts (listOfA.map copyRule)) r r' := by
    rintro r r' ⟨pre, post, ha, hpre⟩
    cases r with
    | zero =>
      have e : alts (listOfA.map copyRule) 0 = [[.term [⟨.char, 97⟩], .rule 0], []] := by decide
      rw [e] at ha
      cases hpre with
      | nil => simp at ha
      | rule => simp at ha
    | succ r =>
      have e : alts (listOfA.map copyRule) (r + 1) = [[]] := rfl
      rw [e] at ha
      simp at ha
  rintro ⟨r, hr⟩
  obtain ⟨s, hs, -⟩ := Relation.TransGen.head'_iff.mp hr
  exact hedge r s hs

/-- The search accepts a rule that recurs after a character, and this rule has no left recursion. -/
theorem detect_complete_listOfA : detectAll (listOfA.map copyRule) = some false ∧
      ∀ stack newStacks, ∃ fuel,
        advanceStack (listOfA.map copyRule) fuel stack newStacks ≠ .error .fuel := by
  have hd : detectAll (listOfA.map copyRule) = some false := by decide
  exact ⟨hd, ((detect_complete_iff listOfA (by decide)).mpr
    (fun hl => absurd hl listOfA_not_leftRecursive) hd).2⟩

/-- `root ::= b root "x" | "y"`, `b ::= c`, `c ::=`. -/
def hiddenLeftRecursion : List (List GrammarElement) :=
  [[⟨.ruleRef, 1⟩, ⟨.ruleRef, 0⟩, ⟨.char, 120⟩, ⟨.alt, 0⟩, ⟨.char, 121⟩, ⟨.end_, 0⟩],
    [⟨.ruleRef, 2⟩, ⟨.end_, 0⟩], [⟨.end_, 0⟩]]

/-- The search misses a left recursion over a rule that vanishes only through another rule. -/
theorem detect_not_complete :
    ¬ ∀ rawRules : List (List GrammarElement), refsValid (rawRules.map copyRule) = true →
      detectAll (rawRules.map copyRule) = some false →
        ¬ LeftRecursive (alts (rawRules.map copyRule)) := by
  intro h
  refine h hiddenLeftRecursion (by decide) (by decide) ⟨0, .single ?_⟩
  refine ⟨[.rule 1], [.term [⟨.char, 120⟩]], by decide, ?_⟩
  have hc : Nullable (alts (hiddenLeftRecursion.map copyRule)) [.rule 2] :=
    .rule (show [] ∈ alts (hiddenLeftRecursion.map copyRule) 2 by decide) .nil .nil
  exact .rule (show [.rule 2] ∈ alts (hiddenLeftRecursion.map copyRule) 1 by decide) hc .nil

end Grammar
end BeeLlama
