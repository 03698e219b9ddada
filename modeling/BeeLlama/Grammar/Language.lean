import BeeLlama.Grammar.Chars

/-!
# The language of a grammar

`Words rules stack v` says that the stack derives the word `v`. Each step of the grammar keeps the
words: the results of `llama_grammar_advance_stack` have together the words of the stack
(`advanceStack_words`), and after `llama_grammar_accept` the stacks have the words of the stacks
before without the first character (`accept_words`).

* `acceptWord_recognizes`: for rules of character ranges without left recursion in which every rule
  derives a word and every range stands for a character, the stacks after a word contain the empty
  one exactly if the word is in the language, and there are stacks exactly if the word is a prefix
  of one in the language.
* `not_recognizes_prefixes`: productive rules are not enough.
-/

namespace BeeLlama.Grammar

open Cfg Worklist List

/-- The stack derives the word. -/
abbrev Words (rules : GrammarRules) (stack : GrammarStack) (v : List Nat) : Prop :=
  Derives (alts rules) accepts (stackSyms rules stack) v

/-- A call that has the result `a` if its fuel is enough. -/
def Settles {α : Type} (f : Nat → Except GrammarError α) (a : α) : Prop :=
  ∃ n, ∀ m, n ≤ m → f m = .ok a

theorem Settles.const {α : Type} (a : α) : Settles (fun _ => .ok a) a := ⟨0, fun _ _ => rfl⟩

theorem Settles.unique {α : Type} {f : Nat → Except GrammarError α} {a b : α} (ha : Settles f a)
    (hb : Settles f b) : a = b := by
  obtain ⟨n, ha⟩ := ha
  obtain ⟨m, hb⟩ := hb
  exact Except.ok.inj ((ha (max n m) (le_max_left _ _)).symm.trans (hb _ (le_max_right _ _)))

theorem Settles.both {α β : Type} {f : Nat → Except GrammarError α}
    {g : Nat → Except GrammarError β} {a : α} {b : β} (ha : Settles f a) (hb : Settles g b) :
    ∃ n, ∀ m, n ≤ m → f m = .ok a ∧ g m = .ok b := by
  obtain ⟨n1, h1⟩ := ha
  obtain ⟨n2, h2⟩ := hb
  exact ⟨max n1 n2, fun m hm => ⟨h1 m (le_of_max_le_left hm), h2 m (le_of_max_le_right hm)⟩⟩

theorem Settles.bind {α β : Type} {f : Nat → Except GrammarError α}
    {g : Nat → α → Except GrammarError β} {a : α} {b : β} (ha : Settles f a)
    (hb : Settles (fun m => g m a) b) : Settles (fun m => f m >>= g m) b := by
  obtain ⟨n, h⟩ := ha.both hb
  refine ⟨n, fun m hm => ?_⟩
  change (f m >>= g m) = .ok b
  rw [(h m hm).1]
  exact (h m hm).2

/-- What follows a call that settles. -/
theorem Settles.of_bind {α β : Type} {f : Nat → Except GrammarError α}
    {g : Nat → α → Except GrammarError β} {a : α} {b : β}
    (h : Settles (fun m => f m >>= g m) b) (ha : Settles f a) : Settles (fun m => g m a) b := by
  obtain ⟨n, h⟩ := h.both ha
  refine ⟨n, fun m hm => ?_⟩
  have : (f m >>= g m) = .ok b := (h m hm).1
  rwa [(h m hm).2] at this

/-- The pointers of the stack are at the beginning of items. -/
def StackOk (rules : GrammarRules) (stack : GrammarStack) : Prop :=
  ∀ p ∈ stack, ItemSeq (suffix rules p) ∧ isEndOfSequence (elem rules p) = false

/-- The stacks are results of `llama_grammar_advance_stack`. -/
def Live (rules : GrammarRules) (curStacks : GrammarStacks) : Prop :=
  ∀ stack ∈ curStacks, StackOk rules stack ∧ expandStack rules stack = .ok none

section Stack

variable {rules : GrammarRules}

theorem StackOk.nil : StackOk rules [] := fun _ hp => absurd hp not_mem_nil

variable {p : ElementPtr} {stack : GrammarStack}

theorem StackOk.tail (h : StackOk rules (p :: stack)) : StackOk rules stack :=
  fun q hq => h q (mem_cons_of_mem _ hq)

theorem StackOk.pushUnlessEnd (h : StackOk rules stack)
    (hp : ItemSeq (suffix rules p)) : StackOk rules (pushUnlessEnd rules p stack) := by
  unfold Grammar.pushUnlessEnd
  split
  · exact h
  · next he =>
    intro q hq
    rcases mem_cons.mp hq with rfl | hq
    · exact ⟨hp, by simpa using he⟩
    · exact h q hq

theorem itemSeq_scanAlternates {prev : GreType} {es : List GrammarElement}
    (h : itemElems prev es = true) {i : Nat} (hi : i ∈ scanAlternates es 0) :
    ItemSeq (es.drop i) := by
  induction es generalizing prev i with
  | nil => cases hi
  | cons e es ih =>
    obtain ⟨-, h'⟩ := itemElems_cons h
    have hshift : i ∈ scanAlternates es 1 → ItemSeq ((e :: es).drop i) := by
      intro hi
      rw [scanAlternates_add es 0 1] at hi
      obtain ⟨j, hj, rfl⟩ := mem_map.mp hi
      exact ih h' hj
    unfold scanAlternates at hi
    split at hi
    · cases hi
    · next ht =>
      rcases mem_cons.mp hi with rfl | hi
      · rw [ht] at h'
        exact h'
      · exact hshift hi
    · exact hshift hi

/-- The alternatives of a rule begin with items. -/
theorem itemSeq_altStarts (hr : ∀ rule ∈ rules, ItemRule rule) {r i : Nat}
    (hi : i ∈ altStarts (rules.getD r [])) : ItemSeq (suffix rules ⟨r, i⟩) := by
  have hrule : ItemRule (rules.getD r []) := by
    by_cases hlt : r < rules.length
    · exact hr _ (by simp [getD_eq_getElem?_getD, hlt])
    · have : rules.getD r [] = [] := by simp [getD_eq_getElem?_getD, hlt]
      rw [this]
      rfl
  rcases mem_cons.mp hi with rfl | hi
  · exact hrule
  · exact itemSeq_scanAlternates hrule hi

/-- An item is a rule reference, a range or a token. -/
theorem StackOk.top (h : StackOk rules (p :: stack)) :
    (elem rules p).type = .ruleRef ∨ IsRange (elem rules p) ∨ IsToken (elem rules p) := by
  obtain ⟨hi, he⟩ := h p mem_cons_self
  obtain ⟨h1, h2⟩ := isEndOfSequence_eq_false he
  obtain ⟨es, e, -⟩ := suffix_eq_cons h1
  rw [e] at hi
  have := (itemElems_cons hi).1
  cases ht : (elem rules p).type <;> simp_all [IsRange, IsToken, mayFollow]

theorem expandStack_of_range
    (h : IsRange (elem rules p)) : expandStack rules (p :: stack) = .ok none := by
  rcases h with ht | ht | ht <;> simp only [expandStack, ht]

theorem expandStack_of_token
    (h : IsToken (elem rules p)) : expandStack rules (p :: stack) = .ok none := by
  rcases h with ht | ht <;> simp only [expandStack, ht]

/-- A range or a token on top is a terminal, and a token stands for no character. -/
theorem StackOk.term {p : ElementPtr} {stack : GrammarStack} (h : StackOk rules (p :: stack))
    (ht : (elem rules p).type ≠ .ruleRef) :
    expandStack rules (p :: stack) = .ok none ∧ ∃ t ss, stackSyms rules (p :: stack) =
      .term t :: ss ∧ (IsToken (elem rules p) → ∀ c, ¬ accepts t c) := by
  rcases h.top with hr | hr | hr
  · exact absurd hr ht
  · obtain ⟨found, after, -, e, -⟩ :=
      ItemSeq.matchChar (h p mem_cons_self).1 hr 0
    refine ⟨expandStack_of_range hr, rangeAt rules p,
      symsFrom false (suffix rules after) ++ stackSyms rules stack, ?_, fun htok => ?_⟩
    · rw [stackSyms_cons, e, cons_append]
    · rcases hr with h1 | h1 | h1 <;> simp [IsToken, h1] at htok
  · have hne : (elem rules p).type ≠ .end_ := by
      rcases hr with h1 | h1 <;> simp [h1]
    obtain ⟨es, e1, -⟩ := suffix_eq_cons hne
    refine ⟨expandStack_of_token hr, [elem rules p], symsFrom false es ++ stackSyms rules stack, ?_,
      fun _ c hc => ?_⟩
    · rw [stackSyms_cons, e1]
      rcases hr with h1 | h1 <;> simp [symsFrom, h1]
    · rcases hr with h1 | h1 <;> simp [accepts, standsFor, h1] at hc

theorem StackOk.expand (h : StackOk rules stack) :
    ∃ r, expandStack rules stack = .ok r ∧ r ≠ some [] := by
  cases stack with
  | nil => exact ⟨none, rfl, by simp⟩
  | cons p stack =>
    by_cases ht : (elem rules p).type = .ruleRef
    · exact ⟨_, expandStack_ruleRef ht, by simp [altStarts]⟩
    · exact ⟨none, (h.term ht).1, by simp⟩

/-- A result of `llama_grammar_advance_stack` is empty or has a range or a token on top. -/
theorem StackOk.of_leaf (h : StackOk rules stack) (e : expandStack rules stack = .ok none) :
    stack = [] ∨ ∃ p rest, stack = p :: rest ∧ (elem rules p).type ≠ .ruleRef ∧
      (IsRange (elem rules p) ∨ IsToken (elem rules p)) := by
  cases stack with
  | nil => exact .inl rfl
  | cons p stack =>
    have ht : (elem rules p).type ≠ .ruleRef := fun ht => by
      rw [expandStack_ruleRef ht] at e
      cases e
    exact .inr ⟨p, stack, rfl, ht, h.top.resolve_left ht⟩

theorem StackOk.next (hr : ∀ rule ∈ rules, ItemRule rule) {a b : GrammarStack}
    (h : StackOk rules a) (hn : Next (expandStack rules) a b) : StackOk rules b := by
  obtain ⟨l, e, hb⟩ := hn
  obtain ⟨pos, rest, rfl, ht, rfl⟩ := expandStack_some e
  obtain ⟨i, hi, rfl⟩ := mem_map.mp hb
  refine (h.tail.pushUnlessEnd ?_).pushUnlessEnd (itemSeq_altStarts hr hi)
  obtain ⟨es, e1, e2⟩ := suffix_eq_cons (isEndOfSequence_eq_false (h pos mem_cons_self).2).1
  have hs := (h pos mem_cons_self).1
  rw [e1] at hs
  obtain ⟨-, hs'⟩ := itemElems_cons hs
  rw [e2]
  rw [ht] at hs'
  cases es with
  | nil => rfl
  | cons x es =>
    obtain ⟨hx, hx'⟩ := itemElems_cons hs'
    rw [ItemSeq, itemElems, hx', Bool.and_true]
    cases htx : x.type <;> simp_all [mayFollow]

theorem StackOk.reaches (hr : ∀ rule ∈ rules, ItemRule rule) {a b : GrammarStack}
    (h : StackOk rules a) (hn : Reaches (expandStack rules) a b) : StackOk rules b := by
  induction hn with
  | refl => exact h
  | tail _ hn ih => exact ih.next hr hn

/-- The words of a stack are those of the results that it is expanded to. -/
theorem words_iff_leaf (h : StackOk rules stack)
    (hr : ∀ rule ∈ rules, ItemRule rule) {v : List Nat} :
    Words rules stack v ↔ ∃ st, Reaches (expandStack rules) stack st ∧
      expandStack rules st = .ok none ∧ Words rules st v := by
  constructor
  · intro hw
    -- the stack is expanded along the leftmost derivation
    have hlm := hw.leftmost
    clear hw
    generalize ess : stackSyms rules stack = ss at hlm
    induction hlm generalizing stack with
    | nil =>
      cases stack with
      | nil => exact ⟨[], .refl, rfl, .nil⟩
      | cons p stack =>
        by_cases ht : (elem rules p).type = .ruleRef
        · rw [stackSyms_ruleRef ht] at ess
          cases ess
        · obtain ⟨-, t, ss, e, -⟩ := h.term ht
          rw [e] at ess
          cases ess
    | term hc hd _ =>
      cases stack with
      | nil => cases ess
      | cons p stack =>
        by_cases ht : (elem rules p).type = .ruleRef
        · rw [stackSyms_ruleRef ht] at ess
          cases ess
        · refine ⟨p :: stack, .refl, (h.term ht).1, ?_⟩
          rw [Words, ess]
          exact .term hc hd.derives
    | rule hrhs _ ih =>
      cases stack with
      | nil => cases ess
      | cons p stack =>
        by_cases ht : (elem rules p).type = .ruleRef
        · rw [stackSyms_ruleRef ht] at ess
          obtain ⟨e1, e2⟩ := List.cons.inj ess
          cases e1
          obtain ⟨b, hb, eb⟩ := @exists_next rules p stack ht _ hrhs
          obtain ⟨st, hst, hl, hw⟩ := ih (h.next hr hb) (by rw [eb, e2])
          exact ⟨st, .head hb hst, hl, hw⟩
        · obtain ⟨-, t, ss, e, -⟩ := h.term ht
          rw [e] at ess
          cases ess
  · rintro ⟨st, hst, -, hw⟩
    induction hst using Relation.ReflTransGen.head_induction_on with
    | refl => exact hw
    | head hn _ ih =>
      obtain ⟨r, rhs, ss, e1, hrhs, e2⟩ := next_expands hn
      rw [Words, e1, derives_rule_iff]
      have hw' := ih (h.next hr hn)
      rw [Words, e2] at hw'
      exact ⟨rhs, hrhs, hw'⟩

end Stack

/-! ## The steps keep the words -/

section Steps

variable {rules : GrammarRules} (hv : refsValid rules = true)
  (hr : ∀ rule ∈ rules, ItemRule rule) (hl : ¬ LeftRecursive (alts rules))

include hv hr hl

variable {stack : GrammarStack} {c : Nat} {newStacks : GrammarStacks}

/-- `llama_grammar_advance_stack` adds the results that the stack is expanded to, at least one. -/
theorem advanceStack_settles (h : StackOk rules stack) (hn : Live rules newStacks) :
    ∃ out, Settles (fun fuel => advanceStack rules fuel stack newStacks) out ∧ Live rules out ∧
      out ≠ [] ∧ ∀ st, st ∈ out ↔ st ∈ newStacks ∨
        expandStack rules st = .ok none ∧ Reaches (expandStack rules) stack st := by
  have ha : ∀ t ∈ [stack], Acc (fun b a => Next (expandStack rules) a b) t :=
    fun t _ => acc_next (ends_of_not_leftRecursive hv hl _)
  have hok : ∀ x, Reaches (expandStack rules) stack x →
      ∃ r, expandStack rules x = .ok r ∧ r ≠ some [] := fun x hx => (h.reaches hr hx).expand
  have hok' : ∀ t ∈ [stack], ∀ x, Reaches (expandStack rules) t x →
      ∃ r, expandStack rules x = .ok r := by
    intro t ht x hx
    obtain rfl := mem_singleton.mp ht
    obtain ⟨r, er, -⟩ := hok x hx
    exact ⟨r, er⟩
  obtain ⟨n, out, e⟩ := @search_total _ _ _ (expandStack rules) .fuel _ ha hok' [] newStacks
  have hout := search_ok e
  simp only [mem_singleton, exists_eq_left] at hout
  refine ⟨out, ⟨n, fun m hm => ?_⟩, fun st hst => ?_, ?_, hout⟩
  · obtain ⟨k, rfl⟩ := Nat.exists_eq_add_of_le hm
    exact search_add e (by simp) k
  · rcases (hout st).mp hst with hst | ⟨hleaf, hst⟩
    · exact hn st hst
    · exact ⟨h.reaches hr hst, hleaf⟩
  · rintro rfl
    obtain ⟨x, hx, hleaf⟩ := exists_leaf (ha stack mem_cons_self) hok
    exact absurd ((hout x).mpr (.inr ⟨hleaf, hx⟩)) not_mem_nil

/-- The results of `llama_grammar_advance_stack` have the words of the stack. -/
theorem advanceStack_words (h : StackOk rules stack) (hn : Live rules newStacks) :
    ∃ out, Settles (fun fuel => advanceStack rules fuel stack newStacks) out ∧ Live rules out ∧
      ∀ v, (∃ st ∈ out, Words rules st v) ↔
        (∃ st ∈ newStacks, Words rules st v) ∨ Words rules stack v := by
  obtain ⟨out, hset, hlive, -, hout⟩ := advanceStack_settles hv hr hl h hn
  refine ⟨out, hset, hlive, fun v => ?_⟩
  rw [words_iff_leaf h hr]
  constructor
  · rintro ⟨st, hst, hw⟩
    rcases (hout st).mp hst with hst | ⟨hleaf, hst⟩
    · exact .inl ⟨st, hst, hw⟩
    · exact .inr ⟨st, hst, hleaf, hw⟩
  · rintro (⟨st, hst, hw⟩ | ⟨st, hst, hleaf, hw⟩)
    · exact ⟨st, (hout st).mpr (.inl hst), hw⟩
    · exact ⟨st, (hout st).mpr (.inr ⟨hleaf, hst⟩), hw⟩

/-- `llama_grammar_accept_chr` adds the words of the stack that begin with the character. -/
theorem acceptChr_words (h : StackOk rules stack) (hleaf : expandStack rules stack = .ok none)
    (hc : IsCodePoint c) (hn : Live rules newStacks) :
    ∃ out, Settles (fun fuel => acceptChr rules fuel stack c newStacks) out ∧ Live rules out ∧
      ∀ v, (∃ st ∈ out, Words rules st v) ↔
        (∃ st ∈ newStacks, Words rules st v) ∨ Words rules stack (c :: v) := by
  rcases h.of_leaf hleaf with rfl | ⟨p, rest, rfl, ht, hrg | htok⟩
  · refine ⟨newStacks, .const _, hn, fun v => ?_⟩
    rw [Words, stackSyms_nil, derives_nil_iff]
    simp
  rotate_left
  · -- a token stands for no character
    refine ⟨newStacks, ⟨0, fun m _ => ?_⟩, hn, fun v => ?_⟩
    · dsimp only [acceptChr]
      exact if_pos htok
    · obtain ⟨-, t, ss, e, hna⟩ := h.term ht
      have : ¬ Words rules (p :: rest) (c :: v) := by
        rw [Words, e, derives_term_iff]
        rintro ⟨c', v', -, hc', -⟩
        exact hna htok c' hc'
      simp [this]
  · obtain ⟨found, after, e, esyms, hseq, hf⟩ :=
      ItemSeq.matchChar (h p mem_cons_self).1 hrg c
    have htok : ¬ ((elem rules p).type = .token ∨ (elem rules p).type = .tokenNot) := by
      rcases hrg with ht | ht | ht <;> simp [ht]
    have hw : ∀ v, Words rules (p :: rest) (c :: v) ↔
        accepts (rangeAt rules p) c ∧ Words rules (pushUnlessEnd rules after rest) v := by
      intro v
      rw [Words, Words, stackSyms_cons, esyms, cons_append, derives_term_iff,
        stackSyms_pushUnlessEnd]
      constructor
      · rintro ⟨c', v', ev, hc', hd⟩
        cases ev
        exact ⟨hc', hd⟩
      · rintro ⟨hc', hd⟩
        exact ⟨c, v, rfl, hc', hd⟩
    cases found with
    | false =>
      have hna : ¬ accepts (rangeAt rules p) c := fun ha => by simpa using hf.mpr ha.2
      refine ⟨newStacks, ⟨0, fun m _ => ?_⟩, hn, fun v => ?_⟩
      · simp [acceptChr, htok, e]
      · rw [hw]
        simp [hna]
    | true =>
      have hacc : accepts (rangeAt rules p) c := ⟨hc, hf.mp rfl⟩
      obtain ⟨out, ⟨n, hset⟩, hlive, hwords⟩ :=
        advanceStack_words hv hr hl (h.tail.pushUnlessEnd hseq) hn
      refine ⟨out, ⟨n, fun m hm => ?_⟩, hlive, fun v => ?_⟩
      · simpa [acceptChr, htok, e] using hset m hm
      · rw [hwords, hw]
        simp [hacc]

variable {curStacks : GrammarStacks}

theorem acceptStacks_words (h : Live rules curStacks)
    (hc : IsCodePoint c) (hn : Live rules newStacks) :
    ∃ out, Settles (fun fuel => acceptStacks rules fuel c curStacks newStacks) out ∧
      Live rules out ∧ ∀ v, (∃ st ∈ out, Words rules st v) ↔
        (∃ st ∈ newStacks, Words rules st v) ∨ ∃ st ∈ curStacks, Words rules st (c :: v) := by
  induction curStacks generalizing newStacks with
  | nil => exact ⟨newStacks, .const _, hn, fun v => by simp⟩
  | cons stack curStacks ih =>
    obtain ⟨hok, hleaf⟩ := h stack mem_cons_self
    obtain ⟨out1, e1, h1, hw1⟩ := acceptChr_words hv hr hl hok hleaf hc hn
    obtain ⟨out2, e2, h2, hw2⟩ := ih (fun st hst => h st (mem_cons_of_mem _ hst)) h1
    obtain ⟨n, hm⟩ := e1.both e2
    refine ⟨out2, ⟨n, fun m hn => ?_⟩, h2, fun v => ?_⟩
    · simp only [acceptStacks, hm m hn]
    · rw [hw2, hw1, or_assoc]
      simp

/-- `llama_grammar_accept` leaves the words that begin with the character, without it. -/
theorem accept_words (h : Live rules curStacks) (hc : IsCodePoint c) :
    ∃ out, Settles (fun fuel => accept rules fuel curStacks c) out ∧ Live rules out ∧
      ∀ v, (∃ st ∈ out, Words rules st v) ↔ ∃ st ∈ curStacks, Words rules st (c :: v) := by
  obtain ⟨out, hset, hlive, hw⟩ := acceptStacks_words hv hr hl h hc
    (fun st hst => absurd hst not_mem_nil)
  exact ⟨out, hset, hlive, fun v => by rw [hw]; simp⟩

/-- After a word there are the words that continue it. -/
theorem acceptWord_words {w : List Nat} (hw : ∀ c ∈ w, IsCodePoint c) (h : Live rules curStacks) :
    ∃ out, Settles (fun fuel => acceptWord rules fuel w curStacks) out ∧ Live rules out ∧
      ∀ v, (∃ st ∈ out, Words rules st v) ↔ ∃ st ∈ curStacks, Words rules st (w ++ v) := by
  induction w generalizing curStacks with
  | nil => exact ⟨curStacks, .const _, h, fun v => Iff.rfl⟩
  | cons c w ih =>
    obtain ⟨out1, e1, h1, hw1⟩ := accept_words hv hr hl h (hw c mem_cons_self)
    obtain ⟨out2, e2, h2, hw2⟩ := ih (fun d hd => hw d (mem_cons_of_mem _ hd)) h1
    obtain ⟨n, hm⟩ := e1.both e2
    refine ⟨out2, ⟨n, fun m hn => ?_⟩, h2, fun v => ?_⟩
    · simp only [acceptWord, hm m hn]
    · rw [hw2, hw1, cons_append]

/-- The initial stacks have the words of the alternatives. -/
theorem initStacks_words {start : Nat} {starts : List Nat}
    (hs : ∀ i ∈ starts, ItemSeq (suffix rules ⟨start, i⟩)) (hn : Live rules newStacks) :
    ∃ out, Settles (fun fuel => initStacks rules fuel start starts newStacks) out ∧
      Live rules out ∧ ∀ v, (∃ st ∈ out, Words rules st v) ↔
        (∃ st ∈ newStacks, Words rules st v) ∨ ∃ i ∈ starts,
          Derives (alts rules) accepts (symsFrom false (suffix rules ⟨start, i⟩)) v := by
  induction starts generalizing newStacks with
  | nil => exact ⟨newStacks, .const _, hn, fun v => by simp⟩
  | cons i starts ih =>
    obtain ⟨out1, e1, h1, hw1⟩ := advanceStack_words hv hr hl
      (StackOk.nil.pushUnlessEnd (hs i mem_cons_self)) hn
    obtain ⟨out2, e2, h2, hw2⟩ := ih (fun j hj => hs j (mem_cons_of_mem _ hj)) h1
    obtain ⟨n, hm⟩ := e1.both e2
    refine ⟨out2, ⟨n, fun m hn => ?_⟩, h2, fun v => ?_⟩
    · simp only [initStacks, hm m hn]
    · rw [hw2, hw1, or_assoc, Words, stackSyms_pushUnlessEnd, stackSyms_nil, append_nil]
      simp

end Steps

/-! ## Words and prefixes -/

section Recognize

variable {rules : GrammarRules}

variable {stack : GrammarStack} {p : ElementPtr}

/-- A result of `llama_grammar_advance_stack` that derives the empty word is the empty stack. -/
theorem words_nil_iff (h : StackOk rules stack)
    (hleaf : expandStack rules stack = .ok none) : Words rules stack [] ↔ stack = [] := by
  constructor
  · intro hw
    rcases h.of_leaf hleaf with rfl | ⟨p, rest, rfl, ht, -⟩
    · rfl
    · obtain ⟨-, t, ss, e, -⟩ := h.term ht
      rw [Words, e, derives_term_iff] at hw
      obtain ⟨c, v, ev, -⟩ := hw
      cases ev
  · rintro rfl
    exact .nil

theorem elem_mem (h : (elem rules p).type ≠ .end_) : ∃ rule ∈ rules, elem rules p ∈ rule := by
  obtain ⟨es, e, -⟩ := suffix_eq_cons h
  have hmem : elem rules p ∈ rules.getD p.rule [] := by
    have : elem rules p ∈ suffix rules p := by
      rw [e]
      exact mem_cons_self
    exact mem_of_mem_drop this
  by_cases hlt : p.rule < rules.length
  · exact ⟨_, by simp [getD_eq_getElem?_getD, hlt], hmem⟩
  · simp [getD_eq_getElem?_getD, hlt] at hmem

/-- The terminals of an item sequence without tokens are its ranges. -/
theorem term_mem_symsFrom (hr : ∀ rule ∈ rules, CharRule rule) (h : ItemSeq (suffix rules p))
    {t : List GrammarElement} (ht : .term t ∈ symsFrom false (suffix rules p)) :
    ∃ q, IsRange (elem rules q) ∧ t = rangeAt rules q := by
  generalize en : (suffix rules p).length = n
  induction n using Nat.strong_induction_on generalizing p with
  | _ n ih =>
    by_cases he : isEndOfSequence (elem rules p) = true
    · rw [symsFrom_suffix_of_end he] at ht
      cases ht
    · have hok : StackOk rules [p] := fun q hq => by
        obtain rfl := mem_singleton.mp hq
        exact ⟨h, by simpa using he⟩
      obtain ⟨es, e1, e2⟩ := suffix_eq_cons (isEndOfSequence_eq_false (hok p mem_cons_self).2).1
      rcases hok.top with hty | hrg | htok
      · rw [e1] at ht h
        have hseq : ItemSeq (suffix rules (p.add 1)) := by
          rw [e2]
          obtain ⟨-, h'⟩ := itemElems_cons h
          rw [hty] at h'
          cases es with
          | nil => rfl
          | cons x es =>
            obtain ⟨hx, hx'⟩ := itemElems_cons h'
            rw [ItemSeq, itemElems, hx', Bool.and_true]
            cases htx : x.type <;> simp_all [mayFollow]
        simp only [symsFrom, hty] at ht
        have ht' := (mem_cons.mp ht).resolve_left (by simp)
        rw [← e2] at ht'
        exact ih es.length (by rw [← en, e1]; simp) hseq ht' (by rw [e2])
      · obtain ⟨found, after, em, es', hseq, -⟩ := ItemSeq.matchChar h hrg 0
        rw [es'] at ht
        rcases mem_cons.mp ht with ht | ht
        · exact ⟨p, hrg, by simpa using ht⟩
        · refine ih _ ?_ hseq ht rfl
          have hlen : ∃ k, 0 < k ∧ after = p.add k := by
            dsimp only [matchChar] at em
            split at em
            · cases em
              refine ⟨_, ?_, rfl⟩
              rw [e1]
              cases es with
              | nil => simp [matchCharLoop]
              | cons u es =>
                by_cases hu : u.type = .charRngUpper
                · rw [matchCharLoop_interval hu]; omega
                · rw [matchCharLoop_single hu]; omega
            · cases em
          obtain ⟨k, hk, rfl⟩ := hlen
          rw [suffix_add, length_drop, ← en, e1, length_cons]
          omega
      · obtain ⟨rule, hrule, hmem⟩ := elem_mem (isEndOfSequence_eq_false
          (hok p mem_cons_self).2).1
        exact absurd htok ((hr rule hrule).no_token _ hmem)

theorem rule_mem_symsFrom (hv : refsValid rules = true) {r : Nat}
    (h : .rule r ∈ symsFrom false (suffix rules p)) : r < rules.length := by
  obtain ⟨e, he, ht, rfl⟩ := symsFrom_ruleRef_mem h
  have he' := mem_of_mem_drop he
  have hrule : rules.getD p.rule [] ∈ rules := by
    by_cases hlt : p.rule < rules.length
    · simp [getD_eq_getElem?_getD, hlt]
    · simp [getD_eq_getElem?_getD, hlt] at he'
  have := all_eq_true.mp (all_eq_true.mp hv _ hrule) e he'
  simpa [ht] using this

/-- Every rule derives a word, and every range stands for a character. -/
structure AllProductive (rules : GrammarRules) : Prop where
  rule : ∀ r < rules.length, ∃ w, Derives (alts rules) accepts [.rule r] w
  range : ∀ p, IsRange (elem rules p) → ∃ c, accepts (rangeAt rules p) c

theorem AllProductive.exists_word (hp : AllProductive rules) (hv : refsValid rules = true)
    (hr : ∀ rule ∈ rules, CharRule rule) (h : StackOk rules stack) : ∃ v, Words rules stack v := by
  have hprod : Productive (alts rules) accepts (stackSyms rules stack) := by
    constructor
    · intro r hr
      obtain ⟨p, -, hr⟩ := mem_flatMap.mp hr
      exact hp.rule r (rule_mem_symsFrom hv hr)
    · intro t ht
      obtain ⟨p, hp', ht⟩ := mem_flatMap.mp ht
      obtain ⟨q, hq, rfl⟩ := term_mem_symsFrom hr (h p hp').1 ht
      exact hp.range q hq
  exact hprod.exists_word

end Recognize

/-- The language of a rule. -/
def InLanguage (rules : GrammarRules) (start : Nat) (w : List Nat) : Prop :=
  Derives (alts rules) accepts [.rule start] w

/-- The initial stacks and the stacks after a word: for rules without left recursion they are
computed, they contain the empty stack exactly if the word is in the language, and a stack exactly
if it is a prefix of a word in the language. -/
theorem acceptWord_recognizes (rawRules : List (List GrammarElement)) (start : Nat)
    (hv : refsValid (rawRules.map copyRule) = true)
    (hr : ∀ rule ∈ rawRules.map copyRule, CharRule rule)
    (hl : ¬ LeftRecursive (alts (rawRules.map copyRule)))
    (hp : AllProductive (rawRules.map copyRule)) (w : List Nat)
    (hw : ∀ c ∈ w, IsCodePoint c) :
    ∃ init out,
      Settles (fun fuel => initImpl fuel rawRules start) (some (rawRules.map copyRule, init)) ∧
      Settles (fun fuel => acceptWord (rawRules.map copyRule) fuel w init) out ∧
      ([] ∈ out ↔ InLanguage (rawRules.map copyRule) start w) ∧
      (out ≠ [] ↔ ∃ v, InLanguage (rawRules.map copyRule) start (w ++ v)) := by
  set rules := rawRules.map copyRule with hrules
  have hone : ∀ rule ∈ rules, EndsOnce rule := by
    intro rule hrule
    obtain ⟨raw, -, rfl⟩ := mem_map.mp hrule
    exact endsOnce_copyRule raw
  have hd : detectAll rules = some false := by
    rw [detectAll_eq_false_iff hv hone]
    rintro ⟨r, hrr⟩
    exact hl ⟨r, Relation.TransGen.mono (fun _ _ h => SkipEdge.leftEdge h) _ _ hrr⟩
  have hitems : ∀ rule ∈ rules, ItemRule rule := fun rule h => (hr rule h).items
  obtain ⟨init, ⟨n, einit⟩, hlive, hinit⟩ := initStacks_words hv hitems hl
    (fun i hi => itemSeq_altStarts hitems hi) (fun st hst => absurd hst not_mem_nil)
  obtain ⟨out, hset, hlive', hout⟩ := acceptWord_words hv hitems hl hw hlive
  have hlang : ∀ v, (∃ st ∈ out, Words rules st v) ↔ InLanguage rules start (w ++ v) := by
    intro v
    have hnil : ¬ ∃ st ∈ ([] : GrammarStacks), Words rules st (w ++ v) := by simp
    rw [hout, hinit, or_iff_right hnil, InLanguage, derives_rule_iff]
    constructor
    · rintro ⟨i, hi, hder⟩
      exact ⟨_, mem_map.mpr ⟨i, hi, rfl⟩, by rw [append_nil]; exact hder⟩
    · rintro ⟨rhs, hrhs, hder⟩
      obtain ⟨i, hi, rfl⟩ := mem_map.mp hrhs
      rw [append_nil] at hder
      exact ⟨i, hi, hder⟩
  refine ⟨init, out, ⟨n, fun m hm => ?_⟩, hset, ?_, ?_⟩
  · have := einit m hm
    simp only at this
    simp only [initImpl, ← hrules, hv, hd, this]
    simp
  · have h := hlang []
    rw [append_nil] at h
    rw [← h]
    constructor
    · exact fun hmem => ⟨[], hmem, .nil⟩
    · rintro ⟨st, hst, hword⟩
      obtain ⟨hok, hleaf⟩ := hlive' st hst
      rwa [(words_nil_iff hok hleaf).mp hword] at hst
  · constructor
    · intro hne
      obtain ⟨st, hst⟩ := exists_mem_of_ne_nil out hne
      obtain ⟨v, hword⟩ := hp.exists_word hv hr (hlive' st hst).1
      exact ⟨v, (hlang v).mp ⟨st, hst, hword⟩⟩
    · rintro ⟨v, hword⟩ rfl
      obtain ⟨st, hst, -⟩ := (hlang v).mpr hword
      cases hst

/-! ## Two small grammars -/

theorem not_leftRecursive_of_terms {rules : GrammarRules}
    (h : ∀ r, ∀ rhs ∈ alts rules r, ∀ q ss, rhs ≠ .rule q :: ss) :
    ¬ LeftRecursive (alts rules) := by
  rintro ⟨r, hr⟩
  obtain ⟨s, ⟨pre, post, ha, hpre⟩, -⟩ := Relation.TransGen.head'_iff.mp hr
  cases hpre with
  | nil => exact h r _ ha _ _ rfl
  | rule => exact h r _ ha _ _ rfl

/-- `root ::= "a" | "b" root`. -/
def endsWithA : List (List GrammarElement) :=
  [[⟨.char, 97⟩, ⟨.alt, 0⟩, ⟨.char, 98⟩, ⟨.ruleRef, 0⟩, ⟨.end_, 0⟩]]

theorem endsWithA_alts (r : Nat) : ∀ rhs ∈ alts (endsWithA.map copyRule) r, rhs = [] ∨
    rhs = [.term [⟨.char, 97⟩]] ∨ rhs = [.term [⟨.char, 98⟩], .rule 0] := by
  cases r with
  | zero => decide
  | succ r =>
    have e : alts (endsWithA.map copyRule) (r + 1) = [[]] := rfl
    rw [e]
    simp

theorem endsWithA_not_leftRecursive : ¬ LeftRecursive (alts (endsWithA.map copyRule)) := by
  refine not_leftRecursive_of_terms fun r rhs hrhs q ss => ?_
  rcases endsWithA_alts r rhs hrhs with rfl | rfl | rfl <;> simp

theorem accepts_single {c : Nat} (hc : IsCodePoint c) : accepts [⟨.char, c⟩] c :=
  ⟨hc, (c, c), by simp [intervals], le_refl c, le_refl c⟩

theorem endsWithA_derives : InLanguage (endsWithA.map copyRule) 0 [97] :=
  derives_rule_iff.mpr ⟨[.term [⟨.char, 97⟩]], by decide, .term (accepts_single (by decide)) .nil⟩

theorem endsWithA_productive : AllProductive (endsWithA.map copyRule) := by
  constructor
  · intro r hr
    obtain rfl : r = 0 := Nat.lt_one_iff.mp hr
    exact ⟨[97], endsWithA_derives⟩
  · rintro ⟨r, i⟩ hp
    have hlt : r < 1 ∧ i < 5 := by
      by_contra hn
      have : elem (endsWithA.map copyRule) ⟨r, i⟩ = ⟨.end_, 0⟩ := by
        match r, i, hn with
        | 0, i + 5, _ => simp [elem, suffix, endsWithA, copyRule]
        | r + 1, i, _ => simp [elem, suffix, endsWithA, copyRule]
      rw [this] at hp
      simp [IsRange] at hp
    obtain ⟨hr, hi⟩ := hlt
    obtain rfl : r = 0 := Nat.lt_one_iff.mp hr
    have hcases : i = 0 ∨ i = 2 := by
      have : i = 0 ∨ i = 1 ∨ i = 2 ∨ i = 3 ∨ i = 4 := by omega
      rcases this with rfl | rfl | rfl | rfl | rfl
      · exact .inl rfl
      · exact absurd hp (by decide)
      · exact .inr rfl
      · exact absurd hp (by decide)
      · exact absurd hp (by decide)
    rcases hcases with rfl | rfl
    · exact ⟨97, accepts_single (by decide)⟩
    · exact ⟨98, accepts_single (by decide)⟩

/-- After `b` there are stacks, since `ba` is in the language, but not the empty one. -/
theorem endsWithA_recognizes : ∃ init out,
      Settles (fun fuel => initImpl fuel endsWithA 0) (some (endsWithA.map copyRule, init)) ∧
      Settles (fun fuel => acceptWord (endsWithA.map copyRule) fuel [98] init) out ∧
      ([] ∈ out ↔ InLanguage (endsWithA.map copyRule) 0 [98]) ∧
      (out ≠ [] ↔ ∃ v, InLanguage (endsWithA.map copyRule) 0 ([98] ++ v)) :=
  acceptWord_recognizes endsWithA 0 (by decide) (by decide) endsWithA_not_leftRecursive
    endsWithA_productive [98] (by decide)

/-- `root ::= "a" [z-a] | "b"`. -/
def emptyRange : List (List GrammarElement) :=
  [[⟨.char, 97⟩, ⟨.char, 122⟩, ⟨.charRngUpper, 97⟩, ⟨.alt, 0⟩, ⟨.char, 98⟩, ⟨.end_, 0⟩]]

theorem emptyRange_alts (r : Nat) : ∀ rhs ∈ alts (emptyRange.map copyRule) r, rhs = [] ∨
    rhs = [.term [⟨.char, 97⟩], .term [⟨.char, 122⟩, ⟨.charRngUpper, 97⟩]] ∨
    rhs = [.term [⟨.char, 98⟩]] := by
  cases r with
  | zero => decide
  | succ r =>
    have e : alts (emptyRange.map copyRule) (r + 1) = [[]] := rfl
    rw [e]
    simp

/-- With the range `[z-a]`, for which no character stands, a stack is left after `a` although no
word of the language begins with `a`. -/
theorem not_recognizes_prefixes : ¬ ∀ (rawRules : List (List GrammarElement)) (start : Nat),
      refsValid (rawRules.map copyRule) = true →
      (∀ rule ∈ rawRules.map copyRule, CharRule rule) →
      ¬ LeftRecursive (alts (rawRules.map copyRule)) →
      (∀ r < (rawRules.map copyRule).length,
        ∃ w, Derives (alts (rawRules.map copyRule)) accepts [.rule r] w) →
      ∀ w, (∀ c ∈ w, IsCodePoint c) → ∃ init out,
        Settles (fun fuel => initImpl fuel rawRules start) (some (rawRules.map copyRule, init)) ∧
        Settles (fun fuel => acceptWord (rawRules.map copyRule) fuel w init) out ∧
        (out ≠ [] ↔ ∃ v, InLanguage (rawRules.map copyRule) start (w ++ v)) := by
  intro h
  have hl : ¬ LeftRecursive (alts (emptyRange.map copyRule)) := by
    refine not_leftRecursive_of_terms fun r rhs hrhs q ss => ?_
    rcases emptyRange_alts r rhs hrhs with rfl | rfl | rfl <;> simp
  obtain ⟨init, out, ⟨n1, h1⟩, ⟨n2, h2⟩, hiff⟩ := h emptyRange 0 (by decide) (by decide) hl
    (fun r hr => by
      obtain rfl : r = 0 := Nat.lt_one_iff.mp hr
      exact ⟨[98], derives_rule_iff.mpr
        ⟨[.term [⟨.char, 98⟩]], by decide, .term (accepts_single (by decide)) .nil⟩⟩)
    [97] (by decide)
  -- with enough fuel the calls compute these stacks
  have e1 : ∀ k, initImpl (k + 9) emptyRange 0 =
      .ok (some (emptyRange.map copyRule, [[⟨0, 0⟩], [⟨0, 4⟩]])) := fun k => rfl
  have e2 : ∀ k, acceptWord (emptyRange.map copyRule) (k + 9) [97] [[⟨0, 0⟩], [⟨0, 4⟩]] =
      .ok [[⟨0, 1⟩]] := fun k => rfl
  have h1' := h1 (n1 + 9) (by omega)
  simp only [e1, Except.ok.injEq, Option.some.injEq, Prod.mk.injEq, true_and] at h1'
  subst h1'
  have h2' := h2 (n2 + 9) (by omega)
  simp only [e2, Except.ok.injEq] at h2'
  subst h2'
  obtain ⟨v, hv⟩ := hiff.mp (by simp)
  obtain ⟨rhs, hrhs, hd⟩ := derives_rule_iff.mp hv
  rcases emptyRange_alts 0 rhs hrhs with rfl | rfl | rfl
  · cases hd
  · obtain ⟨c, u, -, -, hd⟩ := derives_term_iff.mp hd
    obtain ⟨c, u, -, ⟨-, i, hi, h1, h2⟩, -⟩ := derives_term_iff.mp hd
    simp only [intervals, if_true, mem_singleton] at hi
    subst hi
    simp only at h1 h2
    omega
  · obtain ⟨c, u, e, ⟨-, i, hi, h1, h2⟩, -⟩ := derives_term_iff.mp hd
    simp only [intervals, mem_singleton] at hi
    subst hi
    simp only at h1 h2
    simp only [cons_append, nil_append, List.cons.injEq] at e
    omega

end BeeLlama.Grammar
