import BeeLlama.Grammar.Token
import BeeLlama.Lib.Run

/-!
# Filtering and accepting

`Survives` says when `llama_grammar_reject_candidates` keeps a candidate, `Consumes` which stacks
`llama_grammar_accept_token` reaches over the code points of a piece. Both follow the same steps,
but the filter also keeps a candidate that meets a matching token element inside of its piece, and
one with a code point `0`, which it takes for the end of the piece (`Detours`).

* `apply_accept_agree`: in every reachable state the filter and the acceptance of a candidate agree
  if and only if a candidate with a detour can also be consumed.
* `apply_accept_disagree`: a token element behind a character of its own piece.
-/

namespace BeeLlama.Grammar

open Cfg Worklist List

/-! ## Steps -/

/-- The stack `st` goes to `st'` with the character `c`. -/
def CharStep (rules : GrammarRules) (st : GrammarStack) (c : Nat) (st' : GrammarStack) : Prop :=
  ∃ p rest after, st = p :: rest ∧ IsRange (elem rules p) ∧
    matchChar rules p c = .ok (true, after) ∧
    Reaches (expandStack rules) (pushUnlessEnd rules after rest) st' ∧
    expandStack rules st' = .ok none

/-- The stack `st` goes to `st'` with the characters of a word. -/
def Consumes (rules : GrammarRules) : List Nat → GrammarStack → GrammarStack → Prop
  | [], st, st' => st = st'
  | c :: w, st, st' => ∃ st₁, CharStep rules st c st₁ ∧ Consumes rules w st₁ st'

/-- The filter keeps a candidate whose code points end at the stack `st`. -/
def EndsAt (rules : GrammarRules) (u : PartialUtf8) (st : GrammarStack) : Prop :=
  u.nRemain = 0 ∨ ∃ p rest, st = p :: rest ∧ IsRange (elem rules p) ∧
    matchPartialChar rules p u = .ok true

/-- A token element that the token matches is on top. -/
def TakesToken (rules : GrammarRules) (id : Nat) (st : GrammarStack) : Prop :=
  ∃ p rest, st = p :: rest ∧ IsToken (elem rules p) ∧ matchToken rules p id = true

/-- The filter keeps a candidate with these code points left. -/
def Survives (rules : GrammarRules) (u : PartialUtf8) (id : Nat) : List Nat → GrammarStack → Prop
  | [], st => EndsAt rules u st
  | c :: cs, st =>
    if c = 0 then EndsAt rules u st
    else TakesToken rules id st ∨ ∃ st', CharStep rules st c st' ∧ Survives rules u id cs st'

section Steps

variable {rules : GrammarRules} (hv : refsValid rules = true)
  (hr : ∀ rule ∈ rules, ItemRule rule) (hl : ¬ LeftRecursive (alts rules))

omit hv hr hl in
theorem not_range_of_token {e : GrammarElement} (h : IsToken e) : ¬ IsRange e := by
  rcases h with h | h <;> simp [IsRange, h]

include hv hr hl

theorem acceptChr_settles {st : GrammarStack} (h : StackOk rules st)
    (hleaf : expandStack rules st = .ok none) (c : Nat) {newStacks : GrammarStacks}
    (hn : Live rules newStacks) :
    ∃ out, Settles (fun fuel => acceptChr rules fuel st c newStacks) out ∧ Live rules out ∧
      ∀ st', st' ∈ out ↔ st' ∈ newStacks ∨ CharStep rules st c st' := by
  rcases h.of_leaf hleaf with rfl | ⟨p, rest, rfl, -, hrg | htok⟩
  · refine ⟨newStacks, .const _, hn, fun st' => ?_⟩
    have : ¬ CharStep rules [] c st' := by
      rintro ⟨p, rest, after, e, -⟩
      cases e
    simp [this]
  · obtain ⟨found, after, e, -, hseq, -⟩ :=
      ItemSeq.matchChar (h p mem_cons_self).1 hrg c
    have htok : ¬ ((elem rules p).type = .token ∨ (elem rules p).type = .tokenNot) :=
      fun ht => not_range_of_token ht hrg
    have hstep : ∀ st', CharStep rules (p :: rest) c st' ↔ found = true ∧
        Reaches (expandStack rules) (pushUnlessEnd rules after rest) st' ∧
          expandStack rules st' = .ok none := by
      intro st'
      constructor
      · rintro ⟨q, rest', after', e1, -, e2, hst, hlf⟩
        cases e1
        rw [e] at e2
        cases e2
        exact ⟨rfl, hst, hlf⟩
      · rintro ⟨rfl, hst, hlf⟩
        exact ⟨p, rest, after, rfl, hrg, e, hst, hlf⟩
    cases found with
    | false =>
      refine ⟨newStacks, ⟨0, fun m _ => ?_⟩, hn, fun st' => ?_⟩
      · simp [acceptChr, htok, e]
      · rw [hstep]
        simp
    | true =>
      obtain ⟨out, ⟨n, hset⟩, hlive, -, hout⟩ :=
        advanceStack_settles hv hr hl (h.tail.pushUnlessEnd hseq) hn
      refine ⟨out, ⟨n, fun m hm => ?_⟩, hlive, fun st' => ?_⟩
      · simpa [acceptChr, htok, e] using hset m hm
      · rw [hout, hstep, and_comm (a := expandStack rules st' = _)]
        simp
  · refine ⟨newStacks, ⟨0, fun m _ => ?_⟩, hn, fun st' => ?_⟩
    · dsimp only [acceptChr]
      exact if_pos htok
    · have : ¬ CharStep rules (p :: rest) c st' := by
        rintro ⟨q, rest', after, e, hrg, -⟩
        cases e
        exact not_range_of_token htok hrg
      simp [this]

theorem acceptStacks_settles {curStacks : GrammarStacks} (h : Live rules curStacks) (c : Nat)
    {newStacks : GrammarStacks} (hn : Live rules newStacks) :
    ∃ out, Settles (fun fuel => acceptStacks rules fuel c curStacks newStacks) out ∧
      Live rules out ∧
      ∀ st', st' ∈ out ↔ st' ∈ newStacks ∨ ∃ st ∈ curStacks, CharStep rules st c st' := by
  induction curStacks generalizing newStacks with
  | nil => exact ⟨newStacks, .const _, hn, fun st' => by simp⟩
  | cons st curStacks ih =>
    obtain ⟨hok, hleaf⟩ := h st mem_cons_self
    obtain ⟨out1, e1, h1, hw1⟩ := acceptChr_settles hv hr hl hok hleaf c hn
    obtain ⟨out2, e2, h2, hw2⟩ := ih (fun st hst => h st (mem_cons_of_mem _ hst)) h1
    obtain ⟨n, hm⟩ := e1.both e2
    refine ⟨out2, ⟨n, fun m hn => ?_⟩, h2, fun st' => ?_⟩
    · simp only [acceptStacks, hm m hn]
    · rw [hw2, hw1, or_assoc]
      simp

/-- The stacks after a word are those that the word leads to. -/
theorem acceptWord_settles (w : List Nat) {curStacks : GrammarStacks} (h : Live rules curStacks) :
    ∃ out, Settles (fun fuel => acceptWord rules fuel w curStacks) out ∧ Live rules out ∧
      ∀ st', st' ∈ out ↔ ∃ st ∈ curStacks, Consumes rules w st st' := by
  induction w generalizing curStacks with
  | nil => exact ⟨curStacks, .const _, h, fun st' => by simp [Consumes]⟩
  | cons c w ih =>
    obtain ⟨out1, e1, h1, hw1⟩ := acceptStacks_settles hv hr hl h c
      (fun st hst => absurd hst not_mem_nil)
    obtain ⟨out2, e2, h2, hw2⟩ := ih h1
    obtain ⟨n, hm⟩ := e1.both e2
    refine ⟨out2, ⟨n, fun m hn => ?_⟩, h2, fun st' => ?_⟩
    · simp only [acceptWord, accept, hm m hn]
    · rw [hw2]
      constructor
      · rintro ⟨st1, hst1, hc⟩
        obtain ⟨st, hst, hstep⟩ := ((hw1 st1).mp hst1).resolve_left not_mem_nil
        exact ⟨st, hst, st1, hstep, hc⟩
      · rintro ⟨st, hst, st1, hstep, hc⟩
        exact ⟨st1, (hw1 st1).mpr (.inr ⟨st, hst, hstep⟩), hc⟩

end Steps

/-! ## `llama_grammar_reject_candidates` -/

/-- The code points that a candidate has left. -/
def Candidate.rest (tok : Candidate) : List Nat := tok.codePoints.drop tok.offset

/-- The filter keeps the candidate at the stack. -/
abbrev Kept (rules : GrammarRules) (tok : Candidate) (st : GrammarStack) : Prop :=
  Survives rules tok.partialUtf8 tok.id tok.rest st

variable {tok : Candidate}

theorem Candidate.rest_of_head (h : tok.head ≠ 0) :
    tok.rest = tok.head :: ({ tok with offset := tok.offset + 1 } : Candidate).rest := by
  unfold Candidate.head at h ⊢
  unfold Candidate.rest
  have hlt : tok.offset < tok.codePoints.length := by
    by_contra hn
    have hge : tok.codePoints.length ≤ tok.offset := by omega
    simp [getD_eq_getElem?_getD, getElem?_eq_none hge] at h
  rw [drop_eq_getElem_cons hlt]
  simp [getD_eq_getElem?_getD, hlt]

theorem survives_of_head_eq {rules : GrammarRules} (h : tok.head = 0)
    (st : GrammarStack) : Kept rules tok st ↔ EndsAt rules tok.partialUtf8 st := by
  unfold Kept
  unfold Candidate.head at h
  unfold Candidate.rest
  by_cases hlt : tok.offset < tok.codePoints.length
  · rw [drop_eq_getElem_cons hlt]
    simp only [getD_eq_getElem?_getD, getElem?_eq_getElem hlt, Option.getD_some] at h
    simp [Survives, h]
  · rw [drop_eq_nil_of_le (by omega)]
    rfl

theorem survives_of_head_ne {rules : GrammarRules} (h : tok.head ≠ 0)
    (st : GrammarStack) : Kept rules tok st ↔ TakesToken rules tok.id st ∨
      ∃ st', CharStep rules st tok.head st' ∧
        Kept rules { tok with offset := tok.offset + 1 } st' := by
  rw [Kept, Candidate.rest_of_head h]
  simp [Survives, h]

section Reject

variable {rules : GrammarRules}

theorem matchPartialChar_total {p : ElementPtr} (h : IsRange (elem rules p)) (u : PartialUtf8) :
    ∃ b, matchPartialChar rules p u = .ok b := by
  have hc : (isPositiveChar (elem rules p) || decide ((elem rules p).type = .charNot)) = true := by
    rcases h with h | h | h <;> simp [isPositiveChar, h]
  simp only [matchPartialChar, hc, if_true]
  split
  · exact ⟨false, rfl⟩
  · exact ⟨_, rfl⟩

/-- A candidate at a range: it goes on with its next code point, or it is rejected at once. -/
theorem splitAtRange_spec {p : ElementPtr} (rest : GrammarStack)
    (h : ItemSeq (suffix rules p)) (hrg : IsRange (elem rules p)) (candidates : List Candidate) :
    ∃ next rejects, splitAtRange rules p candidates = .ok (next, rejects) ∧
      (∀ tok, tok ∈ next ↔ ∃ tok₀ ∈ candidates, tok₀.head ≠ 0 ∧
        (∃ after, matchChar rules p tok₀.head = .ok (true, after)) ∧
          tok = { tok₀ with offset := tok₀.offset + 1 }) ∧
      ∀ tok, tok ∈ rejects ↔ tok ∈ candidates ∧
        if tok.head = 0 then ¬ EndsAt rules tok.partialUtf8 (p :: rest)
        else ∃ after, matchChar rules p tok.head = .ok (false, after) := by
  have hends : ∀ tok : Candidate, EndsAt rules tok.partialUtf8 (p :: rest) ↔
      tok.partialUtf8.nRemain = 0 ∨ matchPartialChar rules p tok.partialUtf8 = .ok true := by
    intro tok
    refine or_congr_right ⟨fun ⟨q, rest', e, _, hm⟩ => ?_, fun hm => ⟨p, rest, rfl, hrg, hm⟩⟩
    cases e
    exact hm
  induction candidates with
  | nil => exact ⟨[], [], rfl, by simp, by simp⟩
  | cons tok candidates ih =>
    obtain ⟨next, rejects, e, hnext, hrej⟩ := ih
    by_cases h0 : tok.head = 0
    · by_cases hn : tok.partialUtf8.nRemain = 0
      · refine ⟨next, rejects, by simp only [splitAtRange, e, h0, hn, if_true], fun t => ?_,
          fun t => ?_⟩
        · rw [hnext]
          simp [h0]
        · rw [hrej]
          constructor
          · exact fun ht => ⟨mem_cons_of_mem _ ht.1, ht.2⟩
          · rintro ⟨ht, hc⟩
            rcases mem_cons.mp ht with rfl | ht
            · rw [if_pos h0, hends] at hc
              exact absurd (.inl hn) hc
            · exact ⟨ht, hc⟩
      · obtain ⟨b, hb⟩ := matchPartialChar_total hrg tok.partialUtf8
        refine ⟨next, if b then rejects else tok :: rejects, ?_, fun t => ?_, fun t => ?_⟩
        · simp only [splitAtRange, e, h0, if_true, if_neg hn, hb]
        · rw [hnext]
          simp [h0]
        · have htok : (if tok.head = 0 then ¬ EndsAt rules tok.partialUtf8 (p :: rest)
              else ∃ after, matchChar rules p tok.head = .ok (false, after)) ↔ b = false := by
            rw [if_pos h0, hends, hb]
            cases b <;> simp [hn]
          cases b with
          | true =>
            rw [if_pos rfl, hrej]
            constructor
            · exact fun ht => ⟨mem_cons_of_mem _ ht.1, ht.2⟩
            · rintro ⟨ht, hc⟩
              rcases mem_cons.mp ht with rfl | ht
              · exact absurd (htok.mp hc) (by simp)
              · exact ⟨ht, hc⟩
          | false =>
            rw [if_neg (by simp), mem_cons, hrej]
            constructor
            · rintro (rfl | ht)
              · exact ⟨mem_cons_self, htok.mpr rfl⟩
              · exact ⟨mem_cons_of_mem _ ht.1, ht.2⟩
            · rintro ⟨ht, hc⟩
              rcases mem_cons.mp ht with rfl | ht
              · exact .inl rfl
              · exact .inr ⟨ht, hc⟩
    · obtain ⟨found, after, em, -⟩ := ItemSeq.matchChar h hrg tok.head
      cases found with
      | true =>
        refine ⟨{ tok with offset := tok.offset + 1 } :: next, rejects, ?_, fun t => ?_,
          fun t => ?_⟩
        · simp only [splitAtRange, e, if_neg h0, em]
        · rw [mem_cons, hnext]
          constructor
          · rintro (rfl | ⟨tok₀, ht, hrest⟩)
            · exact ⟨tok, mem_cons_self, h0, ⟨after, em⟩, rfl⟩
            · exact ⟨tok₀, mem_cons_of_mem _ ht, hrest⟩
          · rintro ⟨tok₀, ht, hne, hm, rfl⟩
            rcases mem_cons.mp ht with rfl | ht
            · exact .inl rfl
            · exact .inr ⟨tok₀, ht, hne, hm, rfl⟩
        · rw [hrej]
          constructor
          · exact fun ht => ⟨mem_cons_of_mem _ ht.1, ht.2⟩
          · rintro ⟨ht, hc⟩
            rcases mem_cons.mp ht with rfl | ht
            · rw [if_neg h0, em] at hc
              simp at hc
            · exact ⟨ht, hc⟩
      | false =>
        refine ⟨next, tok :: rejects, ?_, fun t => ?_, fun t => ?_⟩
        · simp only [splitAtRange, e, if_neg h0, em]
        · rw [hnext]
          constructor
          · rintro ⟨tok₀, ht, hrest⟩
            exact ⟨tok₀, mem_cons_of_mem _ ht, hrest⟩
          · rintro ⟨tok₀, ht, hne, ⟨after', hm⟩, rfl⟩
            rcases mem_cons.mp ht with rfl | ht
            · rw [em] at hm
              simp at hm
            · exact ⟨tok₀, ht, hne, ⟨after', hm⟩, rfl⟩
        · rw [mem_cons, hrej]
          constructor
          · rintro (rfl | ht)
            · exact ⟨mem_cons_self, by rw [if_neg h0]; exact ⟨after, em⟩⟩
            · exact ⟨mem_cons_of_mem _ ht.1, ht.2⟩
          · rintro ⟨ht, hc⟩
            rcases mem_cons.mp ht with rfl | ht
            · exact .inl rfl
            · exact .inr ⟨ht, hc⟩

/-- A call that filters the candidates by `P`, if its fuel is enough. -/
def Filters (f : Nat → List Candidate → Except GrammarError (List Candidate))
    (P : Candidate → Prop) (candidates : List Candidate) : Prop :=
  ∃ out, Settles (fun fuel => f fuel candidates) out ∧ ∀ tok, tok ∈ out ↔ tok ∈ candidates ∧ P tok

variable {f : Nat → GrammarStack → List Candidate → Except GrammarError (List Candidate)}
    {D : Candidate → Prop}

/-- The loop over the stacks keeps the rejects of all of them. -/
theorem rejectStacks_filters {curStacks : GrammarStacks}
    (hf : ∀ st ∈ curStacks, ∀ candidates, (∀ tok ∈ candidates, D tok) →
      Filters (fun fuel => f fuel st) (fun tok => ¬ Kept rules tok st) candidates)
    {candidates : List Candidate} (hd : ∀ tok ∈ candidates, D tok) :
    Filters (fun fuel => rejectStacks (f fuel) curStacks)
      (fun tok => ∀ st ∈ curStacks, ¬ Kept rules tok st) candidates := by
  induction curStacks generalizing candidates with
  | nil => exact ⟨candidates, .const _, fun tok => by simp⟩
  | cons st curStacks ih =>
    obtain ⟨out1, e1, h1⟩ := hf st mem_cons_self candidates hd
    obtain ⟨out2, e2, h2⟩ := ih (fun st hst => hf st (mem_cons_of_mem _ hst))
      fun tok ht => hd tok ((h1 tok).mp ht).1
    obtain ⟨n, hm⟩ := e1.both e2
    refine ⟨out2, ⟨n, fun m hn => ?_⟩, fun tok => ?_⟩
    · simp only [rejectStacks, hm m hn]
    · rw [h2, h1, and_assoc]
      simp

theorem rejectCandidates_filters {curStacks : GrammarStacks}
    {candidates : List Candidate} (hne : curStacks ≠ [])
    (hf : candidates ≠ [] → ∀ st ∈ curStacks, ∀ candidates, (∀ tok ∈ candidates, D tok) →
      Filters (fun fuel => f fuel st) (fun tok => ¬ Kept rules tok st) candidates)
    (hd : ∀ tok ∈ candidates, D tok) :
    Filters (fun fuel => rejectCandidates (f fuel) curStacks)
      (fun tok => ∀ st ∈ curStacks, ¬ Kept rules tok st) candidates := by
  by_cases hc : candidates = []
  · subst hc
    exact ⟨[], ⟨0, fun m _ => by simp [rejectCandidates, hne]⟩, by simp⟩
  · obtain ⟨out, ⟨n, e⟩, h⟩ := rejectStacks_filters (hf hc) hd
    refine ⟨out, ⟨n, fun m hm => ?_⟩, h⟩
    simpa [rejectCandidates, hne, hc] using e m hm

end Reject

section Reject

variable {rules : GrammarRules} (hv : refsValid rules = true)
  (hr : ∀ rule ∈ rules, ItemRule rule) (hl : ¬ LeftRecursive (alts rules))

include hv hr hl

omit hv hr hl in
/-- The empty stack keeps a candidate that ends there. -/
theorem kept_nil_iff (tok : Candidate) :
    Kept rules tok [] ↔ tok.head = 0 ∧ tok.partialUtf8.nRemain = 0 := by
  have hnil : ∀ {P : ElementPtr → GrammarStack → Prop},
      ¬ ∃ p rest, ([] : GrammarStack) = p :: rest ∧ P p rest := by
    rintro P ⟨p, rest, e, -⟩
    cases e
  by_cases h0 : tok.head = 0
  · rw [survives_of_head_eq h0, EndsAt, or_iff_left hnil]
    simp [h0]
  · rw [survives_of_head_ne h0, TakesToken, or_iff_right hnil]
    constructor
    · rintro ⟨st', ⟨p, rest, after, e, -⟩, -⟩
      cases e
    · exact fun h => absurd h.1 h0

omit hv hr hl in
/-- A token element on top keeps a candidate that it matches, or that ends there. -/
theorem kept_token_iff {p : ElementPtr} {rest : GrammarStack} (h : IsToken (elem rules p))
    (tok : Candidate) : Kept rules tok (p :: rest) ↔
      if tok.head = 0 then tok.partialUtf8.nRemain = 0 else matchToken rules p tok.id = true := by
  by_cases h0 : tok.head = 0
  · rw [survives_of_head_eq h0, if_pos h0, EndsAt]
    refine or_iff_left ?_
    rintro ⟨q, rest', e, hrg, -⟩
    cases e
    exact not_range_of_token h hrg
  · rw [survives_of_head_ne h0, if_neg h0]
    constructor
    · rintro (⟨q, rest', e, -, hm⟩ | ⟨st', ⟨q, rest', after, e, hrg, -⟩, -⟩)
      · cases e
        exact hm
      · cases e
        exact absurd hrg (not_range_of_token h)
    · exact fun hm => .inl ⟨p, rest, rfl, h, hm⟩

/-- `llama_grammar_reject_candidates_for_stack` rejects what does not survive. The induction is on
the code points that are left. -/
theorem rejectForStack_filters {depth : Nat} (hpos : 0 < depth) {st : GrammarStack}
    (h : StackOk rules st) (hleaf : expandStack rules st = .ok none) {candidates : List Candidate}
    (hd : ∀ tok ∈ candidates, tok.rest.length < depth) :
    Filters (fun fuel => rejectForStack rules fuel depth st)
      (fun tok => ¬ Kept rules tok st) candidates := by
  induction depth generalizing st candidates with
  | zero => omega
  | succ depth ih =>
    rcases h.of_leaf hleaf with rfl | ⟨p, rest, rfl, -, hrg | htok⟩
    · refine ⟨candidates.filter fun tok => decide (tok.head ≠ 0 ∨ tok.partialUtf8.nRemain ≠ 0),
        ⟨0, fun m _ => by simp only [rejectForStack]⟩, fun tok => ?_⟩
      beta_reduce
      rw [mem_filter, kept_nil_iff, decide_eq_true_eq]
      tauto
    · have htok : ¬ ((elem rules p).type = .token ∨ (elem rules p).type = .tokenNot) :=
        fun ht => not_range_of_token ht hrg
      have hitems := (h p mem_cons_self).1
      obtain ⟨next, rejects, es, hnext, hrej⟩ := splitAtRange_spec rest hitems hrg candidates
      obtain ⟨found, after, em, -, hseq, -⟩ := ItemSeq.matchChar hitems hrg 0
      obtain ⟨nextStacks, e1, hlive, hne, hstacks⟩ := advanceStack_settles hv hr hl
        (h.tail.pushUnlessEnd hseq) (fun st hst => absurd hst not_mem_nil)
      have hlen : ∀ tok ∈ next, tok.rest.length < depth := by
        intro tok ht
        obtain ⟨tok0, ht0, h0, -, rfl⟩ := (hnext tok).mp ht
        have := hd tok0 ht0
        rw [Candidate.rest_of_head h0, length_cons] at this
        omega
      have hfilt : Filters
          (fun fuel => rejectCandidates (rejectForStack rules fuel depth) nextStacks)
          (fun tok => ∀ st ∈ nextStacks, ¬ Kept rules tok st) next := by
        refine rejectCandidates_filters hne (fun hne' st hst candidates hd => ?_) hlen
        obtain ⟨tok, ht⟩ := exists_mem_of_ne_nil next hne'
        exact ih (by have := hlen tok ht; omega) (hlive st hst).1 (hlive st hst).2 hd
      obtain ⟨nextRejects, e2, hkept⟩ := hfilt
      obtain ⟨n, hm⟩ := e1.both e2
      refine ⟨rejects ++ nextRejects.map fun tok => { tok with offset := tok.offset - 1 },
        ⟨n, fun m hn => ?_⟩, fun tok => ?_⟩
      · simp only [rejectForStack, if_neg htok, es, em, hm m hn]
      · -- the next stacks are those that the code point leads to
        have hstep : ∀ c st', (∃ a, matchChar rules p c = .ok (true, a)) →
            (st' ∈ nextStacks ↔ CharStep rules (p :: rest) c st') := by
          rintro c st' ⟨a, ea⟩
          obtain rfl := matchChar_after em ea
          rw [hstacks]
          constructor
          · rintro (hst | ⟨hlf, hst⟩)
            · exact absurd hst not_mem_nil
            · exact ⟨p, rest, after, rfl, hrg, ea, hst, hlf⟩
          · rintro ⟨q, rest', a, e, -, ea', hst, hlf⟩
            cases e
            rw [ea] at ea'
            cases ea'
            exact .inr ⟨hlf, hst⟩
        have hno : ¬ TakesToken rules tok.id (p :: rest) := by
          rintro ⟨q, rest', e, hq, -⟩
          cases e
          exact not_range_of_token hq hrg
        have hmap : tok ∈ nextRejects.map (fun tok : Candidate =>
            { tok with offset := tok.offset - 1 }) ↔ tok ∈ candidates ∧ tok.head ≠ 0 ∧
              (∃ a, matchChar rules p tok.head = .ok (true, a)) ∧
                ∀ st ∈ nextStacks, ¬ Kept rules { tok with offset := tok.offset + 1 } st := by
          rw [mem_map]
          constructor
          · rintro ⟨tok', ht', rfl⟩
            obtain ⟨hmem, hk⟩ := (hkept tok').mp ht'
            obtain ⟨tok0, ht0, h0, hm, rfl⟩ := (hnext tok').mp hmem
            exact ⟨ht0, h0, hm, hk⟩
          · rintro ⟨ht, h0, hm, hk⟩
            refine ⟨{ tok with offset := tok.offset + 1 }, (hkept _).mpr ⟨?_, hk⟩, rfl⟩
            exact (hnext _).mpr ⟨tok, ht, h0, hm, rfl⟩
        beta_reduce
        rw [mem_append, hrej, hmap]
        by_cases h0 : tok.head = 0
        · rw [if_pos h0, survives_of_head_eq h0]
          simp [h0]
        · rw [if_neg h0, survives_of_head_ne h0, or_iff_right hno]
          obtain ⟨f, a, ea, -⟩ := ItemSeq.matchChar hitems hrg tok.head
          cases f with
          | false =>
            have hns : ¬ ∃ st', CharStep rules (p :: rest) tok.head st' ∧
                Kept rules { tok with offset := tok.offset + 1 } st' := by
              rintro ⟨st', ⟨q, rest', a', e, -, ea', -⟩, -⟩
              cases e
              rw [ea] at ea'
              simp at ea'
            simp [ea, hns]
          | true =>
            have hst := fun st' => hstep tok.head st' ⟨a, ea⟩
            simp [ea, h0, hst]
    · refine ⟨candidates.filter fun tok =>
          if tok.head = 0 then decide (tok.partialUtf8.nRemain ≠ 0)
          else !matchToken rules p tok.id, ⟨0, fun m _ => ?_⟩, fun tok => ?_⟩
      · dsimp only [rejectForStack]
        exact if_pos htok
      · beta_reduce
        rw [mem_filter, kept_token_iff htok]
        by_cases h0 : tok.head = 0
        · simp [h0]
        · simp [h0]

end Reject

/-! ## The code points of a piece -/

theorem decodeLoop_getLast (bs : List UInt8) (v : Nat) (n : Int) (acc : List Nat) :
    ∃ cps, (decodeLoop bs v n acc).1 = cps ++ [0] := by
  induction bs generalizing v n acc with
  | nil => exact ⟨acc, rfl⟩
  | cons b bs ih =>
    dsimp only [decodeLoop]
    split
    · exact ih _ _ _
    · split
      · exact ⟨[], rfl⟩
      · exact ih _ _ _

/-- If the bytes end on a boundary, a code point was read. -/
theorem decodeLoop_ne {bs : List UInt8} {v : Nat} {n : Int} {acc : List Nat}
    (h : (decodeLoop bs v n acc).2.nRemain = 0) (hne : bs ≠ [] ∨ acc ≠ []) :
    (decodeLoop bs v n acc).1 ≠ [0] := by
  induction bs generalizing v n acc with
  | nil =>
    have hacc := hne.resolve_left fun h => h rfl
    simpa [decodeLoop] using hacc
  | cons b bs ih =>
    -- the byte ends a code point, or there are more bytes
    have more : ∀ {v : Nat} {n : Int}, (decodeLoop bs v n
        (if n = 0 then acc ++ [v] else acc)).2.nRemain = 0 →
        bs ≠ [] ∨ (if n = 0 then acc ++ [v] else acc) ≠ [] := by
      intro v n h
      by_cases hn : n = 0
      · exact .inr (by simp [hn])
      · refine .inl fun hbs => ?_
        rw [hbs] at h
        exact hn h
    dsimp only [decodeLoop] at h ⊢
    split at h
    · next hn =>
      rw [if_pos hn]
      exact ih h (more h)
    · next hn =>
      rw [if_neg hn]
      split at h
      · next hl => exact absurd h (by dsimp only; omega)
      · next hl =>
        rw [if_neg hl]
        exact ih h (more h)

theorem continueDecode_nil {b : UInt8} {bs : List UInt8} {v v' : Nat} {n n' : Int}
    (h : continueDecode (b :: bs) v n = some ([], v', n')) : 0 < n := by
  unfold continueDecode at h
  split at h
  · assumption
  · simp at h

/-- The code points of a piece end with `0`, and there is another one if the piece ends on a
boundary. -/
theorem decodeUtf8_spec {piece : List UInt8} (hp : pieceEmpty piece = false) (start : PartialUtf8) :
    ∃ cps, (decodeUtf8 piece start).1 = cps ++ [0] ∧
      ((decodeUtf8 piece start).2.nRemain = 0 → cps ≠ []) := by
  obtain ⟨b, bs, e⟩ : ∃ b bs, piece.takeWhile (· ≠ 0) = b :: bs := by
    cases piece with
    | nil => cases hp
    | cons b bs =>
      have hb : b ≠ 0 := by simpa [pieceEmpty] using hp
      exact ⟨b, bs.takeWhile (· ≠ 0), by simp [hb]⟩
  unfold decodeUtf8
  rw [e]
  cases ec : continueDecode (b :: bs) start.value start.nRemain with
  | none => exact ⟨[], rfl, fun h => by cases h⟩
  | some r =>
    obtain ⟨bs', v, n⟩ := r
    obtain ⟨cps, hc⟩ := decodeLoop_getLast bs' v n (if start.nRemain > 0 ∧ n = 0 then [v] else [])
    refine ⟨cps, hc, fun h hnil => ?_⟩
    refine decodeLoop_ne h ?_ (by rw [hc, hnil]; rfl)
    cases bs' with
    | nil =>
      have hn : n = 0 := h
      have := continueDecode_nil ec
      exact .inr (by simp [hn, this])
    | cons => exact .inl (by simp)

/-! ## Detours -/

/-- The filter keeps the candidate although it does not read the piece to its end: after some code
points it meets a token element that the token matches, or the code point `0`. -/
def Detours (rules : GrammarRules) (u : PartialUtf8) (id : Nat) (cps : List Nat)
    (st : GrammarStack) : Prop :=
  ∃ pre c post st', cps = pre ++ c :: post ∧ (∀ x ∈ pre, x ≠ 0) ∧ Consumes rules pre st st' ∧
    (c ≠ 0 ∧ pre ≠ [] ∧ TakesToken rules id st' ∨ c = 0 ∧ EndsAt rules u st')

/-- The stack takes the token, or a range on top reads all code points of its piece. -/
def ReadsPiece (rules : GrammarRules) (id : Nat) (cps : List Nat) (st : GrammarStack) : Prop :=
  TakesToken rules id st ∨
    (∃ p rest, st = p :: rest ∧ IsRange (elem rules p)) ∧ ∃ st', Consumes rules cps st st'

section Detours

variable {rules : GrammarRules} {u : PartialUtf8} {id : Nat}

variable {cps : List Nat} {st : GrammarStack}

/-- A candidate survives if its piece is read, if its token is taken at once, or by a detour. -/
theorem survives_iff : Survives rules u id (cps ++ [0]) st ↔
      (∀ x ∈ cps, x ≠ 0) ∧ (∃ st', Consumes rules cps st st' ∧ EndsAt rules u st') ∨
        TakesToken rules id st ∧ (∃ c post, cps = c :: post ∧ c ≠ 0) ∨
          Detours rules u id cps st := by
  induction cps generalizing st with
  | nil =>
    have hd : ¬ Detours rules u id [] st := by
      rintro ⟨pre, c, post, st', e, -⟩
      cases pre <;> cases e
    simp [Survives, Consumes, hd]
  | cons c cps ih =>
    by_cases hc : c = 0
    · subst hc
      have hd : Detours rules u id (0 :: cps) st ↔ EndsAt rules u st := by
        constructor
        · rintro ⟨pre, c, post, st', e, hpre, hcons, h⟩
          cases pre with
          | nil =>
            cases e
            obtain rfl : st = st' := hcons
            exact (h.resolve_left fun h => h.1 rfl).2
          | cons x pre =>
            cases e
            exact absurd rfl (hpre 0 mem_cons_self)
        · exact fun h => ⟨[], 0, cps, st, rfl, by simp, rfl, .inr ⟨rfl, h⟩⟩
      rw [hd]
      simp [Survives]
    · simp only [Survives, cons_append, if_neg hc, ih]
      constructor
      · rintro (ht | ⟨st1, hs, ⟨h0, st', hcons, he⟩ | ⟨ht, d, post, rfl, hd⟩ |
          ⟨pre, d, post, st', rfl, hpre, hcons, h⟩⟩)
        · exact .inr (.inl ⟨ht, c, cps, rfl, hc⟩)
        · refine .inl ⟨fun x hx => ?_, st', ⟨st1, hs, hcons⟩, he⟩
          rcases mem_cons.mp hx with rfl | hx
          · exact hc
          · exact h0 x hx
        · refine .inr (.inr ⟨[c], d, post, st1, rfl, by simpa using hc, ⟨st1, hs, rfl⟩, ?_⟩)
          exact .inl ⟨hd, by simp, ht⟩
        · refine .inr (.inr ⟨c :: pre, d, post, st', rfl, fun x hx => ?_, ⟨st1, hs, hcons⟩,
            h.imp (fun h => ⟨h.1, by simp, h.2.2⟩) fun h => h⟩)
          rcases mem_cons.mp hx with rfl | hx
          · exact hc
          · exact hpre x hx
      · rintro (⟨h0, st', ⟨st1, hs, hcons⟩, he⟩ | ⟨ht, -⟩ |
          ⟨pre, d, post, st', e, hpre, hcons, h⟩)
        · exact .inr ⟨st1, hs, .inl
            ⟨fun x hx => h0 x (mem_cons_of_mem _ hx), st', hcons, he⟩⟩
        · exact .inl ht
        · cases pre with
          | nil =>
            cases e
            rcases h with ⟨-, h, -⟩ | ⟨h, -⟩
            · exact absurd rfl h
            · exact absurd h hc
          | cons x pre =>
            cases e
            obtain ⟨st1, hs, hcons⟩ := hcons
            have hpre' : ∀ y ∈ pre, y ≠ 0 := fun y hy => hpre y (mem_cons_of_mem _ hy)
            refine .inr ⟨st1, hs, .inr ?_⟩
            rcases h with ⟨hd, -, ht⟩ | h
            · by_cases hnil : pre = []
              · subst hnil
                obtain rfl : st1 = st' := hcons
                exact .inl ⟨ht, d, post, rfl, hd⟩
              · exact .inr ⟨pre, d, post, st', rfl, hpre', hcons, .inl ⟨hd, hnil, ht⟩⟩
            · exact .inr ⟨pre, d, post, st', rfl, hpre', hcons, .inr h⟩

/-- A detour keeps the candidate. -/
theorem Detours.survives (h : Detours rules u id cps st) : Survives rules u id (cps ++ [0]) st :=
  survives_iff.mpr (.inr (.inr h))

/-- A candidate that survives without a detour is read. -/
theorem ReadsPiece.of_survives
    (hne : u.nRemain = 0 → cps ≠ []) (h : Survives rules u id (cps ++ [0]) st)
    (hd : ¬ Detours rules u id cps st) : ReadsPiece rules id cps st := by
  rcases survives_iff.mp h with ⟨-, st', hcons, he⟩ | ⟨ht, -⟩ | h
  · cases cps with
    | nil =>
      obtain rfl : st = st' := hcons
      obtain ⟨p, rest, rfl, hrg, -⟩ := he.resolve_left fun h => hne h rfl
      exact .inr ⟨⟨p, rest, rfl, hrg⟩, _, rfl⟩
    | cons c cps =>
      obtain ⟨st1, ⟨p, rest, after, rfl, hrg, hs⟩, hcons⟩ := hcons
      exact .inr ⟨⟨p, rest, rfl, hrg⟩, st', st1, ⟨p, rest, after, rfl, hrg, hs⟩, hcons⟩
  · exact .inl ht
  · exact absurd h hd

/-- On a boundary a candidate that is read survives. -/
theorem ReadsPiece.survives (hu : u.nRemain = 0)
    (hne : cps ≠ []) (h : ReadsPiece rules id cps st) : Survives rules u id (cps ++ [0]) st := by
  rcases h with ht | ⟨-, st', hcons⟩
  · cases cps with
    | nil => exact absurd rfl hne
    | cons c cps =>
      simp only [cons_append, Survives]
      split
      · exact .inl hu
      · exact .inl ht
  · clear hne
    induction cps generalizing st with
    | nil => exact .inl hu
    | cons c cps ih =>
      obtain ⟨st1, hs, hcons⟩ := hcons
      simp only [cons_append, Survives]
      split
      · exact .inl hu
      · exact .inr ⟨st1, hs, ih hcons⟩

end Detours

/-! ## The calls of the sampler -/

section Calls

variable {rules : GrammarRules} (hv : refsValid rules = true)
  (hr : ∀ rule ∈ rules, ItemRule rule) (hl : ¬ LeftRecursive (alts rules))

variable {st : GrammarStack} {g : GrammarState} {vocab : GrammarVocab} {ids : List Nat}
    {tok : Candidate} {allowEog : Bool}

omit hv hr hl in
theorem mem_addStacks {newStacks surviving : GrammarStacks} :
    st ∈ addStacks newStacks surviving ↔ st ∈ newStacks ∨ st ∈ surviving := by
  induction surviving generalizing newStacks with
  | nil => simp [addStacks]
  | cons a surviving ih =>
    rw [addStacks, ih, mem_cons, ← or_assoc]
    refine or_congr_left ?_
    split
    · next ha => exact ⟨.inl, fun h => h.elim id fun e => e ▸ ha⟩
    · simp

include hv hr hl

variable {newStacks : GrammarStacks}

/-- One stack of `llama_grammar_accept_token` adds a stack if it reads the token. -/
theorem acceptTokenStack_settles (id : Nat) (cps : List Nat) (h : StackOk rules st)
    (hleaf : expandStack rules st = .ok none) (hn : Live rules newStacks) :
    ∃ out, Settles (fun fuel => acceptTokenStack rules fuel id cps st newStacks) out ∧
      Live rules out ∧ (out ≠ [] ↔ newStacks ≠ [] ∨ ReadsPiece rules id cps st) := by
  rcases h.of_leaf hleaf with rfl | ⟨p, rest, rfl, -, hrg | htok⟩
  · refine ⟨newStacks, .const _, hn, (or_iff_left ?_).symm⟩
    rintro (⟨p, rest, e, -⟩ | ⟨⟨p, rest, e, -⟩, -⟩) <;> cases e
  · have htok : ¬ ((elem rules p).type = .token ∨ (elem rules p).type = .tokenNot) :=
      fun ht => not_range_of_token ht hrg
    have hlive : Live rules [p :: rest] := fun st hst => by
      obtain rfl := mem_singleton.mp hst
      exact ⟨h, hleaf⟩
    obtain ⟨out, ⟨n, e⟩, hout, hmem⟩ := acceptWord_settles hv hr hl cps hlive
    refine ⟨addStacks newStacks out, ⟨n, fun m hm => ?_⟩, fun st hst => ?_, ?_⟩
    · have hm' := e m hm
      simp only at hm'
      simp only [acceptTokenStack, if_neg htok, hm']
    · rcases mem_addStacks.mp hst with hst | hst
      · exact hn st hst
      · exact hout st hst
    · have hreads : ReadsPiece rules id cps (p :: rest) ↔ ∃ st', st' ∈ out := by
        constructor
        · rintro (⟨q, rest', e, hq, -⟩ | ⟨-, st', hc⟩)
          · cases e
            exact absurd hrg (not_range_of_token hq)
          · exact ⟨st', (hmem st').mpr ⟨_, mem_singleton.mpr rfl, hc⟩⟩
        · rintro ⟨st', hst'⟩
          obtain ⟨st, hst, hc⟩ := (hmem st').mp hst'
          obtain rfl := mem_singleton.mp hst
          exact .inr ⟨⟨p, rest, rfl, hrg⟩, st', hc⟩
      have hne : ∀ l : GrammarStacks, l ≠ [] ↔ ∃ st, st ∈ l := fun l =>
        ⟨exists_mem_of_ne_nil l, fun ⟨st, hst⟩ => ne_nil_of_mem hst⟩
      rw [hreads, hne, hne]
      simp only [mem_addStacks, exists_or]
  · have hno : ReadsPiece rules id cps (p :: rest) ↔ matchToken rules p id = true := by
      constructor
      · rintro (⟨q, rest', e, -, hm⟩ | ⟨⟨q, rest', e, hrg⟩, -⟩)
        · cases e
          exact hm
        · cases e
          exact absurd hrg (not_range_of_token htok)
      · exact fun hm => .inl ⟨p, rest, rfl, htok, hm⟩
    rw [hno]
    by_cases hm : matchToken rules p id = true
    · have hseq : ItemSeq (suffix rules (p.add 1)) := by
        have hitem := (h p mem_cons_self).1
        have hne : (elem rules p).type ≠ .end_ := by
          rcases htok with ht | ht <;> simp [ht]
        obtain ⟨es, e1, e2⟩ := suffix_eq_cons hne
        rw [e1] at hitem
        obtain ⟨-, hes⟩ := itemElems_cons hitem
        rw [e2]
        exact itemSeq_of_itemElems hes (by
          rcases htok with ht | ht <;> simp [ht])
      obtain ⟨out, ⟨n, e⟩, hlive, hne, -⟩ :=
        advanceStack_settles hv hr hl (h.tail.pushUnlessEnd hseq) hn
      refine ⟨out, ⟨n, fun m hm' => ?_⟩, hlive, by simp [hne, hm]⟩
      dsimp only [acceptTokenStack]
      rw [if_pos (show (elem rules p).type = .token ∨ (elem rules p).type = .tokenNot from htok),
        if_pos hm]
      exact e m hm'
    · refine ⟨newStacks, ⟨0, fun m _ => ?_⟩, hn, by simp [hm]⟩
      dsimp only [acceptTokenStack]
      rw [if_pos (show (elem rules p).type = .token ∨ (elem rules p).type = .tokenNot from htok),
        if_neg hm]

theorem acceptTokenStacks_settles (id : Nat) (cps : List Nat) {curStacks : GrammarStacks}
    (h : Live rules curStacks) (hn : Live rules newStacks) :
    ∃ out, Settles (fun fuel => acceptTokenStacks rules fuel id cps curStacks newStacks) out ∧
      Live rules out ∧
        (out ≠ [] ↔ newStacks ≠ [] ∨ ∃ st ∈ curStacks, ReadsPiece rules id cps st) := by
  induction curStacks generalizing newStacks with
  | nil => exact ⟨newStacks, .const _, hn, by simp⟩
  | cons st curStacks ih =>
    obtain ⟨hok, hleaf⟩ := h st mem_cons_self
    obtain ⟨out1, e1, h1, hw1⟩ := acceptTokenStack_settles hv hr hl id cps hok hleaf hn
    obtain ⟨out2, e2, h2, hw2⟩ := ih (fun st hst => h st (mem_cons_of_mem _ hst)) h1
    obtain ⟨n, hm⟩ := e1.both e2
    refine ⟨out2, ⟨n, fun m hn => ?_⟩, h2, ?_⟩
    · simp only [acceptTokenStacks, hm m hn]
    · rw [hw2, hw1, or_assoc]
      simp

/-- `llama_grammar_accept_token` returns if some stack reads the token, and throws otherwise. -/
theorem acceptToken_settles (hg : g.rules = rules)
    (h : Live rules g.grammarStacks) (id : Nat) (piece : List UInt8) {cps : List Nat}
    (hc : (decodeUtf8 piece g.partialUtf8).1 = cps ++ [0]) :
    ∃ n r, (∀ m, n ≤ m → acceptToken m g id piece = r) ∧
      ((∃ st ∈ g.grammarStacks, ReadsPiece rules id cps st) ∧
        (∃ g', r = .ok g' ∧ g'.rules = rules ∧ Live rules g'.grammarStacks ∧
          g'.grammarStacks ≠ [] ∧ g'.awaitingTrigger = g.awaitingTrigger) ∨
      (¬ ∃ st ∈ g.grammarStacks, ReadsPiece rules id cps st) ∧ r = .error .emptyStack) := by
  subst hg
  obtain ⟨out, ⟨n, e⟩, hlive, hne⟩ := acceptTokenStacks_settles hv hr hl id cps h
    (fun st hst => absurd hst not_mem_nil)
  have hdrop : (decodeUtf8 piece g.partialUtf8).1.dropLast = cps := by simp [hc]
  have hne' : out ≠ [] ↔ ∃ st ∈ g.grammarStacks, ReadsPiece g.rules id cps st := by
    rw [hne]
    simp
  by_cases ho : out = []
  · refine ⟨n, .error .emptyStack, fun m hm => ?_, .inr ⟨fun hex => hne'.mpr hex ho, rfl⟩⟩
    have hm' := e m hm
    simp only at hm'
    simp only [acceptToken, hdrop, hm', ho, if_true]
  · refine ⟨n, .ok { g with
        grammarStacks := out
        partialUtf8 := (decodeUtf8 piece g.partialUtf8).2 }, fun m hm => ?_,
      .inl ⟨hne'.mp ho, _, rfl, rfl, hlive, ho, rfl⟩⟩
    have hm' := e m hm
    simp only at hm'
    simp only [acceptToken, hdrop, hm', ho, if_false]

omit hv hr hl in
theorem mem_grammarCandidates {start : PartialUtf8} : tok ∈ grammarCandidates vocab start ids ↔
      ∃ i id, ids[i]? = some id ∧ vocab.isEog id = false ∧ pieceEmpty (vocab.piece id) = false ∧
        tok = ⟨i, (decodeUtf8 (vocab.piece id) start).1, 0,
          (decodeUtf8 (vocab.piece id) start).2, id⟩ := by
  simp only [grammarCandidates, mem_filterMap, Prod.exists, mem_zipIdx_iff_getElem?]
  constructor
  · rintro ⟨id, i, hi, htok⟩
    split at htok
    · cases htok
    · next h =>
      obtain ⟨he, hp⟩ : vocab.isEog id = false ∧ pieceEmpty (vocab.piece id) = false := by
        simpa using h
      exact ⟨i, id, hi, he, hp, (Option.some.inj htok).symm⟩
  · rintro ⟨i, id, hi, he, hp, rfl⟩
    exact ⟨id, i, hi, by simp [he, hp]⟩

omit hv hr hl in
/-- A token with a piece is not rejected before the stacks are looked at. -/
theorem not_mem_rejectedAtOnce {i id : Nat} (hi : ids[i]? = some id) (he : vocab.isEog id = false)
    (hp : pieceEmpty (vocab.piece id) = false) : i ∉ rejectedAtOnce vocab allowEog ids := by
  simp only [rejectedAtOnce, mem_filterMap, Prod.exists, mem_zipIdx_iff_getElem?]
  rintro ⟨id', j, hj, hw⟩
  split at hw
  · next he' =>
    split at hw
    · cases hw
    · cases hw
      obtain rfl := Option.some.inj (hj.symm.trans hi)
      rw [he] at he'
      cases he'
  · split at hw
    · next hp' =>
      cases hw
      obtain rfl := Option.some.inj (hj.symm.trans hi)
      rw [hp] at hp'
      cases hp'
    · cases hw

omit hv hr hl in
/-- A token that ends the generation is rejected unless it is allowed, a token without text
always. -/
theorem mem_rejectedAtOnce {i id : Nat} (hi : ids[i]? = some id)
    (h : vocab.isEog id = true ∨ pieceEmpty (vocab.piece id) = true) :
    i ∈ rejectedAtOnce vocab allowEog ids ↔ ¬ (vocab.isEog id = true ∧ allowEog = true) := by
  simp only [rejectedAtOnce, mem_filterMap, Prod.exists, mem_zipIdx_iff_getElem?]
  constructor
  · rintro ⟨id', j, hj, hw⟩ ⟨he, rfl⟩
    split at hw
    · simp at hw
    · next he' =>
      split at hw
      · cases hw
        obtain rfl := Option.some.inj (hj.symm.trans hi)
        exact he' he
      · cases hw
  · intro hn
    refine ⟨id, i, hi, ?_⟩
    by_cases he : vocab.isEog id = true
    · rw [if_pos he, if_neg fun ha => hn ⟨he, ha⟩]
    · rw [if_neg he, if_pos (h.resolve_left he)]

omit hv hr hl in
theorem lt_maxDepth {candidates : List Candidate} (h : tok ∈ candidates) :
    tok.codePoints.length < maxDepth candidates := by
  induction candidates with
  | nil => cases h
  | cons a candidates ih =>
    have e : maxDepth (a :: candidates) = max (a.codePoints.length + 1) (maxDepth candidates) := rfl
    rcases mem_cons.mp h with rfl | h
    · omega
    · have := ih h
      omega

omit hv hr hl in
theorem maxDepth_pos (candidates : List Candidate) : 0 < maxDepth candidates := by
  induction candidates with
  | nil => exact Nat.one_pos
  | cons a candidates ih =>
    have e : maxDepth (a :: candidates) = max (a.codePoints.length + 1) (maxDepth candidates) := rfl
    omega

/-- `llama_grammar_apply_impl` leaves the logit of a candidate untouched if it waits for a trigger
or the candidate survives at some stack. -/
theorem applyImpl_settles (hg : g.rules = rules)
    (h : Live rules g.grammarStacks) (hne : g.grammarStacks ≠ []) (vocab : GrammarVocab)
    (ids : List Nat) :
    ∃ written, Settles (fun fuel => applyImpl vocab fuel g ids) written ∧
      (∀ i id, ids[i]? = some id → vocab.isEog id = false → pieceEmpty (vocab.piece id) = false →
        (i ∉ written ↔ g.awaitingTrigger = true ∨ ∃ st ∈ g.grammarStacks,
          Survives rules (decodeUtf8 (vocab.piece id) g.partialUtf8).2 id
            (decodeUtf8 (vocab.piece id) g.partialUtf8).1 st)) ∧
      ∀ i id, ids[i]? = some id → vocab.isEog id = true ∨ pieceEmpty (vocab.piece id) = true →
        (i ∉ written ↔ g.awaitingTrigger = true ∨
          vocab.isEog id = true ∧ g.grammarStacks.any List.isEmpty = true) := by
  subst hg
  by_cases ha : g.awaitingTrigger = true
  · exact ⟨[], ⟨0, fun m _ => by simp [applyImpl, ha]⟩, fun i id _ _ _ => by simp [ha],
      fun i id _ _ => by simp [ha]⟩
  · obtain ⟨rejects, ⟨n, e⟩, hrej⟩ := rejectCandidates_filters hne
      (fun _ st hst candidates hd => rejectForStack_filters hv hr hl
        (maxDepth_pos (grammarCandidates vocab g.partialUtf8 ids)) (h st hst).1 (h st hst).2 hd)
      fun tok ht => lt_of_le_of_lt (by simp [Candidate.rest]) (lt_maxDepth ht)
    refine ⟨rejectedAtOnce vocab (g.grammarStacks.any List.isEmpty) ids ++ rejects.map (·.index),
      ⟨n, fun m hm => ?_⟩, fun i id hi he hp => ?_, fun i id hi hep => ?_⟩
    · have hm' := e m hm
      simp only at hm'
      simp only [applyImpl, ha, hm']
      rfl
    · -- the rejected candidates have the index of their token
      have hidx : i ∈ rejects.map (·.index) ↔ ∀ st ∈ g.grammarStacks,
          ¬ Survives g.rules (decodeUtf8 (vocab.piece id) g.partialUtf8).2 id
            (decodeUtf8 (vocab.piece id) g.partialUtf8).1 st := by
        rw [mem_map]
        constructor
        · rintro ⟨tok, ht, rfl⟩
          obtain ⟨hmem, hk⟩ := (hrej tok).mp ht
          obtain ⟨j, id', hj, -, -, rfl⟩ := mem_grammarCandidates.mp hmem
          obtain rfl := Option.some.inj (hj.symm.trans hi)
          exact hk
        · exact fun hk => ⟨_, (hrej _).mpr
            ⟨mem_grammarCandidates.mpr ⟨i, id, hi, he, hp, rfl⟩, hk⟩, rfl⟩
      rw [mem_append, not_or, hidx, or_iff_right ha]
      simp [not_mem_rejectedAtOnce hi he hp]
    · -- no candidate has this index
      have hidx : i ∉ rejects.map (·.index) := by
        rw [mem_map]
        rintro ⟨tok, ht, rfl⟩
        obtain ⟨j, id', hj, he, hp, rfl⟩ := mem_grammarCandidates.mp ((hrej tok).mp ht).1
        obtain rfl := Option.some.inj (hj.symm.trans hi)
        rw [he, hp] at hep
        exact absurd hep (by decide)
      rw [mem_append, or_iff_left hidx, mem_rejectedAtOnce hi hep, or_iff_right ha, not_not]

/-- The initial stacks are live, and there is one if the start rule has an alternative. -/
theorem initStacks_settles {start : Nat} {starts : List Nat}
    (hs : ∀ i ∈ starts, ItemSeq (suffix rules ⟨start, i⟩)) (hn : Live rules newStacks) :
    ∃ out, Settles (fun fuel => initStacks rules fuel start starts newStacks) out ∧
      Live rules out ∧ (starts ≠ [] ∨ newStacks ≠ [] → out ≠ []) := by
  induction starts generalizing newStacks with
  | nil => exact ⟨newStacks, .const _, hn, fun h => h.resolve_left fun h => h rfl⟩
  | cons i starts ih =>
    obtain ⟨out1, e1, h1, hne, -⟩ := advanceStack_settles hv hr hl
      (StackOk.nil.pushUnlessEnd (hs i mem_cons_self)) hn
    obtain ⟨out2, e2, h2, hne2⟩ := ih (fun j hj => hs j (mem_cons_of_mem _ hj)) h1
    obtain ⟨n, hm⟩ := e1.both e2
    refine ⟨out2, ⟨n, fun m hn => ?_⟩, h2, fun _ => hne2 (.inr hne)⟩
    simp only [initStacks, hm m hn]

/-- `llama_grammar_accept_str` that returns leaves live stacks. -/
theorem acceptStr_live {g g' : GrammarState} (hg : g.rules = rules)
    (h : Live rules g.grammarStacks) {piece : List UInt8}
    (hs : Settles (fun fuel => acceptStr fuel g piece) g') :
    g'.rules = rules ∧ Live rules g'.grammarStacks ∧ g'.grammarStacks ≠ [] := by
  subst hg
  obtain ⟨out, ⟨n, e⟩, hlive, -⟩ :=
    acceptWord_settles hv hr hl (decodeUtf8 piece g.partialUtf8).1.dropLast h
  obtain ⟨n', e'⟩ := hs
  have h1 := e (max n n') (le_max_left _ _)
  have h2 := e' (max n n') (le_max_right _ _)
  simp only at h1 h2
  simp only [acceptStr, h1] at h2
  split at h2
  · cases h2
  · next hne =>
    cases h2
    exact ⟨rfl, hlive, hne⟩

end Calls

/-! ## Runs -/

/-- What a sampler does with a grammar. -/
inductive GrammarOp where
  | acceptToken (token : Nat) (piece : List UInt8)
  | acceptStr (piece : List UInt8)
  /-- The end of `awaiting_trigger`. -/
  | trigger
  deriving DecidableEq, Repr

/-- The runs of a grammar: `llama_grammar_init_impl` and the calls that return. -/
def grammarSys (rawRules : List (List GrammarElement)) (start : Nat) :
    Sys GrammarState GrammarOp where
  init g := g.rules = rawRules.map copyRule ∧ g.partialUtf8 = {} ∧
    Settles (fun fuel => initImpl fuel rawRules start) (some (g.rules, g.grammarStacks))
  step g op g' := match op with
    | .acceptToken token piece => Settles (fun fuel => acceptToken fuel g token piece) g'
    | .acceptStr piece => Settles (fun fuel => acceptStr fuel g piece) g'
    | .trigger => g' = { g with awaitingTrigger := false }

/-- The invariant of the runs. -/
structure GrammarOk (rules : GrammarRules) (g : GrammarState) : Prop where
  rules_eq : g.rules = rules
  refs : refsValid rules = true
  live : Live rules g.grammarStacks
  ne : g.grammarStacks ≠ []

section Runs

variable {rawRules : List (List GrammarElement)} {start : Nat}
  (hr : ∀ rule ∈ rawRules.map copyRule, ItemRule rule)
  (hl : ¬ LeftRecursive (alts (rawRules.map copyRule)))

include hr hl

theorem initImpl_ok {g : GrammarState} (h : (grammarSys rawRules start).init g) :
    GrammarOk (rawRules.map copyRule) g := by
  obtain ⟨hrules, -, n, e⟩ := h
  have hn := e n le_rfl
  have hv : refsValid (rawRules.map copyRule) = true := by
    by_contra hv
    have hf := Bool.eq_false_iff.mpr hv
    simp [initImpl, hf] at hn
  have hitems : ∀ i ∈ altStarts ((rawRules.map copyRule).getD start []),
      ItemSeq (suffix (rawRules.map copyRule) ⟨start, i⟩) := fun i hi => itemSeq_altStarts hr hi
  obtain ⟨out, ⟨n', e'⟩, hlive, hne⟩ := initStacks_settles hv hr hl hitems
    (fun st hst => absurd hst not_mem_nil)
  have h1 := e (max n n') (le_max_left _ _)
  have h2 := e' (max n n') (le_max_right _ _)
  simp only at h1 h2
  simp only [initImpl, hv, h2] at h1
  split at h1
  · simp at h1
  · split at h1
    · simp at h1
    · simp only [Except.ok.injEq, Option.some.injEq, Prod.mk.injEq] at h1
      obtain ⟨-, rfl⟩ := h1
      exact ⟨hrules, hv, hlive, hne (.inl (by simp [altStarts]))⟩

theorem step_ok {g g' : GrammarState} {op : GrammarOp} (h : GrammarOk (rawRules.map copyRule) g)
    (hs : (grammarSys rawRules start).step g op g') : GrammarOk (rawRules.map copyRule) g' := by
  cases op with
  | acceptToken token piece =>
    obtain ⟨cps, hc⟩ : ∃ cps, (decodeUtf8 piece g.partialUtf8).1 = cps ++ [0] := by
      unfold decodeUtf8
      split
      · exact ⟨[], rfl⟩
      · exact decodeLoop_getLast _ _ _ _
    obtain ⟨n, r, e, hcase⟩ := acceptToken_settles h.refs hr hl h.rules_eq h.live token piece hc
    obtain ⟨n', e'⟩ := hs
    have h1 := e (max n n') (le_max_left _ _)
    have h2 := e' (max n n') (le_max_right _ _)
    simp only at h2
    rw [h2] at h1
    subst h1
    rcases hcase with ⟨-, g1, e1, hrules, hlive, hne, -⟩ | ⟨-, e1⟩
    · cases e1
      exact ⟨hrules, h.refs, hlive, hne⟩
    · cases e1
  | acceptStr piece =>
    obtain ⟨hrules, hlive, hne⟩ := acceptStr_live h.refs hr hl h.rules_eq h.live hs
    exact ⟨hrules, h.refs, hlive, hne⟩
  | trigger =>
    obtain rfl : g' = _ := hs
    exact ⟨h.rules_eq, h.refs, h.live, h.ne⟩

theorem grammarSys_inductive : Sys.Inductive (grammarSys rawRules start) (fun _ _ => True)
    (GrammarOk (rawRules.map copyRule)) where
  init _ h := initImpl_ok hr hl h
  step _ _ _ h _ hs _ := step_ok hr hl h hs

end Runs

/-! ## Agreement -/

/-- `llama_grammar_apply_impl` leaves the logit of the token at index `i` untouched. -/
def Untouched (vocab : GrammarVocab) (g : GrammarState) (ids : List Nat) (i : Nat) : Prop :=
  ∃ written, Settles (fun fuel => applyImpl vocab fuel g ids) written ∧ i ∉ written

/-- `llama_grammar_accept_token` returns. -/
def Accepted (g : GrammarState) (id : Nat) (piece : List UInt8) : Prop :=
  ∃ g', Settles (fun fuel => acceptToken fuel g id piece) g'

/-- What `llama_grammar_apply_impl` leaves is accepted, and on a boundary of UTF-8 the other way
round, if and only if a stack reads the token whenever the grammar waits for a trigger or a stack
keeps the token by a detour. -/
theorem apply_accept_agree {rawRules : List (List GrammarElement)} {start : Nat}
    (hr : ∀ rule ∈ rawRules.map copyRule, ItemRule rule)
    (hl : ¬ LeftRecursive (alts (rawRules.map copyRule))) {g : GrammarState}
    (hg : (grammarSys rawRules start).Reach (fun _ _ => True) g) (vocab : GrammarVocab)
    {ids : List Nat} {i id : Nat} (hi : ids[i]? = some id) (he : vocab.isEog id = false)
    (hp : pieceEmpty (vocab.piece id) = false) :
    ((Untouched vocab g ids i → Accepted g id (vocab.piece id)) ∧
      ((decodeUtf8 (vocab.piece id) g.partialUtf8).2.nRemain = 0 →
        Accepted g id (vocab.piece id) → Untouched vocab g ids i)) ↔
      ((g.awaitingTrigger = true ∨ ∃ st ∈ g.grammarStacks,
          Detours g.rules (decodeUtf8 (vocab.piece id) g.partialUtf8).2 id
            (decodeUtf8 (vocab.piece id) g.partialUtf8).1.dropLast st) →
        ∃ st ∈ g.grammarStacks, ReadsPiece g.rules id
          (decodeUtf8 (vocab.piece id) g.partialUtf8).1.dropLast st) := by
  have hok := hg.inv (grammarSys_inductive hr hl)
  rw [hok.rules_eq]
  obtain ⟨cps, hc, hcne⟩ := decodeUtf8_spec hp g.partialUtf8
  obtain ⟨written, hset, hw, -⟩ :=
    applyImpl_settles hok.refs hr hl hok.rules_eq hok.live hok.ne vocab ids
  obtain ⟨n, r, er, hcase⟩ :=
    acceptToken_settles hok.refs hr hl hok.rules_eq hok.live id (vocab.piece id) hc
  have hunt : Untouched vocab g ids i ↔ g.awaitingTrigger = true ∨ ∃ st ∈ g.grammarStacks,
      Survives (rawRules.map copyRule) (decodeUtf8 (vocab.piece id) g.partialUtf8).2 id
        (cps ++ [0]) st := by
    rw [← hc, ← hw i id hi he hp]
    exact ⟨fun ⟨w, hset', hni⟩ => hset.unique hset' ▸ hni, fun hni => ⟨written, hset, hni⟩⟩
  have hacc : Accepted g id (vocab.piece id) ↔
      ∃ st ∈ g.grammarStacks, ReadsPiece (rawRules.map copyRule) id cps st := by
    constructor
    · rintro ⟨g', n', e'⟩
      refine (hcase.resolve_right fun h => ?_).1
      have h1 := e' (max n n') (le_max_right _ _)
      simp only [er (max n n') (le_max_left _ _), h.2] at h1
      cases h1
    · intro hread
      obtain ⟨-, g', rfl, -⟩ := hcase.resolve_right fun h => h.1 hread
      exact ⟨g', n, er⟩
  have hdrop : (decodeUtf8 (vocab.piece id) g.partialUtf8).1.dropLast = cps := by simp [hc]
  rw [hdrop, hunt, hacc]
  constructor
  · rintro ⟨h, -⟩ (ha | ⟨st, hst, hd⟩)
    · exact h (.inl ha)
    · exact h (.inr ⟨st, hst, hd.survives⟩)
  · intro h
    refine ⟨?_, fun hu ⟨st, hst, hread⟩ => .inr ⟨st, hst, hread.survives hu (hcne hu)⟩⟩
    rintro (ha | ⟨st, hst, hs⟩)
    · exact h (.inl ha)
    · by_cases hd : Detours (rawRules.map copyRule)
          (decodeUtf8 (vocab.piece id) g.partialUtf8).2 id cps st
      · exact h (.inr ⟨st, hst, hd⟩)
      · exact ⟨st, hst, .of_survives hcne hs hd⟩

/-- `root ::= "a" <[5]>`. -/
def tokenBehindA : List (List GrammarElement) := [[⟨.char, 97⟩, ⟨.token, 5⟩, ⟨.end_, 0⟩]]

/-- The tokens `4` and `5` have the pieces `a` and `ab`. -/
def twoPieces : GrammarVocab where
  piece id := if id = 5 then [97, 98] else [97]
  isEog _ := false

theorem tokenBehindA_alts (r : Nat) : ∀ rhs ∈ alts (tokenBehindA.map copyRule) r, rhs = [] ∨
    rhs = [.term [⟨.char, 97⟩], .term [⟨.token, 5⟩]] := by
  cases r with
  | zero => decide
  | succ r =>
    have e : alts (tokenBehindA.map copyRule) (r + 1) = [[]] := rfl
    rw [e]
    simp

theorem tokenBehindA_not_leftRecursive : ¬ LeftRecursive (alts (tokenBehindA.map copyRule)) := by
  refine not_leftRecursive_of_terms fun r rhs hrhs q ss => ?_
  rcases tokenBehindA_alts r rhs hrhs with rfl | rfl <;> simp

/-- The grammar as it is initialised. -/
def tokenBehindA_start : GrammarState :=
  { rules := tokenBehindA.map copyRule, grammarStacks := [[⟨0, 0⟩]] }

theorem tokenBehindA_reach :
    (grammarSys tokenBehindA 0).Reach (fun _ _ => True) tokenBehindA_start := by
  refine .init ⟨rfl, rfl, 3, fun m hm => ?_⟩
  obtain ⟨k, rfl⟩ := Nat.exists_eq_add_of_le' hm
  rfl

/-- The token `a` agrees. -/
theorem apply_accept_agree_a :
    ((Untouched twoPieces tokenBehindA_start [4] 0 → Accepted tokenBehindA_start 4 [97]) ∧
      ((decodeUtf8 [97] {}).2.nRemain = 0 → Accepted tokenBehindA_start 4 [97] →
        Untouched twoPieces tokenBehindA_start [4] 0)) ↔
      ((false = true ∨ ∃ st ∈ [[⟨0, 0⟩]], Detours (tokenBehindA.map copyRule)
          (decodeUtf8 [97] {}).2 4 (decodeUtf8 [97] {}).1.dropLast st) →
        ∃ st ∈ [[⟨0, 0⟩]], ReadsPiece (tokenBehindA.map copyRule) 4
          (decodeUtf8 [97] {}).1.dropLast st) :=
  apply_accept_agree (by decide) tokenBehindA_not_leftRecursive tokenBehindA_reach twoPieces rfl
    rfl rfl

/-- The token `ab` is left by the filter, since its token element stands behind the character `a`,
but it is not accepted. -/
theorem apply_accept_disagree : ¬ ∀ (rawRules : List (List GrammarElement)) (start : Nat),
      (∀ rule ∈ rawRules.map copyRule, ItemRule rule) →
      ¬ LeftRecursive (alts (rawRules.map copyRule)) →
      ∀ g, (grammarSys rawRules start).Reach (fun _ _ => True) g →
      g.awaitingTrigger = false →
      ∀ (vocab : GrammarVocab) (ids : List Nat) (i id : Nat), ids[i]? = some id →
      vocab.isEog id = false → pieceEmpty (vocab.piece id) = false →
      Untouched vocab g ids i → Accepted g id (vocab.piece id) := by
  intro h
  obtain ⟨g', n, e⟩ := h tokenBehindA 0 (by decide) tokenBehindA_not_leftRecursive
    tokenBehindA_start tokenBehindA_reach rfl twoPieces [5] 0 5 rfl rfl rfl
    ⟨[], ⟨3, fun m hm => by
      obtain ⟨k, rfl⟩ := Nat.exists_eq_add_of_le' hm
      rfl⟩, not_mem_nil⟩
  have e1 : ∀ k, acceptToken (k + 3) tokenBehindA_start 5 [97, 98] = .error .emptyStack :=
    fun k => rfl
  have e2 := e (n + 3) (by omega)
  change acceptToken (n + 3) tokenBehindA_start 5 [97, 98] = .ok g' at e2
  rw [e1] at e2
  cases e2

end BeeLlama.Grammar
