import BeeLlama.Grammar.Utf8

/-!
# Text in pieces (`decode_utf8`, `llama_grammar_accept_str`, `llama_grammar_accept_token`)

`llama_partial_utf8` goes from one piece of a text to the next, so a piece may end inside of a
character.

* `decodePieces_of_feed`: the pieces have the code points of the whole text, and end in the same
  state.
* `acceptStrs_of_feed`: `llama_grammar_accept_str` for the pieces is that for the whole text.
* `acceptTokens_settles`: `llama_grammar_accept_token` reaches the stacks of the whole text, but a
  piece that completes no character drops the stack that is finished.
* `text_cut`: the three together, for any cut of a text.
-/

namespace BeeLlama
namespace Grammar

open Cfg List

/-! ## Well-formed text -/

/-- The bytes begin a text of well-formed UTF-8. -/
def BeginsText (bs : List UInt8) : Prop :=
  ∃ cs : List Char, bs <+: cs.flatMap String.utf8EncodeChar

variable {bs : List UInt8}

/-- The complete characters of the bytes, and what there is of the next one. -/
theorem BeginsText.split (h : BeginsText bs) : ∃ (cs : List Char) (c : Char) (l r : List UInt8),
      bs = cs.flatMap String.utf8EncodeChar ++ l ∧ String.utf8EncodeChar c = l ++ r ∧ r ≠ [] := by
  obtain ⟨cs, rest, h⟩ := h
  induction cs generalizing bs with
  | nil =>
    obtain ⟨rfl, -⟩ := append_eq_nil_iff.mp h
    exact ⟨[], 'a', [], String.utf8EncodeChar 'a', rfl, rfl, String.utf8EncodeChar_ne_nil⟩
  | cons c cs ih =>
    rcases append_eq_append_iff.mp h with ⟨r, e, -⟩ | ⟨l, rfl, e⟩
    · by_cases hr : r = []
      · rw [hr, append_nil] at e
        exact ⟨[c], 'a', [], String.utf8EncodeChar 'a', by simp [e], rfl,
          String.utf8EncodeChar_ne_nil⟩
      · exact ⟨[], c, bs, r, rfl, e, hr⟩
    · obtain ⟨cs', c', l', r, rfl, e', hr⟩ := ih e.symm
      exact ⟨c :: cs', c', l', r, by simp, e', hr⟩

/-- The bytes of a text are fed without an error. -/
theorem BeginsText.feed (h : BeginsText bs) {u : PartialUtf8}
    (hu : u.nRemain = 0) : ∃ (cs : List Char) (c : Char) (l r : List UInt8) (v : PartialUtf8),
      bs = cs.flatMap String.utf8EncodeChar ++ l ∧ String.utf8EncodeChar c = l ++ r ∧ r ≠ [] ∧
        feed u bs = some (v, cs.map Char.toNat) := by
  obtain ⟨cs, c, l, r, rfl, e, hr⟩ := h.split
  obtain ⟨v, hv⟩ := feed_encode hu cs
  by_cases hl : l = []
  · exact ⟨cs, c, l, r, _, rfl, e, hr, by rw [hl, append_nil]; exact hv⟩
  · refine ⟨cs, c, l, r, _, rfl, e, hr, feed_append.mpr ⟨_, _, _, hv,
      feed_encode_append (u := ⟨v, 0⟩) le_rfl e hl, ?_⟩⟩
    rw [if_neg hr, append_nil]

/-! ## Decoding -/

/-- `decode_utf8` for each piece: the code points without their terminators, and the last
state. -/
def decodePieces : List (List UInt8) → PartialUtf8 → List Nat × PartialUtf8
  | [], u => ([], u)
  | piece :: pieces, u =>
    let d := decodeUtf8 piece u
    let r := decodePieces pieces d.2
    (d.1.dropLast ++ r.1, r.2)

variable {pieces : List (List UInt8)}

theorem decodePieces_of_feed {u v : PartialUtf8} {cps : List Nat}
    (h0 : ∀ b ∈ pieces.flatten, b ≠ 0) (h : feed u pieces.flatten = some (v, cps)) :
    decodePieces pieces u = (cps, v) := by
  induction pieces generalizing u cps with
  | nil =>
    cases h
    rfl
  | cons piece pieces ih =>
    rw [flatten_cons] at h h0
    obtain ⟨u1, c1, c2, h1, h2, rfl⟩ := feed_append.mp h
    have hd := decodeUtf8_of_feed (fun b hb => h0 b (mem_append_left _ hb)) h1
    simp [decodePieces, hd, ih (fun b hb => h0 b (mem_append_right _ hb)) h2]

/-! ## `llama_grammar_accept_str` -/

/-- `llama_grammar_accept_str` for each piece. -/
def acceptStrs (fuel : Nat) (g : GrammarState) : List (List UInt8) →
    Except GrammarError GrammarState
  | [] => .ok g
  | piece :: pieces =>
    match acceptStr fuel g piece with
    | .error e => .error e
    | .ok g => acceptStrs fuel g pieces

theorem acceptWord_append (rules : GrammarRules) (fuel : Nat) (v w : List Nat)
    (curStacks : GrammarStacks) : acceptWord rules fuel (v ++ w) curStacks =
      acceptWord rules fuel v curStacks >>= acceptWord rules fuel w := by
  induction v generalizing curStacks with
  | nil => rfl
  | cons c v ih =>
    rw [cons_append, acceptWord, acceptWord]
    cases accept rules fuel curStacks c with
    | error e => rfl
    | ok s => exact ih s

@[simp] theorem acceptWord_nil_stacks (rules : GrammarRules) (fuel : Nat) (w : List Nat) :
    acceptWord rules fuel w [] = .ok [] := by
  induction w with
  | nil => rfl
  | cons c w ih => exact ih

/-- `llama_grammar_accept_str` for bytes of a text. -/
theorem acceptStr_of_feed {g : GrammarState} {v : PartialUtf8} {cps : List Nat}
    (h0 : ∀ b ∈ bs, b ≠ 0) (h : feed g.partialUtf8 bs = some (v, cps)) (fuel : Nat) :
    acceptStr fuel g bs = acceptWord g.rules fuel cps g.grammarStacks >>= fun s =>
      if s = [] then .error .emptyStack
      else .ok { g with grammarStacks := s, partialUtf8 := v } := by
  unfold acceptStr
  rw [decodeUtf8_of_feed h0 h]
  dsimp only
  rw [dropLast_concat]
  cases acceptWord g.rules fuel cps g.grammarStacks <;> rfl

/-- The pieces are accepted as the whole text is. -/
theorem acceptStrs_of_feed (fuel : Nat) {g : GrammarState} {v : PartialUtf8} {cps : List Nat}
    (h0 : ∀ b ∈ pieces.flatten, b ≠ 0) (h : feed g.partialUtf8 pieces.flatten = some (v, cps))
    (hne : g.grammarStacks = [] → pieces ≠ []) :
    acceptStrs fuel g pieces = acceptStr fuel g pieces.flatten := by
  rw [acceptStr_of_feed h0 h]
  induction pieces generalizing g cps with
  | nil =>
    cases h
    have hst : g.grammarStacks ≠ [] := fun e => hne e rfl
    show Except.ok g = if g.grammarStacks = [] then _ else _
    rw [if_neg hst]
  | cons piece pieces ih =>
    rw [flatten_cons] at h h0
    obtain ⟨u1, c1, c2, h1, h2, rfl⟩ := feed_append.mp h
    rw [acceptStrs, acceptStr_of_feed (fun b hb => h0 b (mem_append_left _ hb)) h1,
      acceptWord_append]
    cases acceptWord g.rules fuel c1 g.grammarStacks with
    | error e => rfl
    | ok s =>
      have hbind : ∀ {α : Type} (f : GrammarStacks → Except GrammarError α),
          (Except.ok s >>= f) = f s := fun _ => rfl
      rw [hbind, hbind]
      by_cases hs : s = []
      · simp only [hs, if_true, acceptWord_nil_stacks]
        rfl
      · rw [if_neg hs]
        exact @ih { g with grammarStacks := s, partialUtf8 := u1 } c2
          (fun b hb => h0 b (mem_append_right _ hb)) h2 fun e => absurd e hs

/-! ## `llama_grammar_accept_token` -/

/-- `llama_grammar_accept_token` for each token with its piece. -/
def acceptTokens (fuel : Nat) (g : GrammarState) : List (Nat × List UInt8) →
    Except GrammarError GrammarState
  | [] => .ok g
  | tok :: toks =>
    match acceptToken fuel g tok.1 tok.2 with
    | .error e => .error e
    | .ok g => acceptTokens fuel g toks

/-- The code points that the last piece completes. -/
def lastCodePoints : List (List UInt8) → PartialUtf8 → List Nat
  | [], _ => []
  | [piece], u => (decodeUtf8 piece u).1.dropLast
  | piece :: piece' :: pieces, u => lastCodePoints (piece' :: pieces) (decodeUtf8 piece u).2

theorem lastCodePoints_suffix {u v : PartialUtf8} {cps : List Nat}
    (h0 : ∀ b ∈ pieces.flatten, b ≠ 0) (h : feed u pieces.flatten = some (v, cps)) :
    lastCodePoints pieces u <:+ cps := by
  induction pieces generalizing u cps with
  | nil => exact nil_suffix
  | cons piece pieces ih =>
    rw [flatten_cons] at h h0
    obtain ⟨u1, c1, c2, h1, h2, rfl⟩ := feed_append.mp h
    have hd := decodeUtf8_of_feed (fun b hb => h0 b (mem_append_left _ hb)) h1
    cases pieces with
    | nil =>
      cases h2
      simp [lastCodePoints, hd]
    | cons piece' pieces =>
      rw [lastCodePoints, hd]
      exact (ih (fun b hb => h0 b (mem_append_right _ hb)) h2).trans
        (suffix_append c1 c2)

/-- A call has the result `r` if its fuel is enough. -/
def Ends {α : Type} (f : Nat → Except GrammarError α) (r : Except GrammarError α) : Prop :=
  ∃ n, ∀ m, n ≤ m → f m = r

/-- What `llama_grammar_accept_token` does with the stacks that are left. -/
def withStacks (g : GrammarState) (stacksNew : GrammarStacks) (u : PartialUtf8) :
    Except GrammarError GrammarState :=
  if stacksNew = [] then .error .emptyStack
  else .ok { g with grammarStacks := stacksNew, partialUtf8 := u }

section Tokens

variable {rules : GrammarRules} (hv : refsValid rules = true)
  (hr : ∀ rule ∈ rules, CharRule rule) (hl : ¬ LeftRecursive (alts rules))

include hv hr hl

/-- The stacks of a token, in a grammar without token elements: those that the code points lead to
from a stack that is not finished. -/
theorem acceptTokenStacks_mem (id : Nat) (cps : List Nat) {curStacks : GrammarStacks}
    (h : Live rules curStacks) {newStacks : GrammarStacks} (hn : Live rules newStacks) :
    ∃ out, Settles (fun fuel => acceptTokenStacks rules fuel id cps curStacks newStacks) out ∧
      Live rules out ∧ ∀ st', st' ∈ out ↔ st' ∈ newStacks ∨
        ∃ st ∈ curStacks, st ≠ [] ∧ Consumes rules cps st st' := by
  induction curStacks generalizing newStacks with
  | nil => exact ⟨newStacks, .const _, hn, by simp⟩
  | cons st curStacks ih =>
    have hrest : Live rules curStacks := fun st hst => h st (mem_cons_of_mem _ hst)
    obtain ⟨hok, hleaf⟩ := h st mem_cons_self
    rcases hok.of_leaf hleaf with rfl | ⟨p, rest, rfl, -, hrg⟩
    · -- a stack that is finished is skipped
      obtain ⟨out, ⟨n, e⟩, hlive, hmem⟩ := ih hrest hn
      refine ⟨out, ⟨n, fun m hm => e m hm⟩, hlive, fun st' => ?_⟩
      rw [hmem]
      simp
    · have htok : ¬ ((elem rules p).type = .token ∨ (elem rules p).type = .tokenNot) := by
        obtain ⟨rule, hrule, hmem⟩ := elem_mem (isEndOfSequence_eq_false (hok p mem_cons_self).2).1
        exact (hr rule hrule).no_token _ hmem
      have hone : Live rules [p :: rest] := fun st hst => by
        obtain rfl := mem_singleton.mp hst
        exact ⟨hok, hleaf⟩
      obtain ⟨word, e1, hword, hmem1⟩ :=
        acceptWord_settles hv (fun rule hrule => (hr rule hrule).items) hl cps hone
      have hadd : Live rules (addStacks newStacks word) := fun st hst =>
        (mem_addStacks.mp hst).elim (hn st) (hword st)
      obtain ⟨out, e2, hlive, hmem⟩ := ih hrest hadd
      obtain ⟨n, hm⟩ := e1.both e2
      refine ⟨out, ⟨n, fun m hn => ?_⟩, hlive, fun st' => ?_⟩
      · simp only [acceptTokenStacks, acceptTokenStack, if_neg htok, hm m hn]
      · rw [hmem, mem_addStacks, hmem1]
        simp [or_assoc]

/-- `llama_grammar_accept_token` for bytes of a text. -/
theorem acceptToken_of_feed {g : GrammarState} (hg : g.rules = rules)
    (h : Live rules g.grammarStacks) (id : Nat) {bs : List UInt8} {v : PartialUtf8}
    {cps : List Nat} (h0 : ∀ b ∈ bs, b ≠ 0) (hf : feed g.partialUtf8 bs = some (v, cps)) :
    ∃ out, Live rules out ∧ Ends (fun fuel => acceptToken fuel g id bs) (withStacks g out v) ∧
      ∀ st', st' ∈ out ↔ ∃ st ∈ g.grammarStacks, st ≠ [] ∧ Consumes rules cps st st' := by
  subst hg
  obtain ⟨out, ⟨n, e⟩, hlive, hmem⟩ := acceptTokenStacks_mem hv hr hl id cps h
    (fun st hst => absurd hst not_mem_nil)
  refine ⟨out, hlive, ⟨n, fun m hm => ?_⟩, fun st' => ?_⟩
  · have hm' := e m hm
    simp only at hm'
    simp only [acceptToken, decodeUtf8_of_feed h0 hf, dropLast_concat, hm', withStacks]
  · rw [hmem]
    simp

omit hv hr hl in
theorem consumes_append {v w : List Nat} {st st' : GrammarStack} :
    Consumes rules (v ++ w) st st' ↔ ∃ st₁, Consumes rules v st st₁ ∧ Consumes rules w st₁ st' := by
  induction v generalizing st with
  | nil => simp [Consumes]
  | cons c v ih =>
    simp only [cons_append, Consumes, ih]
    constructor
    · rintro ⟨st₁, hs, st2, h1, h2⟩
      exact ⟨st2, ⟨st₁, hs, h1⟩, h2⟩
    · rintro ⟨st2, ⟨st₁, hs, h1⟩, h2⟩
      exact ⟨st₁, hs, st2, h1, h2⟩

omit hv hr hl in
/-- Only a stack that is not finished consumes a code point. -/
theorem Consumes.ne_nil {w : List Nat} {st st' : GrammarStack} (h : Consumes rules w st st')
    (hw : w ≠ []) : st ≠ [] := by
  cases w with
  | nil => exact absurd rfl hw
  | cons c w =>
    obtain ⟨st1, ⟨p, rest, after, rfl, -⟩, -⟩ := h
    exact cons_ne_nil p rest

/-- The stacks after the pieces: those after the whole text, without the finished one if the last
piece completes no character. -/
theorem acceptTokens_settles {toks : List (Nat × List UInt8)} (hne : toks ≠ [])
    {g : GrammarState} (hg : g.rules = rules) (h : Live rules g.grammarStacks) {v : PartialUtf8}
    {cps : List Nat} (h0 : ∀ b ∈ (toks.map Prod.snd).flatten, b ≠ 0)
    (hf : feed g.partialUtf8 (toks.map Prod.snd).flatten = some (v, cps)) :
    ∃ out, Live rules out ∧ Ends (fun fuel => acceptTokens fuel g toks) (withStacks g out v) ∧
      ∀ st', st' ∈ out ↔ (∃ st ∈ g.grammarStacks, st ≠ [] ∧ Consumes rules cps st st') ∧
        (lastCodePoints (toks.map Prod.snd) g.partialUtf8 = [] → st' ≠ []) := by
  induction toks generalizing g cps with
  | nil => exact absurd rfl hne
  | cons tok toks ih =>
    rw [map_cons, flatten_cons] at hf h0
    obtain ⟨u1, c1, c2, h1, h2, rfl⟩ := feed_append.mp hf
    have h0₁ : ∀ b ∈ tok.2, b ≠ 0 := fun b hb => h0 b (mem_append_left _ hb)
    obtain ⟨s, hlive, ⟨n1, e1⟩, hmem1⟩ := acceptToken_of_feed hv hr hl hg h tok.1 h0₁ h1
    cases toks with
    | nil =>
      -- the last piece
      obtain ⟨rfl, rfl⟩ := Prod.mk.inj (Option.some.inj h2)
      refine ⟨s, hlive, ⟨n1, fun m hm => ?_⟩, fun st' => ?_⟩
      · have hm' := e1 m hm
        simp only at hm'
        simp only [acceptTokens, hm']
        cases withStacks g s u1 <;> rfl
      · rw [hmem1, append_nil]
        refine (and_iff_left_of_imp ?_).symm
        rintro ⟨st, hst, hne', hc⟩ hlast
        simp only [map_cons, map_nil, lastCodePoints, decodeUtf8_of_feed h0₁ h1,
          dropLast_concat] at hlast
        subst hlast
        obtain rfl : st = st' := hc
        exact hne'
    | cons tok' toks =>
      by_cases hs : s = []
      · -- no stack is left, and the whole text leaves none
        refine ⟨[], fun st hst => absurd hst not_mem_nil, ⟨n1, fun m hm => ?_⟩, fun st' => ?_⟩
        · have hm' := e1 m hm
          simp only at hm'
          simp [acceptTokens, hm', withStacks, hs]
        · refine iff_of_false not_mem_nil ?_
          rintro ⟨⟨st, hst, hne', hc⟩, -⟩
          obtain ⟨st1, hc1, -⟩ := consumes_append.mp hc
          have := (hmem1 st1).mpr ⟨st, hst, hne', hc1⟩
          rw [hs] at this
          exact not_mem_nil this
      · have h0₂ : ∀ b ∈ ((tok' :: toks).map Prod.snd).flatten, b ≠ 0 :=
          fun b hb => h0 b (mem_append_right _ hb)
        obtain ⟨out, hout, ⟨n2, e2⟩, hmem⟩ := ih (cons_ne_nil _ _)
          (g := { g with grammarStacks := s, partialUtf8 := u1 }) hg hlive h0₂ h2
        refine ⟨out, hout, ⟨max n1 n2, fun m hm => ?_⟩, fun st' => ?_⟩
        · have hm1 := e1 m (le_trans (le_max_left _ _) hm)
          have hm2 := e2 m (le_trans (le_max_right _ _) hm)
          simp only at hm1 hm2
          rw [withStacks, if_neg hs] at hm1
          simp only [acceptTokens, hm1] at hm2 ⊢
          exact hm2
        · rw [hmem]
          have hlast : lastCodePoints ((tok :: tok' :: toks).map Prod.snd) g.partialUtf8 =
              lastCodePoints ((tok' :: toks).map Prod.snd) u1 := by
            simp only [map_cons, lastCodePoints, decodeUtf8_of_feed h0₁ h1]
          rw [hlast]
          refine and_congr_left fun hst' => ?_
          constructor
          · rintro ⟨st1, hst1, -, hc2⟩
            obtain ⟨st, hst, hne', hc1⟩ := (hmem1 st1).mp hst1
            exact ⟨st, hst, hne', consumes_append.mpr ⟨st1, hc1, hc2⟩⟩
          · rintro ⟨st, hst, hne', hc⟩
            obtain ⟨st1, hc1, hc2⟩ := consumes_append.mp hc
            refine ⟨st1, (hmem1 st1).mpr ⟨st, hst, hne', hc1⟩, ?_, hc2⟩
            by_cases hc₂nil : c2 = []
            · -- the other pieces complete no character
              rw [hc₂nil] at hc2
              obtain rfl : st1 = st' := hc2
              have hsuffix := lastCodePoints_suffix h0₂ h2
              rw [hc₂nil] at hsuffix
              exact hst' (suffix_nil.mp hsuffix)
            · exact hc2.ne_nil hc₂nil

end Tokens

/-! ## Any cut -/

/-- However a text is cut, its pieces have its code points, which are those of its complete
characters, and end in its state. `llama_grammar_accept_str` does for the pieces what it does for
the text. `llama_grammar_accept_token` reaches the same stacks, except that the finished one is
dropped if the last piece completes no character. -/
theorem text_cut {u : PartialUtf8} (hu : u.nRemain = 0) {bs : List UInt8}
    (h0 : ∀ b ∈ bs, b ≠ 0) (ht : BeginsText bs) {pieces : List (List UInt8)}
    (hcut : pieces.flatten = bs) :
    decodePieces pieces u = ((decodeUtf8 bs u).1.dropLast, (decodeUtf8 bs u).2) ∧
    (∃ (cs : List Char) (c : Char) (l r : List UInt8),
      bs = cs.flatMap String.utf8EncodeChar ++ l ∧ String.utf8EncodeChar c = l ++ r ∧ r ≠ [] ∧
        (decodeUtf8 bs u).1 = cs.map Char.toNat ++ [0]) ∧
    (∀ (fuel : Nat) (g : GrammarState), g.partialUtf8 = u → (g.grammarStacks = [] → pieces ≠ []) →
      acceptStrs fuel g pieces = acceptStr fuel g bs) ∧
    (∀ (rawRules : List (List GrammarElement)) (start : Nat),
      (∀ rule ∈ rawRules.map copyRule, CharRule rule) →
      ¬ LeftRecursive (alts (rawRules.map copyRule)) →
      ∀ g, (grammarSys rawRules start).Reach (fun _ _ => True) g → g.partialUtf8 = u →
      ∀ (id : Nat) (toks : List (Nat × List UInt8)), toks ≠ [] → toks.map Prod.snd = pieces →
      ∃ whole cut,
        Ends (fun fuel => acceptToken fuel g id bs) (withStacks g whole (decodeUtf8 bs u).2) ∧
        Ends (fun fuel => acceptTokens fuel g toks) (withStacks g cut (decodeUtf8 bs u).2) ∧
        ∀ st, st ∈ cut ↔ st ∈ whole ∧ (lastCodePoints pieces u = [] → st ≠ [])) := by
  obtain ⟨cs, c, l, r, v, hbs, e, hrne, hf⟩ := ht.feed hu
  have hd := decodeUtf8_of_feed h0 hf
  subst hcut
  rw [hd, dropLast_concat]
  refine ⟨decodePieces_of_feed h0 hf, ⟨cs, c, l, r, hbs, e, hrne, rfl⟩, fun fuel g hg hne => ?_,
    fun rawRules start hr hl g hreach hg id toks hne hpieces => ?_⟩
  · subst hg
    exact acceptStrs_of_feed fuel h0 hf hne
  · subst hg hpieces
    have hok := hreach.inv (grammarSys_inductive (fun rule hrule => (hr rule hrule).items) hl)
    obtain ⟨whole, -, hend, hmem⟩ :=
      acceptToken_of_feed hok.refs hr hl hok.rules_eq hok.live id h0 hf
    obtain ⟨cut, -, hend', hmem'⟩ :=
      acceptTokens_settles hok.refs hr hl hne hok.rules_eq hok.live h0 hf
    exact ⟨whole, cut, hend, hend', fun st => by rw [hmem', hmem]⟩

/-- `root ::= "é"`. -/
def justE : List (List GrammarElement) := [[⟨.char, 0xE9⟩, ⟨.end_, 0⟩]]

theorem justE_not_leftRecursive : ¬ LeftRecursive (alts (justE.map copyRule)) := by
  refine not_leftRecursive_of_terms fun r rhs hrhs q ss => ?_
  cases r with
  | zero =>
    have : ∀ rhs ∈ alts (justE.map copyRule) 0, rhs = [.term [⟨.char, 0xE9⟩]] := by decide
    rw [this rhs hrhs]
    simp
  | succ r =>
    have e : alts (justE.map copyRule) (r + 1) = [[]] := rfl
    rw [e] at hrhs
    obtain rfl := mem_singleton.mp hrhs
    simp

/-- The grammar as it is initialised. -/
def justE_start : GrammarState := { rules := justE.map copyRule, grammarStacks := [[⟨0, 0⟩]] }

theorem justE_reach : (grammarSys justE 0).Reach (fun _ _ => True) justE_start := by
  refine .init ⟨rfl, rfl, 3, fun m hm => ?_⟩
  obtain ⟨k, rfl⟩ := Nat.exists_eq_add_of_le' hm
  rfl

/-- The two bytes of the character, one by one. -/
theorem text_cut_bytes : decodePieces [[0xC3], [0xA9]] {} = ([0xE9], ⟨0xE9, 0⟩) ∧
    (∀ fuel, acceptStrs fuel justE_start [[0xC3], [0xA9]] =
      acceptStr fuel justE_start [0xC3, 0xA9]) ∧
    ∃ whole cut,
      Ends (fun fuel => acceptToken fuel justE_start 7 [0xC3, 0xA9])
        (withStacks justE_start whole ⟨0xE9, 0⟩) ∧
      Ends (fun fuel => acceptTokens fuel justE_start [(1, [0xC3]), (2, [0xA9])])
        (withStacks justE_start cut ⟨0xE9, 0⟩) ∧
      ∀ st, st ∈ cut ↔ st ∈ whole ∧ (lastCodePoints [[0xC3], [0xA9]] {} = [] → st ≠ []) := by
  obtain ⟨h1, -, h2, h3⟩ := @text_cut {} rfl [0xC3, 0xA9] (by simp) ⟨['é'], [], rfl⟩
    [[0xC3], [0xA9]] rfl
  exact ⟨h1, fun fuel => h2 fuel justE_start rfl (by simp),
    h3 justE 0 (by decide) justE_not_leftRecursive justE_start justE_reach rfl 7
      [(1, [0xC3]), (2, [0xA9])] (by simp) rfl⟩

/-- A finished stack is left by a token that goes on with a part of a character, but not by that
part as a token of its own. -/
theorem acceptTokens_cut_differs : ¬ ∀ (rawRules : List (List GrammarElement)) (start : Nat),
      (∀ rule ∈ rawRules.map copyRule, CharRule rule) →
      ¬ LeftRecursive (alts (rawRules.map copyRule)) →
      ∀ g, (grammarSys rawRules start).Reach (fun _ _ => True) g → g.partialUtf8.nRemain = 0 →
      ∀ bs : List UInt8, (∀ b ∈ bs, b ≠ 0) → BeginsText bs →
      ∀ (id : Nat) (toks : List (Nat × List UInt8)), toks ≠ [] →
      (toks.map Prod.snd).flatten = bs →
      ∀ g', Settles (fun fuel => acceptToken fuel g id bs) g' →
        ∃ g'', Settles (fun fuel => acceptTokens fuel g toks) g'' ∧
          ∀ st, st ∈ g''.grammarStacks ↔ st ∈ g'.grammarStacks := by
  intro h
  obtain ⟨g'', ⟨n, e⟩, -⟩ := h justE 0 (by decide) justE_not_leftRecursive justE_start justE_reach
    rfl [0xC3, 0xA9, 0xC3] (by simp) ⟨['é', 'é'], [0xA9], rfl⟩ 7
    [(1, [0xC3, 0xA9]), (2, [0xC3])] (by simp) rfl
    { justE_start with grammarStacks := [[]], partialUtf8 := ⟨3, 1⟩ }
    ⟨3, fun m hm => by
      obtain ⟨k, rfl⟩ := Nat.exists_eq_add_of_le' hm
      rfl⟩
  have e1 : ∀ k, acceptTokens (k + 3) justE_start [(1, [0xC3, 0xA9]), (2, [0xC3])] =
      .error .emptyStack := fun k => rfl
  have e2 := e (n + 3) (by omega)
  simp only [e1] at e2
  cases e2

end Grammar
end BeeLlama
