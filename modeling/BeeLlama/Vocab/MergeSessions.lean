import BeeLlama.Vocab.CodePoint
import BeeLlama.Vocab.MergeQueue
import Mathlib.Data.FinEnum

/-!
# The merging loops of the SPM and BPE tokenizers

* `symbolLoop`: the loop that splits a text into symbols, one for each code point.
* `spmRules`, `bpeRules`: the bigrams, comparators and tests for outdated entries of
  `llm_tokenizer_spm_session` and `llm_tokenizer_bpe_session`.
* `sessions_mergeGreedily`: both loops are greedy merging.
-/

namespace BeeLlama

open List

/-- The loop that splits the text into symbols, for the rest of the text from `offs` on. -/
def symbolLoop (index offs : Nat) : List UInt8 → List LlmSymbol
  | [] => []
  | c :: rest =>
    let n := min (unicodeLenUtf8 c) (rest.length + 1)
    { prev := if index = 0 then none else some (index - 1)
      next := if n = rest.length + 1 then none else some (index + 1)
      text := offs
      n } :: symbolLoop (index + 1) (offs + n) ((c :: rest).drop n)
  termination_by rest => rest.length
  decreasing_by
    have := unicodeLenUtf8_pos c
    simp only [List.length_drop, List.length_cons]
    omega

/-! ## SPM -/

/-- What the session reads of the vocabulary: `text_to_token`, and the scores of the tokens. -/
structure SpmVocab (σ : Type) where
  textToToken : List UInt8 → Option Nat
  scores : List σ

/-- `llm_bigram_spm`. -/
structure BigramSpm (σ : Type) where
  left : Nat
  right : Nat
  score : σ
  size : Nat
  deriving DecidableEq, Repr

section Spm

variable {σ : Type} [LinearOrder σ]

/-- `try_add_bigram`, `llm_bigram_spm::comparator` and the test of the loop. -/
def spmRules (v : SpmVocab σ) : MergeRules (BigramSpm σ) where
  left := BigramSpm.left
  right := BigramSpm.right
  comparator l r := decide (l.score < r.score ∨ l.score = r.score ∧ l.left > r.left)
  bigram text left right a b :=
    let str := (text.drop a.text).take (a.n + b.n)
    match v.textToToken str with
    | none => some none
    | some token =>
      if token ≥ v.scores.length then some none
      else v.scores[token]?.map fun score => some { left, right, score, size := str.length }
  outdated _ e a b := decide (a.n + b.n ≠ e.size)

/-- The session when its loop begins. -/
def spmStart (v : SpmVocab σ) (text : List UInt8) : Option (MergeSession (BigramSpm σ)) :=
  MergeSession.start (spmRules v) text (symbolLoop 0 0 text)

/-- The score of the token that two pieces form; the highest comes first. -/
def spmRank (v : SpmVocab σ) (a b : List UInt8) : Option σᵒᵈ :=
  (v.textToToken (a ++ b)).bind fun token => v.scores[token]?.map OrderDual.toDual

end Spm

/-! ## BPE -/

/-- What the session reads of the vocabulary: `text_to_token`, the merge ranks, and whether
merges are ignored for words that are tokens. -/
structure BpeVocab where
  textToToken : List UInt8 → Option Nat
  bpeRanks : List UInt8 → List UInt8 → Option Nat
  ignoreMerges : Bool
  gemma4 : Bool

/-- `find_bpe_rank`; the outer `none` stands for a failed assertion. -/
def BpeVocab.findBpeRank (v : BpeVocab) (tokenLeft tokenRight : List UInt8) :
    Option (Option Nat) :=
  if 0x20 ∈ tokenLeft ∨ 0x20 ∈ tokenRight then none else some (v.bpeRanks tokenLeft tokenRight)

/-- `llm_bigram_bpe`. -/
structure BigramBpe where
  left : Nat
  right : Nat
  text : List UInt8
  rank : Nat
  size : Nat
  deriving DecidableEq, Repr

/-- `add_new_bigram`, `llm_bigram_bpe::comparator` and the test of the loop. -/
def bpeRules (v : BpeVocab) : MergeRules BigramBpe where
  left := BigramBpe.left
  right := BigramBpe.right
  comparator l r := decide (l.rank > r.rank ∨ l.rank = r.rank ∧ l.left > r.left)
  bigram text left right a b :=
    let leftToken := a.str text
    let rightToken := b.str text
    (v.findBpeRank leftToken rightToken).map fun rankFound => rankFound.map fun rank =>
      { left, right, text := leftToken ++ rightToken, rank
        size := leftToken.length + rightToken.length }
  outdated text e a b := decide (a.str text ++ b.str text ≠ e.text)

/-- The symbols of a word. -/
def bpeSymbols (v : BpeVocab) (word : List UInt8) : List LlmSymbol :=
  if v.ignoreMerges ∧ (v.textToToken word).isSome then [⟨none, none, 0, word.length⟩]
  else if v.gemma4 ∧ (∀ c ∈ word, c = 0x0a) ∧ (v.textToToken word).isSome then
    [⟨none, none, 0, word.length⟩]
  else symbolLoop 0 0 word

/-- The session when the loop for a word begins. -/
def bpeStart (v : BpeVocab) (word : List UInt8) : Option (MergeSession BigramBpe) :=
  MergeSession.start (bpeRules v) word (bpeSymbols v word)

/-! ## The bytes of two neighbours -/

section Str

variable {text : List UInt8} {a b : LlmSymbol}

theorem LlmSymbol.length_str (h : a.text + a.n ≤ text.length) : (a.str text).length = a.n := by
  rw [str, length_take, length_drop]
  omega

/-- The bytes of two neighbours are next to each other. -/
theorem LlmSymbol.str_append (h : a.text + a.n = b.text) :
    (text.drop a.text).take (a.n + b.n) = a.str text ++ b.str text := by
  rw [take_add, drop_drop, h, str, str]

theorem LlmSymbol.mem_of_mem_str {c : UInt8} (h : c ∈ a.str text) : c ∈ text :=
  mem_of_mem_drop (mem_of_mem_take h)

end Str

theorem spmRules_lawful {σ : Type} [LinearOrder σ] (v : SpmVocab σ) (text : List UInt8) :
    (spmRules v).Lawful text (fun e => OrderDual.toDual e.score) (spmRank v) where
  bigram l r a b htext hlen := by
    simp only [spmRules, spmRank, LlmSymbol.str_append htext]
    cases ht : v.textToToken (a.str text ++ b.str text) with
    | none => exact ⟨none, rfl, rfl, fun _ he => nomatch he⟩
    | some token =>
      dsimp only
      split
      next hout =>
        refine ⟨none, rfl, ?_, fun _ he => nomatch he⟩
        simp [getElem?_eq_none hout]
      next hin =>
        obtain ⟨score, hscore⟩ : ∃ score, v.scores[token]? = some score :=
          ⟨_, getElem?_eq_getElem (by omega)⟩
        refine ⟨some ⟨l, r, score, _⟩, by rw [hscore]; rfl, ?_, fun e he => ?_⟩
        · rw [Option.bind_some, hscore]
          rfl
        · cases he
          exact ⟨rfl, rfl⟩
  congr l r a b a' b' hat han hbt hbn := by
    simp only [spmRules, hat, han, hbn]
  outdated l r a b e m htext hlen hm hbigram := by
    simp only [spmRules] at hbigram ⊢
    split at hbigram
    next => cases hbigram
    next token ht =>
      split at hbigram
      next => cases hbigram
      next =>
        obtain ⟨score, -, he⟩ := Option.map_eq_some_iff.mp hbigram
        cases he
        simp only [length_take, length_drop, decide_eq_false_iff_not, not_not]
        omega
  comparator e e' := by
    simp only [spmRules, decide_eq_true_eq, OrderDual.toDual_lt_toDual, OrderDual.toDual_inj]
    constructor
    · rintro (h | ⟨h, hl⟩)
      · exact .inl h
      · exact .inr ⟨h.symm, hl⟩
    · rintro (h | ⟨h, hl⟩)
      · exact .inl h
      · exact .inr ⟨h.symm, hl⟩

theorem bpeRules_lawful (v : BpeVocab) {word : List UInt8} (hspace : 0x20 ∉ word) :
    (bpeRules v).Lawful word BigramBpe.rank v.bpeRanks where
  bigram l r a b _ _ := by
    have ha : (0x20 : UInt8) ∉ a.str word := fun h => hspace (LlmSymbol.mem_of_mem_str h)
    have hb : (0x20 : UInt8) ∉ b.str word := fun h => hspace (LlmSymbol.mem_of_mem_str h)
    simp only [bpeRules, BpeVocab.findBpeRank, ha, hb, or_self, if_false, Option.map_some]
    cases v.bpeRanks (a.str word) (b.str word) with
    | none => exact ⟨none, rfl, rfl, fun _ he => nomatch he⟩
    | some rank =>
      refine ⟨_, rfl, rfl, fun e he => ?_⟩
      cases he
      exact ⟨rfl, rfl⟩
  congr l r a b a' b' hat han hbt hbn := by
    simp only [bpeRules, LlmSymbol.str, hat, han, hbt, hbn]
  outdated l r a b e m htext hlen hm hbigram := by
    simp only [bpeRules] at hbigram ⊢
    obtain ⟨rankFound, -, he⟩ := Option.map_eq_some_iff.mp hbigram
    obtain ⟨rank, -, he⟩ := Option.map_eq_some_iff.mp he
    rw [← he]
    simp only [decide_eq_false_iff_not, not_not, append_cancel_left_eq]
    constructor
    · intro h
      have hb := LlmSymbol.length_str (a := b) hlen
      have hm' : (LlmSymbol.str word { b with n := m }).length = m :=
        LlmSymbol.length_str (by dsimp only; omega)
      rw [← hm', ← h, hb]
    · rintro rfl
      rfl
  comparator e e' := by
    simp only [bpeRules, decide_eq_true_eq]
    constructor
    · rintro (h | ⟨h, hl⟩)
      · exact .inl h
      · exact .inr ⟨h.symm, hl⟩
    · rintro (h | ⟨h, hl⟩)
      · exact .inl h
      · exact .inr ⟨h.symm, hl⟩

/-! ## The symbols of a text -/

/-- The loop has a symbol for every text that is not empty. -/
theorem symbolLoop_eq_nil_iff {index offs : Nat} {rest : List UInt8} :
    symbolLoop index offs rest = [] ↔ rest = [] := by
  cases rest <;> simp [symbolLoop]

/-- The symbols that the loop adds to those before are linked and cover the rest of the text. -/
theorem linked_symbolLoop (rest : List UInt8) (before : List LlmSymbol) (offs : Nat) :
    Linked (before ++ symbolLoop before.length offs rest) (offs + rest.length)
      (if before.length = 0 then none else some (before.length - 1)) offs
      (List.range' before.length (symbolLoop before.length offs rest).length) := by
  induction hm : rest.length using Nat.strong_induction_on generalizing rest before offs with
  | _ m ih =>
    obtain - | ⟨c, rest⟩ := rest
    · rw [symbolLoop]
      simp [Linked, ← hm]
    · have hpos := unicodeLenUtf8_pos c
      rw [symbolLoop]
      generalize hn : min (unicodeLenUtf8 c) (rest.length + 1) = n
      generalize hsym : LlmSymbol.mk _ _ offs n = sym
      have hlen : (before ++ [sym]).length = before.length + 1 := by simp
      have hrest := ih ((c :: rest).drop n).length
        (by simp only [length_drop, length_cons] at hm ⊢; omega)
        ((c :: rest).drop n) (before ++ [sym]) (offs + n) rfl
      rw [hlen, append_assoc, singleton_append, if_neg (Nat.succ_ne_zero _),
        Nat.add_sub_cancel, length_drop, length_cons] at hrest
      rw [length_cons, range'_succ, ← hm, length_cons]
      refine ⟨sym, by simp, by rw [← hsym], ?_, by rw [← hsym], ?_, ?_⟩
      · rw [← hsym]
        dsimp only
        split
        next hend => simp [hend, symbolLoop]
        next hend =>
          cases htail : symbolLoop (before.length + 1) (offs + n) ((c :: rest).drop n) with
          | nil =>
            have := drop_eq_nil_iff.mp (symbolLoop_eq_nil_iff.mp htail)
            rw [length_cons] at this
            omega
          | cons s tail => rw [length_cons, range'_succ, head?_cons]
      · rw [← hsym]
        dsimp only
        omega
      · have hsn : sym.n = n := by rw [← hsym]
        rw [hsn]
        rwa [show offs + (rest.length + 1) = offs + n + (rest.length + 1 - n) by omega]

theorem chained_symbolLoop (text : List UInt8) :
    Chained text.length (List.range (symbolLoop 0 0 text).length) (symbolLoop 0 0 text) where
  sorted := pairwise_lt_range
  linked := by
    have := linked_symbolLoop text [] 0
    simpa [range_eq_range'] using this
  dead i a ha hi := absurd (List.mem_range.mpr (List.getElem?_eq_some_iff.mp ha).1) hi

/-- A word that is one symbol. -/
theorem chained_single (word : List UInt8) :
    Chained word.length (if word = [] then [] else [0]) [⟨none, none, 0, word.length⟩] := by
  split
  next hw =>
    subst hw
    refine ⟨List.Pairwise.nil, rfl, fun i a ha _ => ?_⟩
    obtain rfl := mem_singleton.mp (mem_of_getElem? ha)
    rfl
  next hw =>
    refine ⟨pairwise_singleton _ _, ?_, fun i a ha hi => ?_⟩
    · exact ⟨_, rfl, rfl, rfl, rfl, by simpa using hw, by simp [Linked]⟩
    · have := (List.getElem?_eq_some_iff.mp ha).1
      simp at this hi
      omega

theorem head?_range_symbolLoop {text : List UInt8} (h : text ≠ []) :
    (List.range (symbolLoop 0 0 text).length).head? = some 0 := by
  cases hs : symbolLoop 0 0 text with
  | nil => exact absurd (symbolLoop_eq_nil_iff.mp hs) h
  | cons s rest => rw [length_cons, range_eq_range', range'_succ, head?_cons]

/-- The loops of the two tokenizers, over any vocabulary: that of SPM merges the pair of the
highest score first, for any text; that of BPE merges the pair of the lowest rank first, for any
word without blanks. -/
theorem sessions_mergeGreedily {σ : Type} [LinearOrder σ] (v : SpmVocab σ) (w : BpeVocab) :
    (∀ text, ∃ s, spmStart v text = some s ∧ s.symbols = symbolLoop 0 0 text ∧
      MergesGreedily (spmRules v) (spmRank v) text s) ∧
    ∀ word, 0x20 ∉ word → ∃ s, bpeStart w word = some s ∧ s.symbols = bpeSymbols w word ∧
      MergesGreedily (bpeRules w) w.bpeRanks word s := by
  constructor
  · intro text
    exact start_mergesGreedily (spmRules_lawful v text) (chained_symbolLoop text) (.inl rfl)
      head?_range_symbolLoop
  · intro word hspace
    have hloop : ∃ s, MergeSession.start (bpeRules w) word (symbolLoop 0 0 word) = some s ∧
        s.symbols = symbolLoop 0 0 word ∧ MergesGreedily (bpeRules w) w.bpeRanks word s :=
      start_mergesGreedily (bpeRules_lawful w hspace) (chained_symbolLoop word) (.inl rfl)
        head?_range_symbolLoop
    have hsingle : ∃ s, MergeSession.start (bpeRules w) word [⟨none, none, 0, word.length⟩] =
        some s ∧ s.symbols = [⟨none, none, 0, word.length⟩] ∧
        MergesGreedily (bpeRules w) w.bpeRanks word s :=
      start_mergesGreedily (bpeRules_lawful w hspace) (chained_single word)
        (.inr (Nat.le_refl 1)) fun hw => by rw [if_neg hw]; rfl
    rw [bpeStart, bpeSymbols]
    split
    · exact hsingle
    · split
      · exact hsingle
      · exact hloop

end BeeLlama
