import BeeLlama.Lib.BestPath
import BeeLlama.Vocab.CodePoint
import BeeLlama.Vocab.NaiveTrie
import Mathlib.Algebra.Order.Group.Int

/-!
# Unigram tokenization (`llm_tokenizer_ugm_session::tokenize`)

A table has for each offset the best tokenization that ends there. The loop goes through the code
points and lets every token that begins there challenge the entry of the offset where it ends.

* `matchLoop_spec`, `tokenizeStep_spec`: which entries one code point challenges.
* `Filled`: the invariant of the loop. `Filled.step`: one code point keeps it.
* `backtrack_eq_trace`: going back through the table, which overwrites its last entry.
* `tokenize_optimal`: the result is a segmentation of the highest score.
-/

namespace BeeLlama

open List

/-- What the tokenizer reads of a token. -/
structure UgmToken (σ : Type) where
  text : List UInt8
  score : σ
  normal : Bool
  userDefined : Bool
  unused : Bool

/-- The vocabulary: no text belongs to two tokens, and `unk` is the unknown token. `fltMax` and
`unknownTokenScorePenalty` are the constants as exact numbers. -/
structure UgmVocab (σ : Type) where
  tokens : List (UgmToken σ)
  unk : Nat
  fltMax : σ
  unknownTokenScorePenalty : σ
  nodup : (tokens.map (·.text)).Nodup

/-- `best_tokenization`; `⊥` stands for the score `-DBL_MAX`. -/
structure BestTokenization (σ : Type) where
  tokenId : Nat
  inputOffset : Nat
  scoreSum : WithBot σ

/-- The tokens of `token_matcher`. -/
def UgmToken.inMatcher {σ : Type} (t : UgmToken σ) : Bool := t.normal || t.userDefined || t.unused

namespace UgmVocab

variable {σ : Type} [AddCommGroup σ] [LinearOrder σ]

/-- `token_matcher`. -/
def tokenMatcher (v : UgmVocab σ) : NaiveTrie :=
  NaiveTrie.ofKeys ((v.tokens.zipIdx.filter fun t => t.1.inMatcher).map fun t => (t.1.text, t.2))

/-- `min_score`. -/
def minScore (v : UgmVocab σ) : σ :=
  v.tokens.foldl (fun m t => if t.normal then min m t.score else m) v.fltMax

/-- `unknown_token_score`. -/
def unknownTokenScore (v : UgmVocab σ) : σ := v.minScore - v.unknownTokenScorePenalty

/-- `token_score` of a token. -/
def tokenScore (v : UgmVocab σ) (tokenId : Nat) : σ :=
  match v.tokens[tokenId]? with
  | some t => if t.userDefined then 0 else t.score
  | none => 0

/-- The entry at an offset gives way to a challenger of a higher score. -/
def challenge (results : List (BestTokenization σ)) (offset : Nat)
    (challenger : BestTokenization σ) : List (BestTokenization σ) :=
  match results[offset]? with
  | some champ =>
    if champ.scoreSum < challenger.scoreSum then results.set offset challenger else results
  | none => results

/-- The body of the loop over the tokens that begin at `inputOffset`, at the node for the bytes up
to `prefixOffset`; the flag says that a token is the code point of `n` code units. -/
def matchToken (v : UgmVocab σ) (inputOffset n : Nat) (currentBest : WithBot σ)
    (node : NaiveTrie) (prefixOffset : Nat) (r : List (BestTokenization σ) × Bool) :
    List (BestTokenization σ) × Bool :=
  if node.hasValue then
    (challenge r.1 prefixOffset
      ⟨node.value, inputOffset, currentBest + (v.tokenScore node.value : σ)⟩,
      r.2 || prefixOffset - inputOffset == n)
  else r

/-- The loop, for the bytes from `prefixOffset` on. -/
def matchLoop (v : UgmVocab σ) (inputOffset n : Nat) (currentBest : WithBot σ) :
    List UInt8 → Option NaiveTrie → Nat → List (BestTokenization σ) × Bool →
      List (BestTokenization σ) × Bool
  | _, none, _, r => r
  | [], some node, prefixOffset, r =>
    v.matchToken inputOffset n currentBest node prefixOffset r
  | c :: rest, some node, prefixOffset, r =>
    matchLoop v inputOffset n currentBest rest (node.traverse c) (prefixOffset + 1)
      (v.matchToken inputOffset n currentBest node prefixOffset r)

/-- The score at an offset. -/
def scoreAt (results : List (BestTokenization σ)) (offset : Nat) : WithBot σ :=
  (results[offset]?.map (·.scoreSum)).getD ⊥

/-- The body of the loop for the code point at `inputOffset`. -/
def tokenizeStep (v : UgmVocab σ) (normalized : List UInt8) (inputOffset : Nat)
    (results : List (BestTokenization σ)) : List (BestTokenization σ) :=
  let n := codeUnits normalized inputOffset
  let currentBest := scoreAt results inputOffset
  let r := match normalized.drop inputOffset with
    | c :: rest => matchLoop v inputOffset n currentBest rest (v.tokenMatcher.traverse c)
        (inputOffset + 1) (results, false)
    | [] => (results, false)
  if r.2 then r.1
  else challenge r.1 (inputOffset + n)
    ⟨v.unk, inputOffset, currentBest + (v.unknownTokenScore : σ)⟩

/-- The loop over the code points, at most `fuel` of them. -/
def fill (v : UgmVocab σ) (normalized : List UInt8) :
    Nat → Nat → List (BestTokenization σ) → List (BestTokenization σ)
  | 0, _, results => results
  | fuel + 1, inputOffset, results =>
    if inputOffset < normalized.length then
      fill v normalized fuel (inputOffset + codeUnits normalized inputOffset)
        (tokenizeStep v normalized inputOffset results)
    else results

/-- The table when the loop has ended. -/
def results (v : UgmVocab σ) (normalized : List UInt8) : List (BestTokenization σ) :=
  fill v normalized normalized.length 0
    (⟨v.unk, 0, 0⟩ :: List.replicate normalized.length ⟨v.unk, 0, ⊥⟩)

/-- The loop back through the table: `tokenization` is the entry of the last offset, which the
loop assigns. The result are the tokens as they are added, and the offsets whose entries the loop
visits, of which `offset` is the first; `none` stands for an offset outside the table, or for more
than `fuel` rounds. -/
def backtrack (unk inputLen : Nat) :
    Nat → List (BestTokenization σ) → Bool → Nat → Option (List Nat × List Nat)
  | 0, _, _, _ => none
  | fuel + 1, results, isPrevUnknown, offset =>
    match results[inputLen]? with
    | none => none
    | some tokenization =>
      let isUnknown := tokenization.tokenId == unk
      let pushed := if isPrevUnknown && isUnknown then [] else [tokenization.tokenId]
      if tokenization.inputOffset = 0 then some (pushed, [offset])
      else match results[tokenization.inputOffset]? with
        | none => none
        | some t => (backtrack unk inputLen fuel (results.set inputLen t) isUnknown
            tokenization.inputOffset).map fun r => (pushed ++ r.1, offset :: r.2)

/-- `tokenize`, for a text that is normalized already. -/
def tokenize (v : UgmVocab σ) (normalized : List UInt8) : Option (List Nat) :=
  if normalized.length = 0 then some []
  else (backtrack v.unk normalized.length normalized.length (v.results normalized) false
    normalized.length).map fun r => r.1.reverse

/-! ## Segmentations -/

/-- The bytes between two offsets. -/
def slice (text : List UInt8) (o p : Nat) : List UInt8 := (text.drop o).take (p - o)

/-- A segment: a token from where a code point begins, or the unknown token for one code point that
is not a token. Only normal, user-defined and unused tokens can be matched. -/
def Segment (v : UgmVocab σ) (text : List UInt8) (o p : Nat) (x : Option Nat) : Prop :=
  IsBoundary text o ∧ o < text.length ∧
    match x with
    | some id => o < p ∧ p ≤ text.length ∧ ∃ t, v.tokens[id]? = some t ∧ t.inMatcher = true ∧
        t.text = slice text o p
    | none => p = o + codeUnits text o ∧
        ∀ t ∈ v.tokens, t.inMatcher = true → t.text ≠ slice text o p

/-- The score of a segment: user-defined tokens count 0. -/
def segmentScore (v : UgmVocab σ) : Option Nat → σ
  | some id => v.tokenScore id
  | none => v.unknownTokenScore

/-- The token that is written for a segment. -/
def segmentToken (v : UgmVocab σ) (x : Option Nat) : Nat := x.getD v.unk

/-- Runs of the unknown token become one, also with a token before the list if the flag is set. -/
def mergeUnknown (unk : Nat) : Bool → List Nat → List Nat
  | _, [] => []
  | isPrevUnknown, x :: xs =>
    if isPrevUnknown && x == unk then mergeUnknown unk true xs
    else x :: mergeUnknown unk (x == unk) xs

/-! ## One code point -/

omit [AddCommGroup σ] [LinearOrder σ] in
/-- The value of a text in the trie is the token of this text. -/
theorem get_tokenMatcher_iff (v : UgmVocab σ) {key : List UInt8} {id : Nat} :
    v.tokenMatcher.get key = some id ↔
      ∃ t, v.tokens[id]? = some t ∧ t.inMatcher = true ∧ t.text = key := by
  rw [tokenMatcher, NaiveTrie.get_ofKeys]
  have hmem : ∀ k : List UInt8 × Nat, k ∈ ((v.tokens.zipIdx.filter fun t => t.1.inMatcher).map
      fun t => (t.1.text, t.2)).reverse ↔
      ∃ t, v.tokens[k.2]? = some t ∧ t.inMatcher = true ∧ t.text = k.1 := by
    rintro ⟨key, id⟩
    simp only [mem_reverse, mem_map, mem_filter, Prod.exists,
      mk_mem_zipIdx_iff_getElem?, Prod.mk.injEq]
    constructor
    · rintro ⟨t, j, ⟨hj, hin⟩, htext, rfl⟩
      exact ⟨t, hj, hin, htext⟩
    · rintro ⟨t, hj, hin, htext⟩
      exact ⟨t, id, ⟨hj, hin⟩, htext, rfl⟩
  constructor
  · intro h
    obtain ⟨k, hk, rfl⟩ := Option.map_eq_some_iff.mp h
    obtain ⟨t, ht, hin, htext⟩ := (hmem k).mp (mem_of_find?_eq_some hk)
    have hkey := find?_some hk
    exact ⟨t, ht, hin, htext.trans (by simpa using hkey)⟩
  · rintro ⟨t, ht, hin, htext⟩
    cases hk : find? (fun k => decide (k.1 = key))
        ((v.tokens.zipIdx.filter fun t => t.1.inMatcher).map fun t => (t.1.text, t.2)).reverse with
    | none =>
      have := find?_eq_none.mp hk (key, id) ((hmem (key, id)).mpr ⟨t, ht, hin, htext⟩)
      simp at this
    | some k =>
      obtain ⟨t', ht', -, htext'⟩ := (hmem k).mp (mem_of_find?_eq_some hk)
      have hkey : k.1 = key := by simpa using find?_some hk
      -- the texts are distinct, so the token is the same
      have hsame : (v.tokens.map (·.text))[k.2]? = (v.tokens.map (·.text))[id]? := by
        rw [getElem?_map, getElem?_map, ht, ht']
        simp [htext, htext', hkey]
      have hlt : k.2 < (v.tokens.map (·.text)).length := by
        rw [length_map]
        exact (List.getElem?_eq_some_iff.mp ht').1
      rw [Option.map_some, (getElem?_inj hlt v.nodup).mp hsame]

/-- The entry after a challenge. -/
def champion (champ challenger : BestTokenization σ) : BestTokenization σ :=
  if champ.scoreSum < challenger.scoreSum then challenger else champ

omit [AddCommGroup σ] in
theorem getElem?_challenge (r : List (BestTokenization σ)) (p q : Nat) (c : BestTokenization σ) :
    (challenge r p c)[q]? = if q = p then r[q]?.map (champion · c) else r[q]? := by
  rw [challenge]
  cases hp : r[p]? with
  | none =>
    by_cases hqp : q = p
    · simp [hqp, hp]
    · simp [hqp]
  | some champ =>
    have hlt := (List.getElem?_eq_some_iff.mp hp).1
    by_cases hqp : q = p
    · subst hqp
      by_cases h : champ.scoreSum < c.scoreSum
      · simp [champion, h, hp, getElem?_set_self hlt]
      · simp [champion, h, hp]
    · by_cases h : champ.scoreSum < c.scoreSum
      · simp [h, hqp, getElem?_set_ne (Ne.symm hqp)]
      · simp [h, hqp]

/-- The token for the bytes up to `q` that begin with those of the node at `p`. -/
def tokenFrom (node : Option NaiveTrie) (rest : List UInt8) (p q : Nat) : Option Nat :=
  if p ≤ q ∧ q ≤ p + rest.length then node.bind fun t => t.get (rest.take (q - p)) else none

@[simp] theorem tokenFrom_none (rest : List UInt8) (p q : Nat) :
    tokenFrom none rest p q = none := by
  simp [tokenFrom]

theorem tokenFrom_nil (node : NaiveTrie) (p q : Nat) :
    tokenFrom (some node) [] p q = if q = p then node.get [] else none := by
  rw [tokenFrom]
  by_cases h : q = p
  · simp [h]
  · rw [if_neg h, if_neg (by simp; omega)]

theorem tokenFrom_cons (node : NaiveTrie) (c : UInt8) (rest : List UInt8) (p q : Nat) :
    tokenFrom (some node) (c :: rest) p q =
      if q = p then node.get [] else tokenFrom (node.traverse c) rest (p + 1) q := by
  rw [tokenFrom, tokenFrom]
  by_cases h : q = p
  · simp [h]
  · rw [if_neg h]
    by_cases hq : p + 1 ≤ q ∧ q ≤ p + 1 + rest.length
    · rw [if_pos hq, if_pos (by rw [length_cons]; omega),
        show q - p = (q - (p + 1)) + 1 by omega, take_succ_cons, Option.bind_some,
        NaiveTrie.get_cons]
    · rw [if_neg hq, if_neg (by rw [length_cons]; omega)]

theorem get_nil (node : NaiveTrie) :
    node.get [] = if node.hasValue then some node.value else none := rfl

/-- The loop challenges the entries where a token ends, and says whether one is the code point. -/
theorem matchLoop_spec (v : UgmVocab σ) (off n : Nat) (best : WithBot σ) (rest : List UInt8)
    (node : Option NaiveTrie) (p : Nat) (r : List (BestTokenization σ) × Bool) (hp : off < p) :
    (∀ q, (v.matchLoop off n best rest node p r).1[q]? =
      (tokenFrom node rest p q).elim r.1[q]? fun id =>
        r.1[q]?.map (champion · ⟨id, off, best + (v.tokenScore id : σ)⟩)) ∧
    (v.matchLoop off n best rest node p r).2 =
      (r.2 || (tokenFrom node rest p (off + n)).isSome) := by
  have htoken : ∀ (node : NaiveTrie) p, off < p → ∀ r : List (BestTokenization σ) × Bool,
      (∀ q, (v.matchToken off n best node p r).1[q]? =
        if q = p then (node.get []).elim r.1[q]? fun id =>
          r.1[q]?.map (champion · ⟨id, off, best + (v.tokenScore id : σ)⟩) else r.1[q]?) ∧
      (v.matchToken off n best node p r).2 =
        (r.2 || (if off + n = p then node.get [] else none).isSome) := by
    intro node p hp r
    rw [matchToken, get_nil]
    have hn : (p - off == n) = decide (off + n = p) := by
      rw [Bool.eq_iff_iff, beq_iff_eq, decide_eq_true_eq]
      omega
    by_cases h : node.hasValue
    · simp only [h, if_true, Option.elim_some, hn]
      refine ⟨fun q => getElem?_challenge _ _ _ _, ?_⟩
      by_cases hq : off + n = p
      · simp [hq]
      · simp [hq]
    · simp [h]
  induction rest generalizing node p r with
  | nil =>
    cases node with
    | none => simp [matchLoop]
    | some node =>
      simp only [matchLoop, tokenFrom_nil]
      refine ⟨fun q => ?_, (htoken node p hp r).2⟩
      rw [(htoken node p hp r).1 q]
      split
      · rfl
      · rfl
  | cons c rest ih =>
    cases node with
    | none => simp [matchLoop]
    | some node =>
      simp only [matchLoop, tokenFrom_cons]
      obtain ⟨hget, hfound⟩ := ih (node.traverse c) (p + 1) (v.matchToken off n best node p r)
        (by omega)
      obtain ⟨hget', hfound'⟩ := htoken node p hp r
      refine ⟨fun q => ?_, ?_⟩
      · rw [hget, hget']
        by_cases hq : q = p
        · have : tokenFrom (node.traverse c) rest (p + 1) p = none := by
            rw [tokenFrom, if_neg (by omega)]
          simp [hq, this]
        · simp [hq]
      · rw [hfound, hfound', Bool.or_assoc]
        congr 1
        by_cases hq : off + n = p
        · have : tokenFrom (node.traverse c) rest (p + 1) p = none := by
            rw [tokenFrom, if_neg (by omega)]
          simp [hq, this]
        · simp [hq]

section Step

variable {v : UgmVocab σ} {text : List UInt8} {off : Nat}

omit [AddCommGroup σ] [LinearOrder σ] in
/-- The tokens that the loop finds are the token segments. -/
theorem tokenFrom_iff (hb : IsBoundary text off) (hoff : off < text.length) {p id : Nat} :
    tokenFrom (v.tokenMatcher.traverse text[off]) (text.drop (off + 1)) (off + 1) p = some id ↔
      v.Segment text off p (some id) := by
  rw [tokenFrom, length_drop]
  by_cases hp : off + 1 ≤ p ∧ p ≤ off + 1 + (text.length - (off + 1))
  · have hslice : slice text off p = text[off] :: (text.drop (off + 1)).take (p - (off + 1)) := by
      rw [slice, drop_eq_getElem_cons hoff, show p - off = p - (off + 1) + 1 by omega,
        take_succ_cons]
    rw [if_pos hp, ← NaiveTrie.get_cons, ← hslice, get_tokenMatcher_iff]
    exact ⟨fun h => ⟨hb, hoff, by omega, by omega, h⟩, fun h => h.2.2.2.2⟩
  · rw [if_neg hp]
    refine ⟨fun h => (nomatch h), fun h => ?_⟩
    have := h.2.2.1
    have := h.2.2.2.1
    omega

omit [AddCommGroup σ] [LinearOrder σ] in
/-- The unknown token is a segment if no token is the code point. -/
theorem segment_none_iff (hb : IsBoundary text off) (hoff : off < text.length) {p : Nat} :
    v.Segment text off p none ↔ p = off + codeUnits text off ∧
      tokenFrom (v.tokenMatcher.traverse text[off]) (text.drop (off + 1)) (off + 1)
        (off + codeUnits text off) = none := by
  have hpos := codeUnits_pos hoff
  have hle := add_codeUnits_le (Nat.le_of_lt hoff)
  constructor
  · rintro ⟨-, -, rfl, hno⟩
    refine ⟨rfl, Option.eq_none_iff_forall_ne_some.mpr fun id h => ?_⟩
    obtain ⟨-, -, -, -, t, ht, hin, htext⟩ := (tokenFrom_iff hb hoff).mp h
    exact hno t (mem_of_getElem? ht) hin htext
  · rintro ⟨rfl, hno⟩
    refine ⟨hb, hoff, rfl, fun t ht hin htext => ?_⟩
    obtain ⟨id, hid⟩ := mem_iff_getElem?.mp ht
    have := (tokenFrom_iff hb hoff).mpr ⟨hb, hoff, by omega, by omega, t, hid, hin, htext⟩
    rw [hno] at this
    cases this

/-- One code point challenges the entries where a segment ends that begins there. -/
theorem tokenizeStep_spec (hb : IsBoundary text off) (hoff : off < text.length)
    (r : List (BestTokenization σ)) :
    (∀ p x, v.Segment text off p x → (v.tokenizeStep text off r)[p]? =
      r[p]?.map (champion · ⟨v.segmentToken x, off,
        scoreAt r off + ((v.segmentScore x : σ) : WithBot σ)⟩)) ∧
    ∀ p, (∀ x, ¬v.Segment text off p x) → (v.tokenizeStep text off r)[p]? = r[p]? := by
  obtain ⟨hget, hfound⟩ := matchLoop_spec v off (codeUnits text off) (scoreAt r off)
    (text.drop (off + 1)) (v.tokenMatcher.traverse text[off]) (off + 1) (r, false) (by omega)
  rw [Bool.false_or] at hfound
  have hno : ∀ p, (∀ x, ¬v.Segment text off p x) →
      tokenFrom (v.tokenMatcher.traverse text[off]) (text.drop (off + 1)) (off + 1) p = none :=
    fun p hp => Option.eq_none_iff_forall_ne_some.mpr fun id h =>
      hp (some id) ((tokenFrom_iff hb hoff).mp h)
  rw [tokenizeStep, drop_eq_getElem_cons hoff]
  rw [hfound]
  split
  next hsome =>
    refine ⟨fun p x hx => ?_, fun p hp => by rw [hget, hno p hp, Option.elim_none]⟩
    cases x with
    | none =>
      rw [((segment_none_iff hb hoff).mp hx).2] at hsome
      cases hsome
    | some id =>
      rw [hget, (tokenFrom_iff hb hoff).mpr hx, Option.elim_some]
      rfl
  next hnone =>
    rw [Bool.not_eq_true, Option.isSome_eq_false_iff, Option.isNone_iff_eq_none] at hnone
    refine ⟨fun p x hx => ?_, fun p hp => ?_⟩
    · rw [getElem?_challenge]
      cases x with
      | none =>
        obtain ⟨rfl, -⟩ := (segment_none_iff hb hoff).mp hx
        rw [if_pos rfl, hget, hnone, Option.elim_none]
        rfl
      | some id =>
        have htoken := (tokenFrom_iff hb hoff).mpr hx
        have hp : p ≠ off + codeUnits text off := by
          rintro rfl
          rw [hnone] at htoken
          cases htoken
        rw [if_neg hp, hget, htoken, Option.elim_some]
        rfl
    · have hne : p ≠ off + codeUnits text off := by
        rintro rfl
        exact hp none ((segment_none_iff hb hoff).mpr ⟨rfl, hnone⟩)
      rw [getElem?_challenge, if_neg hne, hget, hno p hp, Option.elim_none]

end Step

/-! ## The table -/

/-- Where the segment at the end of the best tokenization begins. -/
def originAt (r : List (BestTokenization σ)) (p : Nat) : Nat :=
  (r[p]?.map (·.inputOffset)).getD 0

/-- The segment between two offsets. -/
def segmentAt (v : UgmVocab σ) (text : List UInt8) (o p : Nat) : Option Nat :=
  v.tokenMatcher.get (slice text o p)

/-- The invariant when the code points before `off` have been processed: the entries with a score
come from a segment, no segment leads to a higher score, and every code point is reached. -/
structure Filled (v : UgmVocab σ) (text : List UInt8) (off : Nat)
    (r : List (BestTokenization σ)) : Prop where
  boundary : IsBoundary text off
  length : r.length = text.length + 1
  zero : scoreAt r 0 = 0
  back : ∀ p x, p ≠ 0 → r[p]? = some x → x.scoreSum ≠ ⊥ → x.inputOffset < p ∧
    x.inputOffset < off ∧ scoreAt r x.inputOffset ≠ ⊥ ∧ ∃ y, v.Segment text x.inputOffset p y ∧
      x.tokenId = v.segmentToken y ∧
      x.scoreSum = scoreAt r x.inputOffset + ((v.segmentScore y : σ) : WithBot σ)
  max : ∀ o p y, o < off → v.Segment text o p y →
    scoreAt r o + ((v.segmentScore y : σ) : WithBot σ) ≤ scoreAt r p
  reached : ∀ o, o ≤ off → IsBoundary text o → scoreAt r o ≠ ⊥

section Table

variable {v : UgmVocab σ} {text : List UInt8} {off : Nat} {r : List (BestTokenization σ)}

omit [AddCommGroup σ] [LinearOrder σ] in
theorem Segment.lt_le {o p : Nat} {x : Option Nat} (h : v.Segment text o p x) :
    o < p ∧ p ≤ text.length := by
  obtain ⟨-, hlt, hx⟩ := h
  have hpos := codeUnits_pos hlt
  have hle := add_codeUnits_le (Nat.le_of_lt hlt)
  cases x with
  | some id => exact ⟨hx.1, hx.2.1⟩
  | none =>
    omega

omit [AddCommGroup σ] [LinearOrder σ] in
/-- Two offsets fix the segment between them. -/
theorem Segment.eq_segmentAt {o p : Nat} {x : Option Nat} (h : v.Segment text o p x) :
    x = v.segmentAt text o p := by
  obtain ⟨-, -, hx⟩ := h
  rw [segmentAt]
  cases x with
  | some id => exact (v.get_tokenMatcher_iff.mpr hx.2.2).symm
  | none =>
    refine (Option.eq_none_iff_forall_ne_some.mpr fun id hid => ?_).symm
    obtain ⟨t, ht, hin, htext⟩ := v.get_tokenMatcher_iff.mp hid
    exact hx.2 t (mem_of_getElem? ht) hin htext

omit [AddCommGroup σ] [LinearOrder σ] in
/-- Every code point is a segment. -/
theorem exists_segment (hb : IsBoundary text off) (hoff : off < text.length) :
    ∃ x, v.Segment text off (off + codeUnits text off) x := by
  cases ht : tokenFrom (v.tokenMatcher.traverse text[off]) (text.drop (off + 1)) (off + 1)
      (off + codeUnits text off) with
  | none => exact ⟨none, (segment_none_iff hb hoff).mpr ⟨rfl, ht⟩⟩
  | some id => exact ⟨some id, (tokenFrom_iff hb hoff).mp ht⟩

omit [AddCommGroup σ] in
theorem champion_scoreSum (a b : BestTokenization σ) :
    (champion a b).scoreSum = max a.scoreSum b.scoreSum := by
  rw [champion]
  split
  next h => exact (max_eq_right h.le).symm
  next h => exact (max_eq_left (not_lt.mp h)).symm

/-- What one code point leaves alone. -/
theorem tokenizeStep_of_le (hb : IsBoundary text off) (hoff : off < text.length) {q : Nat}
    (hq : q ≤ off) : (v.tokenizeStep text off r)[q]? = r[q]? :=
  (tokenizeStep_spec hb hoff r).2 q fun x hx => by
    have := hx.lt_le
    omega

/-- The entries after one code point, by whether a segment ends there. -/
theorem tokenizeStep_cases (hb : IsBoundary text off) (hoff : off < text.length)
    (r : List (BestTokenization σ)) (p : Nat) :
    (v.tokenizeStep text off r)[p]? = r[p]? ∨ ∃ y, v.Segment text off p y ∧
      (v.tokenizeStep text off r)[p]? = r[p]?.map (champion · ⟨v.segmentToken y, off,
        scoreAt r off + ((v.segmentScore y : σ) : WithBot σ)⟩) := by
  by_cases h : ∃ y, v.Segment text off p y
  · obtain ⟨y, hy⟩ := h
    exact .inr ⟨y, hy, (tokenizeStep_spec hb hoff r).1 p y hy⟩
  · exact .inl ((tokenizeStep_spec hb hoff r).2 p fun x hx => h ⟨x, hx⟩)

theorem scoreAt_le_tokenizeStep (hb : IsBoundary text off) (hoff : off < text.length)
    (r : List (BestTokenization σ)) (p : Nat) :
    scoreAt r p ≤ scoreAt (v.tokenizeStep text off r) p := by
  rcases tokenizeStep_cases (v := v) hb hoff r p with h | ⟨y, -, h⟩
  · rw [scoreAt, scoreAt, h]
  · rw [scoreAt, scoreAt, h]
    cases r[p]? with
    | none => exact le_rfl
    | some x => simp [champion_scoreSum]

theorem length_tokenizeStep (hb : IsBoundary text off) (hoff : off < text.length)
    (r : List (BestTokenization σ)) : (v.tokenizeStep text off r).length = r.length := by
  have hnone : ∀ p, (v.tokenizeStep text off r).length ≤ p ↔ r.length ≤ p := by
    intro p
    rw [← getElem?_eq_none_iff, ← getElem?_eq_none_iff]
    rcases tokenizeStep_cases (v := v) hb hoff r p with h | ⟨y, -, h⟩
    · rw [h]
    · rw [h, Option.map_eq_none_iff]
  exact Nat.le_antisymm ((hnone _).mpr le_rfl) ((hnone _).mp le_rfl)

/-- One code point keeps the invariant. -/
theorem Filled.step (h : Filled v text off r) (hoff : off < text.length) :
    Filled v text (off + codeUnits text off) (v.tokenizeStep text off r) := by
  have hb := h.boundary
  have hold : ∀ q ≤ off, scoreAt (v.tokenizeStep text off r) q = scoreAt r q := fun q hq => by
    rw [scoreAt, scoreAt, tokenizeStep_of_le hb hoff hq]
  have hchallenged : ∀ p y, v.Segment text off p y →
      scoreAt r off + ((v.segmentScore y : σ) : WithBot σ) ≤
        scoreAt (v.tokenizeStep text off r) p := by
    intro p y hy
    have hp : p < r.length := by
      have := hy.lt_le
      have := h.length
      omega
    rw [scoreAt, scoreAt, (tokenizeStep_spec hb hoff r).1 p y hy, getElem?_eq_getElem hp]
    simp [champion_scoreSum, scoreAt]
  have hpos := codeUnits_pos hoff
  refine ⟨hb.next hoff, (length_tokenizeStep hb hoff r).trans h.length, ?_, ?_, ?_, ?_⟩
  · rw [hold 0 (Nat.zero_le _), h.zero]
  · intro p x hp hx hscore
    have hkeep : ∀ x, r[p]? = some x → x.scoreSum ≠ ⊥ → x.inputOffset < p ∧
        x.inputOffset < off + codeUnits text off ∧
        scoreAt (v.tokenizeStep text off r) x.inputOffset ≠ ⊥ ∧
        ∃ y, v.Segment text x.inputOffset p y ∧ x.tokenId = v.segmentToken y ∧
          x.scoreSum = scoreAt (v.tokenizeStep text off r) x.inputOffset +
            ((v.segmentScore y : σ) : WithBot σ) := by
      intro x hx hscore
      obtain ⟨hlt, hlt', hne, y, hy⟩ := h.back p x hp hx hscore
      rw [← hold _ hlt'.le] at hne hy
      exact ⟨hlt, by omega, hne, y, hy⟩
    rcases tokenizeStep_cases (v := v) hb hoff r p with heq | ⟨y, hy, heq⟩
    · exact hkeep x (heq ▸ hx) hscore
    · rw [heq] at hx
      obtain ⟨x0, hx0, rfl⟩ := Option.map_eq_some_iff.mp hx
      rw [champion] at hscore ⊢
      split
      · refine ⟨hy.lt_le.1, by dsimp only; omega, ?_, y, hy, rfl, ?_⟩
        · rw [hold off le_rfl]
          exact h.reached off le_rfl hb
        · rw [hold off le_rfl]
      next hnot =>
        rw [if_neg hnot] at hscore
        exact hkeep x0 hx0 hscore
  · intro o p y ho hy
    rcases Nat.lt_trichotomy o off with hlt | rfl | hgt
    · rw [hold o hlt.le]
      exact (h.max o p y hlt hy).trans (scoreAt_le_tokenizeStep hb hoff r p)
    · rw [hold o le_rfl]
      exact hchallenged p y hy
    · have := hb.next_le hy.1 hgt
      omega
  · intro o ho hbo
    rcases Nat.lt_or_ge off o with hgt | hle
    · obtain rfl : o = off + codeUnits text off := Nat.le_antisymm ho (hb.next_le hbo hgt)
      obtain ⟨y, hy⟩ := exists_segment (v := v) hb hoff
      have hle := hchallenged _ y hy
      intro hbot
      rw [hbot, le_bot_iff, WithBot.add_eq_bot] at hle
      rcases hle with hle | hle
      · exact h.reached off le_rfl hb hle
      · exact WithBot.coe_ne_bot hle
    · rw [hold o hle]
      exact h.reached o hle hbo

/-- The invariant before the loop. -/
theorem filled_start (v : UgmVocab σ) (text : List UInt8) :
    Filled v text 0 (⟨v.unk, 0, 0⟩ :: List.replicate text.length ⟨v.unk, 0, ⊥⟩) := by
  refine ⟨.zero, by simp, rfl, fun p x hp hx hscore => ?_, fun o p y ho _ => ?_, fun o ho _ => ?_⟩
  · obtain - | p := p
    · exact absurd rfl hp
    · rw [getElem?_cons_succ] at hx
      rw [eq_of_mem_replicate (mem_of_getElem? hx)] at hscore
      exact absurd rfl hscore
  · omega
  · obtain rfl : o = 0 := by omega
    simp [scoreAt]

theorem fill_filled {fuel : Nat} (h : Filled v text off r) (hfuel : text.length ≤ off + fuel) :
    Filled v text text.length (v.fill text fuel off r) := by
  induction fuel generalizing off r with
  | zero =>
    have hle := h.boundary.le
    obtain rfl : off = text.length := by omega
    exact h
  | succ fuel ih =>
    rw [fill]
    split
    next hoff =>
      have := codeUnits_pos hoff
      exact ih (h.step hoff) (by omega)
    next hoff =>
      have hle := h.boundary.le
      obtain rfl : off = text.length := by omega
      exact h

/-- The table satisfies the invariant for the whole text. -/
theorem results_filled (v : UgmVocab σ) (text : List UInt8) :
    Filled v text text.length (v.results text) :=
  fill_filled (filled_start v text) (by omega)

end Table

/-! ## Going back -/

section Backtrack

variable {v : UgmVocab σ} {text : List UInt8} {r : List (BestTokenization σ)}

omit [AddCommGroup σ] [LinearOrder σ] in
theorem exists_entry {p : Nat} (h : scoreAt r p ≠ ⊥) :
    ∃ x, r[p]? = some x ∧ x.scoreSum = scoreAt r p ∧ x.inputOffset = originAt r p := by
  unfold scoreAt originAt at *
  cases hx : r[p]? with
  | none => simp [hx] at h
  | some x => exact ⟨x, rfl, rfl, rfl⟩

/-- The table of the loop is a table of best paths. -/
theorem Filled.bestTable (h : Filled v text text.length r) :
    BestTable (v.Segment text) v.segmentScore (scoreAt r) (originAt r)
      fun p => v.segmentAt text (originAt r p) p where
  zero := h.zero
  back p hp hscore := by
    obtain ⟨x, hx, hs, ho⟩ := exists_entry hscore
    obtain ⟨hlt, -, hne, y, hy, -, hsum⟩ := h.back p x hp hx (hs ▸ hscore)
    rw [ho] at hlt hne hy hsum
    rw [← hy.eq_segmentAt]
    exact ⟨hlt, hne, hy, hs ▸ hsum⟩
  max o p y hy := h.max o p y hy.2.1 hy

/-- The loop that overwrites the last entry goes back through the table, and merges runs of the
unknown token on the way. -/
theorem backtrack_eq_trace (h : Filled v text text.length r) {fuel p : Nat}
    {cur : List (BestTokenization σ)} (prev : Bool) {l : List (Option Nat)} {visited : List Nat}
    (hcur : ∀ q < text.length, cur[q]? = r[q]?) (hlast : cur[text.length]? = r[p]?)
    (hp : p ≠ 0) (hle : p ≤ text.length) (hscore : scoreAt r p ≠ ⊥)
    (htrace : trace (originAt r) (fun p => v.segmentAt text (originAt r p) p) fuel p =
      some (l, visited)) :
    backtrack v.unk text.length fuel cur prev p =
      some (mergeUnknown v.unk prev (l.map v.segmentToken).reverse, visited.reverse) := by
  induction fuel generalizing p cur prev l visited with
  | zero => cases htrace
  | succ fuel ih =>
    obtain ⟨x, hx, hs, ho⟩ := exists_entry hscore
    obtain ⟨hlt, -, hne, y, hy, htoken, -⟩ := h.back p x hp hx (hs ▸ hscore)
    have hlabel := hy.eq_segmentAt
    rw [ho] at hlabel
    rw [trace, ← hlabel, ← ho] at htrace
    rw [backtrack, hlast, hx]
    dsimp only
    rw [htoken]
    split at htrace
    next h0 =>
      cases htrace
      rw [if_pos h0]
      simp [mergeUnknown]
    next h0 =>
      obtain ⟨⟨l', visited'⟩, hrest, he⟩ := Option.map_eq_some_iff.mp htrace
      cases he
      obtain ⟨t, ht, -⟩ := exists_entry hne
      rw [if_neg h0, hcur _ (by omega), ht]
      dsimp only
      have hlen : text.length < cur.length := by
        rw [hx] at hlast
        exact (List.getElem?_eq_some_iff.mp hlast).1
      rw [ih _ (fun q hq => by rw [getElem?_set_ne (by omega), hcur q hq])
        (by rw [getElem?_set_self hlen, ht]) h0 (by omega) hne hrest]
      simp only [Option.map_some, map_append, map_cons, map_nil,
        reverse_append, reverse_cons, reverse_nil, nil_append,
        cons_append, mergeUnknown]
      by_cases hu : v.segmentToken y == v.unk
      · cases prev <;> simp [hu]
      · simp [hu]

end Backtrack

omit [AddCommGroup σ] [LinearOrder σ] in
theorem mergeUnknown_append (unk x : Nat) (prev : Bool) (l : List Nat) :
    mergeUnknown unk prev (l ++ [x]) = mergeUnknown unk prev l ++
      if ((l.getLast?.map (· == unk)).getD prev && x == unk) = true then [] else [x] := by
  induction l generalizing prev with
  | nil => simp [mergeUnknown]
  | cons y l ih =>
    have hlast : ((y :: l).getLast?.map (· == unk)).getD prev =
        (l.getLast?.map (· == unk)).getD (y == unk) := by
      rw [getLast?_cons]
      cases l.getLast? <;> rfl
    rw [cons_append, mergeUnknown, mergeUnknown, hlast]
    by_cases h : (prev && y == unk) = true
    · have hy : (y == unk) = true := (Bool.and_eq_true _ _ ▸ h).2
      rw [if_pos h, if_pos h, ih, hy]
    · rw [if_neg h, if_neg h, ih, cons_append]

omit [AddCommGroup σ] [LinearOrder σ] in
/-- Runs can be merged from either end. -/
theorem mergeUnknown_reverse (unk : Nat) (l : List Nat) :
    (mergeUnknown unk false l.reverse).reverse = mergeUnknown unk false l := by
  induction l with
  | nil => rfl
  | cons x l ih =>
    rw [reverse_cons, mergeUnknown_append, reverse_append, ih, getLast?_reverse]
    cases l with
    | nil => simp [mergeUnknown]
    | cons y l =>
      by_cases hx : x = unk
      · by_cases hy : y = unk
        · simp [mergeUnknown, hx, hy]
        · simp [mergeUnknown, hx, hy]
      · simp [mergeUnknown, hx]

/-- For any vocabulary and any normalized text the tokens are those of a segmentation of the
highest score, with runs of the unknown token merged; going back ends at offset 0 and visits only
offsets that the loop has reached. -/
theorem tokenize_optimal [IsOrderedAddMonoid σ] (v : UgmVocab σ) (normalized : List UInt8) :
    ∃ segments out, v.tokenize normalized = some out ∧
      EdgePath (v.Segment normalized) normalized.length segments ∧
      out = mergeUnknown v.unk false (segments.map v.segmentToken) ∧
      (∀ segments', EdgePath (v.Segment normalized) normalized.length segments' →
        pathScore v.segmentScore segments' ≤ pathScore v.segmentScore segments) ∧
      (normalized ≠ [] → ∃ visited,
        backtrack v.unk normalized.length normalized.length (v.results normalized) false
          normalized.length = some (out.reverse, visited) ∧
        ∀ q ∈ visited, scoreAt (v.results normalized) q ≠ ⊥) := by
  have hfilled := results_filled v normalized
  have htable := hfilled.bestTable
  rw [tokenize]
  by_cases hempty : normalized.length = 0
  · refine ⟨[], [], by rw [if_pos hempty], hempty ▸ .nil, rfl, fun segments' hs => ?_,
      fun hne => absurd (length_eq_zero_iff.mp hempty) hne⟩
    have hle := htable.le hs
    rw [hempty, htable.zero] at hle
    exact WithBot.coe_le_coe.mp hle
  · have hscore := hfilled.reached _ le_rfl hfilled.boundary
    obtain ⟨segments, visited, htrace, hpath, hsum, hvisited⟩ :=
      htable.path_of_trace hempty hscore le_rfl
    have hback := backtrack_eq_trace hfilled false (fun q _ => rfl) rfl hempty le_rfl
      hscore htrace
    refine ⟨segments, mergeUnknown v.unk false (segments.map v.segmentToken), ?_, hpath, rfl,
      fun segments' hs => ?_, fun _ => ⟨visited.reverse, ?_, fun q hq => ?_⟩⟩
    · rw [if_neg hempty, hback, Option.map_some, mergeUnknown_reverse]
    · have hle := htable.le hs
      rw [hsum] at hle
      exact WithBot.coe_le_coe.mp hle
    · rw [hback, ← mergeUnknown_reverse, reverse_reverse]
    · exact hvisited q (mem_reverse.mp hq)

/-- A vocabulary with the tokens `a`, `ab` and `b`, and a token that is not matched. -/
def exampleUgm : UgmVocab Int where
  tokens := [⟨[0], 0, false, false, false⟩, ⟨[0x61], -1, true, false, false⟩,
    ⟨[0x61, 0x62], -3, true, false, false⟩, ⟨[0x62], -1, true, false, false⟩]
  unk := 0
  fltMax := 1000
  unknownTokenScorePenalty := 10
  nodup := by decide

theorem tokenize_optimal_abc : ∃ segments : List (Option Nat),
    exampleUgm.tokenize [0x61, 0x62, 0x63] =
      some (mergeUnknown 0 false (segments.map exampleUgm.segmentToken)) := by
  obtain ⟨segments, out, hout, -, rfl, -⟩ := tokenize_optimal exampleUgm [0x61, 0x62, 0x63]
  exact ⟨segments, hout⟩

example : exampleUgm.tokenize [0x61, 0x62, 0x63, 0x64] = some [1, 3, 0] := by decide

end UgmVocab
end BeeLlama
