import BeeLlama.Peg.DelimiterCompile

/-!
# The language of the rules of delimiters

* `alts_of_chunks`: the alternatives of a rule that is read from a text.
* `accepts_class`: the characters of a class.
-/

namespace BeeLlama.Peg

open Gbnf Grammar Cfg List

/-! ## Alternatives -/

/-- No element ends an alternative. -/
def Inner (c : List GrammarElement) : Prop := ∀ e ∈ c, isEndOfSequence e = false

variable {c : List GrammarElement} {e : GrammarElement}

theorem scanAlternates_append (hc : Inner c) (es : List GrammarElement)
    (i : Nat) : scanAlternates (c ++ es) i = scanAlternates es (i + c.length) := by
  induction c generalizing i with
  | nil => rfl
  | cons e c ih =>
    have he := hc e mem_cons_self
    have hrest := ih (fun d hd => hc d (mem_cons_of_mem e hd)) (i + 1)
    have hlen : i + 1 + c.length = i + (e :: c).length := by simp; omega
    rw [cons_append, scanAlternates, ← hlen, ← hrest]
    unfold isEndOfSequence at he
    cases ht : e.type <;> rw [ht] at he <;> first | rfl | cases he

/-- The symbols of an alternative end with it. -/
theorem symsFrom_append (hc : Inner c) {e e' : GrammarElement}
    (he : isEndOfSequence e = true) (he' : isEndOfSequence e' = true) (es es' : List GrammarElement)
    (b : Bool) : symsFrom b (c ++ e :: es) = symsFrom b (c ++ e' :: es') := by
  have hmod : ∀ e : GrammarElement, isEndOfSequence e = true → isModifier e = false := by
    intro e he
    unfold isEndOfSequence at he
    cases ht : e.type <;> simp [ht] at he <;> simp [isModifier, ht]
  have htake : ∀ c : List GrammarElement, (c ++ e :: es).takeWhile isModifier =
      (c ++ e' :: es').takeWhile isModifier := by
    intro c
    induction c with
    | nil => simp [hmod e he, hmod e' he']
    | cons d c ih => simp only [cons_append, takeWhile_cons, ih]
  induction c generalizing b with
  | nil =>
    simp only [nil_append]
    rw [symsFrom_of_end he, symsFrom_of_end he']
  | cons d c ih =>
    have hd := hc d mem_cons_self
    have ihd := ih fun x hx => hc x (mem_cons_of_mem d hx)
    simp only [cons_append, symsFrom, ihd, htake]

/-- The elements behind the first alternative. -/
def laterChunks (cs : List (List GrammarElement)) : List GrammarElement :=
  cs.flatMap (fun c => ⟨.alt, 0⟩ :: c) ++ [⟨.end_, 0⟩]

theorem laterChunks_cons (c : List GrammarElement) (cs : List (List GrammarElement)) :
    laterChunks (c :: cs) = ⟨.alt, 0⟩ :: (c ++ laterChunks cs) := by
  simp [laterChunks]

theorem symsFrom_laterChunks (hc : Inner c) (cs : List (List GrammarElement)) :
    symsFrom false (c ++ laterChunks cs) = symsFrom false (c ++ [⟨.end_, 0⟩]) := by
  cases cs with
  | nil => rfl
  | cons d cs =>
    rw [laterChunks_cons]
    exact symsFrom_append hc rfl rfl _ _ _

/-- Where the alternatives of a rule start, and their symbols. -/
theorem scan_chunks (cs : List (List GrammarElement)) (hcs : ∀ c ∈ cs, Inner c)
    (pre : List GrammarElement) :
    (scanAlternates (laterChunks cs) pre.length).map
        (fun i => symsFrom false ((pre ++ laterChunks cs).drop i)) =
      cs.map fun c => symsFrom false (c ++ [⟨.end_, 0⟩]) := by
  induction cs generalizing pre with
  | nil => simp [laterChunks, scanAlternates]
  | cons c cs ih =>
    have hc := hcs c mem_cons_self
    have hih := ih (fun d hd => hcs d (mem_cons_of_mem c hd)) (pre ++ ⟨.alt, 0⟩ :: c)
    have hlist : pre ++ laterChunks (c :: cs) = (pre ++ ⟨.alt, 0⟩ :: c) ++ laterChunks cs := by
      rw [laterChunks_cons]
      simp
    have hlen : pre.length + 1 + c.length = (pre ++ (⟨.alt, 0⟩ : GrammarElement) :: c).length := by
      simp
      omega
    have hscan : scanAlternates (laterChunks (c :: cs)) pre.length =
        (pre.length + 1) :: scanAlternates (laterChunks cs)
          (pre ++ (⟨.alt, 0⟩ : GrammarElement) :: c).length := by
      rw [laterChunks_cons, scanAlternates]
      dsimp only
      rw [scanAlternates_append hc, hlen]
    have hdrop : (pre ++ laterChunks (c :: cs)).drop (pre.length + 1) = c ++ laterChunks cs := by
      rw [laterChunks_cons, drop_append]
      simp
    rw [hscan, map_cons, map_cons, hdrop, symsFrom_laterChunks hc, hlist, hih]

/-- The alternatives of a rule that is read from a text. -/
theorem alts_of_chunks {rules : GrammarRules} {id : Nat} {cs : List (List GrammarElement)}
    (hr : rules.getD id [] = joinChunks cs ++ [⟨.end_, 0⟩]) (hne : cs ≠ [])
    (hcs : ∀ c ∈ cs, Inner c) :
    alts rules id = cs.map fun c => symsFrom false (c ++ [⟨.end_, 0⟩]) := by
  cases cs with
  | nil => exact absurd rfl hne
  | cons c cs =>
    have hc := hcs c mem_cons_self
    have hlist : joinChunks (c :: cs) ++ [⟨.end_, 0⟩] = c ++ laterChunks cs := by
      simp [joinChunks, laterChunks]
    unfold alts altStarts
    rw [hr, hlist, map_cons, map_cons, scanAlternates_append hc, Nat.zero_add,
      scan_chunks cs (fun d hd => hcs d (mem_cons_of_mem c hd)) c, drop_zero,
      symsFrom_laterChunks hc]

/-! ## Classes -/

theorem inner_altElems (id : List UInt8 → Nat) (a : TextAlt) : Inner (altElems id a) := by
  intro e he
  rcases mem_altElems he with h | ⟨n, -, rfl⟩
  · rcases h with h | h | h <;> simp [isEndOfSequence, h]
  · rfl

/-- The symbols behind the elements of a class. -/
theorem symsFrom_alts (cs : List Nat) (es : List GrammarElement) :
    symsFrom true (cs.map (fun c => ⟨.charAlt, c⟩) ++ es) = symsFrom true es := by
  induction cs with
  | nil => rfl
  | cons c cs ih => simpa [symsFrom] using ih

theorem takeWhile_alts (cs : List Nat) (he : isModifier e = false) (es : List GrammarElement) :
    ((cs.map fun c => (⟨.charAlt, c⟩ : GrammarElement)) ++ e :: es).takeWhile isModifier =
      cs.map fun c => ⟨.charAlt, c⟩ := by
  induction cs with
  | nil => simp [he]
  | cons c cs ih => simp [isModifier] at ih ⊢; simpa using ih

/-- A class is one terminal. -/
theorem symsFrom_class {t : GreType} (ht : t = .char ∨ t = .charNot) {chars : List Nat}
    (hne : chars ≠ []) (he : isModifier e = false) (es : List GrammarElement) :
    symsFrom false (classElems t chars ++ e :: es) =
      .term (classElems t chars) :: symsFrom true (e :: es) := by
  cases chars with
  | nil => exact absurd rfl hne
  | cons c cs =>
    rcases ht with rfl | rfl <;>
      simp only [classElems, cons_append, symsFrom, takeWhile_alts cs he, symsFrom_alts]

/-- The characters of a class. -/
theorem accepts_class {chars : List Nat} (hne : chars ≠ []) (c : Nat) :
    (accepts (classElems .char chars) c ↔ IsCodePoint c ∧ c ∈ chars) ∧
      (accepts (classElems .charNot chars) c ↔ IsCodePoint c ∧ c ∉ chars) := by
  have hints : ∀ (t : GreType) (d : Nat) (cs : List Nat),
      intervals (classElems t (d :: cs)) = (d :: cs).map fun x => (x, x) := by
    intro t d cs
    induction cs generalizing t d with
    | nil => rfl
    | cons x cs ih =>
      have := ih .charAlt x
      simp only [classElems, map_cons] at this ⊢
      rw [intervals, if_neg (by simp), this]
  cases chars with
  | nil => exact absurd rfl hne
  | cons d cs =>
    have hin : ∀ t, InIntervals (classElems t (d :: cs)) c ↔ c ∈ d :: cs := by
      intro t
      unfold InIntervals
      rw [hints]
      constructor
      · rintro ⟨i, hi, h1, h2⟩
        obtain ⟨x, hx, rfl⟩ := mem_map.mp hi
        obtain rfl : x = c := le_antisymm h1 h2
        exact hx
      · exact fun h => ⟨(c, c), mem_map.mpr ⟨c, h, rfl⟩, le_rfl, le_rfl⟩
    exact ⟨and_congr_right fun _ => hin .char, and_congr_right fun _ => not_congr (hin .charNot)⟩

end BeeLlama.Peg
