import BeeLlama.Peg.DelimiterText

/-!
# The rules of the states

* `classesOk`: the classes of a state hold the characters of the alphabet by where they lead.
* `excludingRule_eq`, `includingRule_eq`: the alternatives of the text that is built for a state.
* `stateName_inj`: the states have different names.
-/

namespace BeeLlama.Peg

open Gbnf List

/-! ## Classes -/

section Classes

variable {ac : AhoCorasick} {q : Nat}

theorem mem_pushBucket {d c d' c' : Nat} {m : List (Nat × List Nat)} :
    (∃ b ∈ pushBucket d c m, b.1 = d' ∧ c' ∈ b.2) ↔
      (d' = d ∧ c' = c) ∨ ∃ b ∈ m, b.1 = d' ∧ c' ∈ b.2 := by
  induction m with
  | nil => simp [pushBucket, eq_comm]
  | cons a m ih =>
    unfold pushBucket
    split
    · simp [eq_comm]
    · split
      · next hd =>
        subst hd
        simp only [exists_mem_cons_iff, mem_append, mem_singleton]
        constructor
        · rintro (⟨rfl, h | rfl⟩ | h)
          · exact .inr (.inl ⟨rfl, h⟩)
          · exact .inl ⟨rfl, rfl⟩
          · exact .inr (.inr h)
        · rintro (⟨rfl, rfl⟩ | ⟨rfl, h⟩ | h)
          · exact .inl ⟨rfl, .inr rfl⟩
          · exact .inl ⟨rfl, .inl h⟩
          · exact .inr h
      · rw [exists_mem_cons_iff, ih, exists_mem_cons_iff]
        exact or_left_comm

theorem pushBucket_ne_nil {d c : Nat} {m : List (Nat × List Nat)} (h : ∀ b ∈ m, b.2 ≠ []) :
    ∀ b ∈ pushBucket d c m, b.2 ≠ [] := by
  induction m with
  | nil => simp [pushBucket]
  | cons a m ih =>
    have hm := ih fun b hb => h b (mem_cons_of_mem a hb)
    have ha := h a mem_cons_self
    intro b hb
    unfold pushBucket at hb
    split at hb
    · rcases mem_cons.mp hb with rfl | hb
      · exact cons_ne_nil _ _
      · exact h b hb
    · split at hb
      · rcases mem_cons.mp hb with rfl | hb
        · simp
        · exact h b (mem_cons_of_mem a hb)
      · rcases mem_cons.mp hb with rfl | hb
        · exact ha
        · exact hm b hb

/-- The classes of the characters that were looked at. -/
structure ClassesOk (ac : AhoCorasick) (q : Nat) (seen : List Nat) (k : Classes) : Prop where
  completing : ∀ c, c ∈ k.completing ↔ c ∈ seen ∧ ac.isTerminal (ac.next q c) = true
  buckets : ∀ d c, (∃ b ∈ k.buckets, b.1 = d ∧ c ∈ b.2) ↔
    c ∈ seen ∧ ac.isTerminal (ac.next q c) = false ∧ ac.next q c = d ∧ d ≠ 0
  specific : ∀ c, c ∈ k.specific ↔ c ∈ seen ∧ (ac.isTerminal (ac.next q c) = true ∨ ac.next q c ≠ 0)
  ne_nil : ∀ b ∈ k.buckets, b.2 ≠ []

theorem ClassesOk.step {seen : List Nat} {k : Classes} (h : ClassesOk ac q seen k) (c : Nat) :
    ClassesOk ac q (seen ++ [c]) (classStep ac q k c) := by
  unfold classStep
  dsimp only
  by_cases ht : ac.isTerminal (ac.next q c) = true
  · rw [if_pos ht]
    refine ⟨fun x => ?_, fun d x => ?_, fun x => ?_, h.ne_nil⟩
    · rw [mem_append, mem_append, h.completing, mem_singleton]
      grind
    · rw [mem_append, h.buckets, mem_singleton]
      grind
    · rw [mem_append, mem_append, h.specific, mem_singleton]
      grind
  · rw [if_neg ht]
    by_cases hd : ac.next q c ≠ 0
    · rw [if_pos hd]
      refine ⟨fun x => ?_, fun d x => ?_, fun x => ?_, pushBucket_ne_nil h.ne_nil⟩
      · rw [mem_append, h.completing, mem_singleton]
        grind
      · rw [mem_append, mem_pushBucket, h.buckets, mem_singleton]
        grind
      · rw [mem_append, mem_append, h.specific, mem_singleton]
        grind
    · rw [if_neg hd]
      refine ⟨fun x => ?_, fun d x => ?_, fun x => ?_, h.ne_nil⟩
      · rw [mem_append, h.completing, mem_singleton]
        grind
      · rw [mem_append, h.buckets, mem_singleton]
        grind
      · rw [mem_append, h.specific, mem_singleton]
        grind

/-- The classes of a state hold the characters of the alphabet. -/
theorem classesOk (ac : AhoCorasick) (q : Nat) : ClassesOk ac q ac.alphabet (classes ac q) := by
  have hfold : ∀ (cs seen : List Nat) (k : Classes), ClassesOk ac q seen k →
      ClassesOk ac q (seen ++ cs) (cs.foldl (classStep ac q) k) := by
    intro cs
    induction cs with
    | nil => exact fun seen k h => by rwa [append_nil]
    | cons c cs ih =>
      intro seen k h
      have := ih (seen ++ [c]) _ (h.step c)
      rwa [append_assoc] at this
  exact hfold ac.alphabet [] {} ⟨by simp, by simp, by simp, by simp⟩

/-- The completing characters are in the order of the alphabet. -/
theorem completing_eq (ac : AhoCorasick) (q : Nat) : (classes ac q).completing =
    ac.alphabet.filter fun c => ac.isTerminal (ac.next q c) := by
  have hfold : ∀ (cs : List Nat) (k : Classes), (cs.foldl (classStep ac q) k).completing =
      k.completing ++ cs.filter fun c => ac.isTerminal (ac.next q c) := by
    intro cs
    induction cs with
    | nil => simp
    | cons c cs ih =>
      intro k
      rw [foldl_cons, ih, filter_cons]
      unfold classStep
      dsimp only
      split
      · simp
      · split <;> rfl
  exact hfold ac.alphabet {}

end Classes

/-! ## Texts -/

/-- A rule with these alternatives and a last one. -/
def mkRule (name : List UInt8) (optional : Bool) (as : List TextAlt) (last : TextAlt) : TextRule :=
  ⟨name, optional, (as ++ [last]).headD last, (as ++ [last]).tail⟩

/-- The alternatives of the buckets. -/
def bucketAlts (k : Classes) (stateName : Nat → List UInt8) : List TextAlt :=
  k.buckets.map fun b => ⟨false, b.2, some (stateName b.1)⟩

/-- The alternative of the characters that are completed, if there are any. -/
def completingAlts (k : Classes) : List TextAlt :=
  if k.completing = [] then [] else [⟨false, k.completing, none⟩]

/-- The alternative of all other characters. -/
def otherAlt (k : Classes) (stateName : Nat → List UInt8) : TextAlt :=
  ⟨true, k.specific, some (stateName 0)⟩

/-- The rule of a state, in the grammar that excludes the delimiters or in the other one. -/
def stateRule (excluding : Bool) (base : List UInt8) (ac : AhoCorasick) (q : Nat) : TextRule :=
  let k := classes ac q
  mkRule (stateName base q) excluding
    ((if excluding then [] else completingAlts k) ++ bucketAlts k (stateName base))
    (otherAlt k (stateName base))

theorem mkRule_alts (name : List UInt8) (optional : Bool) (as : List TextAlt) (last : TextAlt) :
    (mkRule name optional as last).alts = as ++ [last] := by
  unfold mkRule TextRule.alts
  cases as <;> rfl

theorem mkRule_body (name : List UInt8) (optional : Bool) (as : List TextAlt) (last : TextAlt) :
    (mkRule name optional as last).body = (if optional then [124, 32] else []) ++
      as.flatMap (fun a => a.text ++ [32, 124, 32]) ++ last.text := by
  have hrest : ∀ (as : List TextAlt) (a : TextAlt),
      a.text ++ (as ++ [last]).flatMap (fun a => [32, 124, 32] ++ a.text) =
        (a :: as).flatMap (fun a => a.text ++ [32, 124, 32]) ++ last.text := by
    intro as
    induction as with
    | nil => simp
    | cons b as ih =>
      intro a
      have := ih b
      simp only [cons_append, flatMap_cons, append_assoc] at this ⊢
      rw [this]
  unfold mkRule TextRule.body
  cases as with
  | nil => simp
  | cons a as =>
    have := hrest as a
    simp only [cons_append, headD_cons, tail_cons, append_assoc] at this ⊢
    rw [this]

theorem excludingRule_eq (base : List UInt8) (ac : AhoCorasick) (q : Nat) :
    excludingRule (classes ac q) (stateName base) = (stateRule true base ac q).body := by
  have hshift : ∀ (bs : List (Nat × List Nat)) (f : Nat × List Nat → List UInt8) (l : List UInt8),
      bs.flatMap (fun b => 32 :: (f b ++ [32, 124])) ++ 32 :: l =
        32 :: (bs.flatMap (fun b => f b ++ [32, 124, 32]) ++ l) := by
    intro bs f l
    induction bs with
    | nil => rfl
    | cons b bs ih =>
      rw [flatMap_cons, append_assoc, ih]
      simp
  rw [stateRule, mkRule_body]
  unfold excludingRule bucketAlts otherAlt TextAlt.text
  have h := hshift (classes ac q).buckets
    (fun b => gbnfCharClass b.2 false ++ 32 :: stateName base b.1)
    (gbnfCharClass (classes ac q).specific true ++ 32 :: stateName base 0)
  simp only [append_assoc, cons_append, nil_append, flatMap_map, if_true] at h ⊢
  rw [h]

theorem intercalate_append (sep : List UInt8) (as : List (List UInt8)) (last : List UInt8) :
    sep.intercalate (as ++ [last]) = as.flatMap (fun a => a ++ sep) ++ last := by
  induction as with
  | nil => simp [List.intercalate]
  | cons a as ih =>
    cases as with
    | nil => simp [List.intercalate]
    | cons b as =>
      rw [flatMap_cons, append_assoc, ← ih]
      simp [List.intercalate]

theorem includingRule_eq (base : List UInt8) (ac : AhoCorasick) (q : Nat) :
    includingRule (classes ac q) (stateName base) = (stateRule false base ac q).body := by
  rw [stateRule, mkRule_body]
  unfold includingRule bucketAlts completingAlts otherAlt TextAlt.text
  dsimp only
  rw [intercalate_append, flatMap_append, if_neg Bool.false_ne_true, nil_append,
    if_neg Bool.false_ne_true, flatMap_append, flatMap_map, flatMap_map]
  simp only [append_assoc, cons_append, nil_append]
  congr 1
  split
  · rfl
  · simp only [flatMap_cons, flatMap_nil, append_nil, nil_append]

/-! ## Names -/

/-- The number that digits stand for. -/
def digitsValue (l : List UInt8) : Nat := l.foldl (fun v c => v * 10 + (c.toNat - 48)) 0

theorem isDigit_toNat {c : Char} (h : c.isDigit = true) : 48 ≤ c.toNat ∧ c.toNat ≤ 57 := by
  simp only [Char.isDigit, Bool.and_eq_true, decide_eq_true_eq] at h
  exact ⟨UInt32.le_iff_toNat_le.mp h.1, UInt32.le_iff_toNat_le.mp h.2⟩

theorem digitsValue_toString (n : Nat) : digitsValue (Gbnf.toString n) = n := by
  have hfold : ∀ (l : List Char), (∀ c ∈ l, c.isDigit = true) → ∀ v,
      (l.map fun c => UInt8.ofNat c.toNat).foldl (fun v c => v * 10 + (c.toNat - 48)) v =
        Nat.ofDigitChars 10 l v := by
    intro l
    induction l with
    | nil => intro _ v; simp
    | cons c l ih =>
      intro hl v
      have hc := isDigit_toNat (hl c mem_cons_self)
      rw [Nat.ofDigitChars_cons, ← ih fun d hd => hl d (mem_cons_of_mem c hd)]
      rw [map_cons, foldl_cons, toNat_ofNat (by omega), Nat.mul_comm]
      rfl
  unfold digitsValue Gbnf.toString
  rw [hfold _ (fun c hc => Nat.isDigit_of_mem_toDigits (by decide) (by decide) hc)]
  exact Nat.ofDigitChars_ten_toDigits

theorem digitsValue_zero_cons (l : List UInt8) : digitsValue (48 :: l) = digitsValue l := rfl

/-- The states have different names. -/
theorem stateName_inj {base : List UInt8} {s s' : Nat} (h : stateName base s = stateName base s') :
    s = s' := by
  have hpad : ∀ n, digitsValue (if (Gbnf.toString n).length = 1 then 48 :: Gbnf.toString n
      else Gbnf.toString n) = n := by
    intro n
    split
    · rw [digitsValue_zero_cons, digitsValue_toString]
    · exact digitsValue_toString n
  have hlen : ∀ l : List UInt8, base ≠ base ++ 45 :: l := fun l e => by
    have := congrArg List.length e
    simp at this
  unfold stateName at h
  by_cases hs : s = 0
  · by_cases hs' : s' = 0
    · rw [hs, hs']
    · rw [if_pos hs, if_neg hs'] at h
      exact absurd h (hlen _)
  · by_cases hs' : s' = 0
    · rw [if_neg hs, if_pos hs'] at h
      exact absurd h.symm (hlen _)
    · rw [if_neg hs, if_neg hs'] at h
      have h' := (List.cons.inj (append_cancel_left h)).2
      have hv := congrArg digitsValue h'
      rwa [hpad, hpad] at hv

theorem isName_stateName {base : List UInt8} (hb : IsName base) (s : Nat) :
    IsName (stateName base s) := by
  have hdigits : ∀ c ∈ Gbnf.toString s, isWordChar c = true := by
    intro c hc
    obtain ⟨d, hd, rfl⟩ := mem_map.mp hc
    have h := isDigit_toNat (Nat.isDigit_of_mem_toDigits (by decide) (by decide) hd)
    have hlt : d.toNat < 256 := by omega
    simp only [isWordChar, isDigitChar, Bool.or_eq_true, Bool.and_eq_true, decide_eq_true_eq,
      UInt8.le_iff_toNat_le, toNat_ofNat hlt]
    exact .inr ⟨h.1, h.2⟩
  unfold stateName
  split
  · exact hb
  · refine ⟨by simp, fun c hc => ?_⟩
    rcases mem_append.mp hc with hc | hc
    · exact hb.word c hc
    · rcases mem_cons.mp hc with rfl | hc
      · rfl
      · split at hc
        · rcases mem_cons.mp hc with rfl | hc
          · rfl
          · exact hdigits c hc
        · exact hdigits c hc

end BeeLlama.Peg
