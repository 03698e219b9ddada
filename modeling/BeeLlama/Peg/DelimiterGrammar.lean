import BeeLlama.Peg.DelimiterLanguage
import BeeLlama.Peg.DelimiterStates

/-!
# Grammars of delimiters and their languages

* `noDash_iff_alts`, `noCaret_iff`: which delimiters give classes that are read as they were meant.
* `derives_state_cons`: a rule derives what its state goes on with.
* `delimiter_grammars`: the grammars that are accepted and read as they were meant generate the
  strings without a delimiter, and those that end with their first delimiter.
-/

namespace BeeLlama.Peg

open Gbnf Grammar Cfg Suffix List Trie

/-- A delimiter ends here. -/
def EndsDelimiter (strings : List (List UInt8)) (w : List Nat) : Prop :=
  EndsIn (fun u => ∃ d ∈ strings, u = symbolsOf d) w

/-- The bytes are code points, one after the other. -/
def validFrom (word : List UInt8) : Nat → Nat → Bool
  | 0, pos => pos == word.length
  | fuel + 1, pos =>
    match parseUtf8 word pos with
    | .success _ k => validFrom word fuel (pos + k)
    | _ => pos == word.length

/-- The string is valid UTF-8. -/
def ValidUtf8 (word : List UInt8) : Prop := validFrom word word.length 0 = true

/-- No delimiter has the character `-`, but behind another delimiter. -/
def NoDash (strings : List (List UInt8)) : Prop :=
  ∀ d ∈ strings, ∀ x y, symbolsOf d = x ++ 45 :: y → EndsDelimiter strings x

/-- No delimiter has the character `^`, but at its end or behind another delimiter; and where it
ends a delimiter and delimiters are included, so does a smaller character. -/
structure NoCaret (excluding : Bool) (strings : List (List UInt8)) : Prop where
  inside : ∀ d ∈ strings, ∀ x y, symbolsOf d = x ++ 94 :: y →
    EndsDelimiter strings x ∨ EndsDelimiter strings (x ++ [94])
  last : excluding = false → ∀ d ∈ strings, ∀ x, x <+: symbolsOf d → ¬ EndsDelimiter strings x →
    EndsDelimiter strings (x ++ [94]) → ∃ c < 94, EndsDelimiter strings (x ++ [c])

/-- The automaton of the delimiters. -/
abbrev automaton (strings : List (List UInt8)) : AhoCorasick := ahoCorasick (trieOf strings)

/-- The states with a rule. -/
def ruleStates (strings : List (List UInt8)) : List Nat :=
  (List.range (automaton strings).numStates).filter fun q => !(automaton strings).isTerminal q

section States

variable {strings : List (List UInt8)}

theorem hasPattern_iff (w : List Nat) :
    EndsIn (trieOf strings).HasPattern w ↔ EndsDelimiter strings w :=
  exists_congr fun _ => and_congr_left fun _ => hasPattern_trieOf_iff

/-- A state is terminal if a delimiter ends with its word. -/
theorem isTerminal_iff {w : List Nat} {s : Nat} (hw : (trieOf strings).Path w s) :
    (automaton strings).isTerminal s = true ↔ EndsDelimiter strings w :=
  (AhoCorasick.isTerminal_iff (tree_trieOf strings) hw).trans (hasPattern_iff w)

/-- The next state stands for the longest suffix in the trie, and is terminal if a delimiter ends
there. -/
theorem next_spec {w : List Nat} {s : Nat} (hw : (trieOf strings).Path w s) (c : Nat) :
    ∃ z, (trieOf strings).Path z ((automaton strings).next s c) ∧
      Longest (trieOf strings).HasWord (w ++ [c]) z ∧
      ((automaton strings).isTerminal ((automaton strings).next s c) = true ↔
        EndsDelimiter strings (w ++ [c])) := by
  obtain ⟨z, hz, hl⟩ := AhoCorasick.next_spec (tree_trieOf strings) hw c
  refine ⟨z, hz, hl, ?_⟩
  rw [isTerminal_iff hz, ← hasPattern_iff, ← hasPattern_iff]
  exact (endsIn_iff (fun u hu => hasWord_of_hasPattern hu) hl).symm

theorem mem_ruleStates {q : Nat} : q ∈ ruleStates strings ↔
    q < (automaton strings).numStates ∧ (automaton strings).isTerminal q = false := by
  simp [ruleStates]

theorem exists_path {q : Nat} (hq : q < (automaton strings).numStates) :
    ∃ w, (trieOf strings).Path w q := (tree_trieOf strings).reached q hq

theorem symbolsFrom_lt (word : List UInt8) (fuel pos : Nat) :
    ∀ c ∈ symbolsFrom word fuel pos, c < 2 ^ 32 := by
  induction fuel generalizing pos with
  | zero => simp [symbolsFrom]
  | succ fuel ih =>
    unfold symbolsFrom
    split
    · next ch k h =>
      intro c hc
      rcases mem_cons.mp hc with rfl | hc
      · exact parseUtf8_lt h
      · exact ih _ c hc
    · simp

theorem alphabet_lt {c : Nat} (hne : strings ≠ []) (hc : c ∈ (automaton strings).alphabet) :
    c < 2 ^ 32 := by
  have ht := tree_trieOf strings
  rcases (mem_foldl_insertSymbolSet _ _).mp hc with hc | hc
  · cases hc
  obtain ⟨node, hnode, hc⟩ := mem_flatMap.mp hc
  obtain ⟨⟨ch, v⟩, hch, rfl⟩ := mem_map.mp hc
  obtain ⟨u, hu, rfl⟩ := mem_iff_getElem.mp hnode
  have hchild : (trieOf strings).child u ch = some v := by
    refine ht.mem_children_iff.mp ?_
    rwa [getD_eq_getElem?_getD, getElem?_eq_getElem hu, Option.getD_some]
  obtain ⟨w, hw⟩ := ht.reached u hu
  obtain ⟨d, hd, hpre⟩ := (hasWord_trieOf_iff hne).mp ⟨v, hw.snoc hchild⟩
  exact symbolsFrom_lt d _ _ ch (hpre.subset (by simp))

/-- A delimiter that is not empty has a first character. -/
theorem symbolsOf_ne_nil {d : List UInt8} (hd : d ≠ []) (hv : ValidUtf8 d) : symbolsOf d ≠ [] := by
  obtain ⟨n, hn⟩ : ∃ n, d.length = n + 1 :=
    Nat.exists_eq_succ_of_ne_zero (fun h => hd (length_eq_zero_iff.mp h))
  unfold ValidUtf8 at hv
  unfold symbolsOf
  rw [hn] at hv ⊢
  unfold validFrom at hv
  unfold symbolsFrom
  cases e : parseUtf8 d 0 with
  | success c k => exact cons_ne_nil _ _
  | incomplete =>
    rw [e] at hv
    simp [hn] at hv
  | invalid =>
    rw [e] at hv
    simp [hn] at hv

section Classes

variable (hne : strings ≠ []) (hsym : ∀ d ∈ strings, symbolsOf d ≠ [])

theorem endsDelimiter_suffix {x w : List Nat} (h : EndsDelimiter strings x) (hs : x <:+ w) :
    EndsDelimiter strings w := h.imp fun _ hu => ⟨hu.1, hu.2.trans hs⟩

include hsym in
theorem not_endsDelimiter_nil : ¬ EndsDelimiter strings [] := by
  rintro ⟨u, ⟨d, hd, rfl⟩, hs⟩
  exact hsym d hd (suffix_nil.mp hs)

include hsym in
/-- The root is not terminal. -/
theorem isTerminal_zero : (automaton strings).isTerminal 0 = false := by
  by_contra h
  rw [Bool.not_eq_false, isTerminal_iff .nil] at h
  exact not_endsDelimiter_nil hsym h

variable {w : List Nat} {q : Nat}

/-- A character leads out of the root if a word of the trie ends with it. -/
theorem next_ne_zero_iff (hw : (trieOf strings).Path w q) (c : Nat) :
    (automaton strings).next q c ≠ 0 ↔ ∃ x, x <:+ w ∧ (trieOf strings).HasWord (x ++ [c]) := by
  obtain ⟨z, hz, hl, -⟩ := next_spec hw c
  have hzero : (automaton strings).next q c ≠ 0 ↔ z ≠ [] := by
    refine not_congr ⟨fun e => ?_, fun e => ?_⟩
    · rw [e] at hz
      exact (tree_trieOf strings).path_inj hz .nil
    · rw [e] at hz
      exact path_nil_iff.mp hz
  rw [hzero]
  constructor
  · intro hz0
    obtain ⟨x, rfl, hx⟩ := (suffix_snoc hl.suffix).resolve_left hz0
    exact ⟨x, hx, hl.mem⟩
  · rintro ⟨x, hx, hmem⟩ rfl
    have := hl.longest _ (suffix_snoc_snoc hx) hmem
    exact absurd (suffix_nil.mp this) (by simp)

include hsym in
theorem mem_specific_iff (q c : Nat) : c ∈ (classes (automaton strings) q).specific ↔
    (automaton strings).next q c ≠ 0 := by
  rw [(classesOk _ q).specific]
  constructor
  · rintro ⟨-, h | h⟩
    · rintro e
      rw [e, isTerminal_zero hsym] at h
      cases h
    · exact h
  · exact fun h => ⟨AhoCorasick.mem_alphabet_of_next (tree_trieOf strings) h, .inr h⟩

include hsym in
theorem mem_completing_iff (q c : Nat) : c ∈ (classes (automaton strings) q).completing ↔
    (automaton strings).isTerminal ((automaton strings).next q c) = true := by
  rw [(classesOk _ q).completing]
  refine ⟨And.right, fun h => ⟨?_, h⟩⟩
  have h0 : (automaton strings).next q c ≠ 0 := fun e => by
    rw [e, isTerminal_zero hsym] at h
    cases h
  exact AhoCorasick.mem_alphabet_of_next (tree_trieOf strings) h0

/-- The characters of the classes are the specific ones. -/
theorem subset_specific (q : Nat) : (∀ c ∈ (classes (automaton strings) q).completing,
      c ∈ (classes (automaton strings) q).specific) ∧
    ∀ b ∈ (classes (automaton strings) q).buckets, ∀ c ∈ b.2,
      c ∈ (classes (automaton strings) q).specific := by
  have h := classesOk (automaton strings) q
  refine ⟨fun c hc => ?_, fun b hb c hc => ?_⟩
  · exact (h.specific c).mpr ((h.completing c).mp hc |>.imp id .inl)
  · obtain ⟨hmem, -, hd, h0⟩ := (h.buckets b.1 c).mp ⟨b, hb, rfl, hc⟩
    exact (h.specific c).mpr ⟨hmem, .inr (hd ▸ h0)⟩

include hne hsym in
/-- Every state has characters that do not lead to the root. -/
theorem specific_ne_nil (hq : q < (automaton strings).numStates) :
    (classes (automaton strings) q).specific ≠ [] := by
  obtain ⟨w, hw⟩ := exists_path hq
  obtain ⟨d, hd⟩ := exists_mem_of_ne_nil strings hne
  obtain ⟨c, cs, hcs⟩ := exists_cons_of_ne_nil (hsym d hd)
  have hc : (automaton strings).next q c ≠ 0 := by
    refine (next_ne_zero_iff hw c).mpr ⟨[], nil_suffix, ?_⟩
    exact (hasWord_trieOf_iff hne).mpr ⟨d, hd, hcs ▸ ⟨cs, rfl⟩⟩
  exact ne_nil_of_mem ((mem_specific_iff hsym q c).mpr hc)

include hne in
theorem exists_split {x : List Nat} {c : Nat} (h : (trieOf strings).HasWord (x ++ [c])) :
    ∃ d ∈ strings, ∃ y, symbolsOf d = x ++ c :: y := by
  obtain ⟨d, hd, y, hy⟩ := (hasWord_trieOf_iff hne).mp h
  exact ⟨d, hd, y, by rw [← hy]; simp⟩

include hne hsym in
/-- No class has the character `-` if no delimiter has it, but behind another delimiter. -/
theorem noDash_iff : NoDash strings ↔
    ∀ q ∈ ruleStates strings, 45 ∉ (classes (automaton strings) q).specific := by
  constructor
  · intro h q hq hmem
    rw [mem_ruleStates] at hq
    obtain ⟨w, hw⟩ := exists_path hq.1
    rw [mem_specific_iff hsym, next_ne_zero_iff hw] at hmem
    obtain ⟨x, hx, hword⟩ := hmem
    obtain ⟨d, hd, y, hy⟩ := exists_split hne hword
    have := (isTerminal_iff hw).mpr (endsDelimiter_suffix (h d hd x y hy) hx)
    rw [hq.2] at this
    cases this
  · intro h d hd x y hy
    by_contra hx
    have hword : ∀ u, u <+: symbolsOf d → (trieOf strings).HasWord u := fun u hu =>
      (hasWord_trieOf_iff hne).mpr ⟨d, hd, hu⟩
    obtain ⟨q, hq⟩ := hword x ⟨45 :: y, hy.symm⟩
    have hstate : q ∈ ruleStates strings := by
      refine mem_ruleStates.mpr ⟨(tree_trieOf strings).path_lt hq, ?_⟩
      rw [← Bool.not_eq_true, isTerminal_iff hq]
      exact hx
    refine h q hstate ((mem_specific_iff hsym q 45).mpr ((next_ne_zero_iff hq 45).mpr ?_))
    exact ⟨x, suffix_refl x, hword _ ⟨y, by rw [hy]; simp⟩⟩

include hsym in
/-- The smallest character that completes a delimiter stands first. -/
theorem head_completing (hw : (trieOf strings).Path w q) (c : Nat) :
    (classes (automaton strings) q).completing.head? = some c ↔
      EndsDelimiter strings (w ++ [c]) ∧ ∀ a < c, ¬ EndsDelimiter strings (w ++ [a]) := by
  have hmem : ∀ a, a ∈ (classes (automaton strings) q).completing ↔
      EndsDelimiter strings (w ++ [a]) := fun a => by
    obtain ⟨-, -, -, hterm⟩ := next_spec hw a
    rw [mem_completing_iff hsym, hterm]
  have hsorted : (classes (automaton strings) q).completing.Pairwise (· < ·) := by
    rw [completing_eq]
    exact (pairwise_foldl_insertSymbolSet _ .nil).filter _
  simp only [← hmem]
  cases hcs : (classes (automaton strings) q).completing with
  | nil => simp
  | cons b cs =>
    rw [hcs] at hsorted
    have hlt := (pairwise_cons.mp hsorted).1
    rw [head?_cons, Option.some_inj]
    constructor
    · rintro rfl
      refine ⟨mem_cons_self, fun a ha hmem => ?_⟩
      rcases mem_cons.mp hmem with rfl | hmem
      · exact lt_irrefl _ ha
      · exact lt_asymm ha (hlt a hmem)
    · rintro ⟨hmem, hmin⟩
      rcases mem_cons.mp hmem with rfl | hmem
      · rfl
      · exact absurd mem_cons_self (hmin b (hlt c hmem))

/-- A character that leads to a longer word of the trie is alone in its class. -/
theorem head_bucket {q q' : Nat} {c : Nat} (hw : (trieOf strings).Path w q)
    (hw' : (trieOf strings).Path (w ++ [c]) q') {b : Nat × List Nat}
    (hb : b ∈ (classes (automaton strings) q).buckets) (hd : b.1 = q') : b.2.head? = some c := by
  obtain ⟨a, as, has⟩ := exists_cons_of_ne_nil ((classesOk _ q).ne_nil b hb)
  have ha : a ∈ b.2 := by
    rw [has]
    exact mem_cons_self
  obtain ⟨-, -, hnext, -⟩ := ((classesOk (automaton strings) q).buckets b.1 a).mp ⟨b, hb, rfl, ha⟩
  obtain ⟨z, hz, hl, -⟩ := next_spec hw a
  rw [hnext, hd] at hz
  obtain rfl := (tree_trieOf strings).path_inj hz hw'
  obtain ⟨l, hl⟩ := hl.suffix
  rw [← append_assoc] at hl
  rw [has, head?_cons, singleton_inj.mp (append_inj' hl rfl).2]

end Classes

/-! ## The rules -/

/-- The rules of the states. -/
def stateRules (excluding : Bool) (base : List UInt8) (strings : List (List UInt8)) :
    List TextRule :=
  (ruleStates strings).map (stateRule excluding base (automaton strings))

/-- The rules that are emitted. -/
def emitted (excluding : Bool) (base : List UInt8) (strings : List (List UInt8)) :
    List (List UInt8 × List UInt8) :=
  if excluding then gbnfExcludingGrammar base strings else gbnfIncludingGrammar base strings

section Rules

variable (hne : strings ≠ []) (hsym : ∀ d ∈ strings, symbolsOf d ≠ []) {base : List UInt8}
  (hbase : IsName base) (excluding : Bool)

theorem mem_stateRule_alts {q : Nat} {a : TextAlt} :
    a ∈ (stateRule excluding base (automaton strings) q).alts ↔
      (excluding = false ∧ (classes (automaton strings) q).completing ≠ [] ∧
        a = ⟨false, (classes (automaton strings) q).completing, none⟩) ∨
      (∃ b ∈ (classes (automaton strings) q).buckets, a = ⟨false, b.2, some (stateName base b.1)⟩) ∨
      a = otherAlt (classes (automaton strings) q) (stateName base) := by
  unfold stateRule
  rw [mkRule_alts, mem_append, mem_append, mem_singleton, or_assoc]
  refine or_congr ?_ (or_congr ?_ Iff.rfl)
  · unfold completingAlts
    cases excluding with
    | true => simp
    | false => by_cases hc : (classes (automaton strings) q).completing = [] <;> simp [hc]
  · simp [bucketAlts, eq_comm]

include hsym in
/-- The rules that are emitted are those of the states. -/
theorem emitted_eq : emitted excluding base strings =
    (stateRules excluding base strings).map fun r => (r.name, r.body) := by
  unfold emitted gbnfExcludingGrammar gbnfIncludingGrammar gbnfAcGrammar stateRules ruleStates
  have h0 := isTerminal_zero hsym
  cases excluding with
  | true =>
    simp only [h0, if_true, Bool.false_eq_true, if_false, map_map]
    refine map_congr_left fun q _ => ?_
    rw [Function.comp_apply, excludingRule_eq]
    rfl
  | false =>
    simp only [h0, Bool.false_eq_true, if_false, map_map]
    refine map_congr_left fun q _ => ?_
    rw [Function.comp_apply, includingRule_eq]
    rfl

theorem nodup_stateRules : ((stateRules excluding base strings).map TextRule.name).Nodup := by
  unfold stateRules
  rw [map_map]
  refine List.Nodup.map (fun q q' h => stateName_inj h) ?_
  exact nodup_range.filter _

theorem chars_subset {q : Nat} {a : TextAlt}
    (ha : a ∈ (stateRule excluding base (automaton strings) q).alts) :
    ∀ c ∈ a.chars, c ∈ (classes (automaton strings) q).specific := by
  rcases (mem_stateRule_alts excluding).mp ha with ⟨-, -, rfl⟩ | ⟨b, hb, rfl⟩ | rfl
  · exact (subset_specific q).1
  · exact (subset_specific q).2 b hb
  · exact fun c hc => hc

include hne hbase in
theorem stateRules_ok : ∀ r ∈ stateRules excluding base strings, r.Ok := by
  intro r hr
  obtain ⟨q, hq, rfl⟩ := mem_map.mp hr
  refine ⟨isName_stateName hbase q, fun a ha => ⟨fun c hc => ?_, fun n hn => ?_⟩⟩
  · have := chars_subset excluding ha c hc
    exact alphabet_lt hne (((classesOk _ q).specific c).mp this).1
  · rcases (mem_stateRule_alts excluding).mp ha with ⟨-, -, rfl⟩ | ⟨b, hb, rfl⟩ | rfl
    · cases hn
    · cases hn
      exact isName_stateName hbase b.1
    · cases hn
      exact isName_stateName hbase 0

include hne hsym in
/-- No rule has the character `-` in a class if no state has it. -/
theorem noDash_iff_alts : NoDash strings ↔
    ∀ r ∈ stateRules excluding base strings, ∀ a ∈ r.alts, 45 ∉ a.chars := by
  rw [noDash_iff hne hsym]
  constructor
  · intro h r hr a ha hmem
    obtain ⟨q, hq, rfl⟩ := mem_map.mp hr
    exact h q hq (chars_subset excluding ha 45 hmem)
  · intro h q hq hmem
    exact h _ (mem_map_of_mem hq) _ ((mem_stateRule_alts excluding).mpr (.inr (.inr rfl))) hmem

include hne hsym in
/-- No positive class begins with the character `^` exactly if the delimiters are so. -/
theorem noCaret_iff : NoCaret excluding strings ↔
    ∀ r ∈ stateRules excluding base strings, ∀ a ∈ r.alts, a.negate = false →
      a.chars.head? ≠ some 94 := by
  have ht := tree_trieOf strings
  have hword : ∀ d ∈ strings, ∀ u, u <+: symbolsOf d → (trieOf strings).HasWord u :=
    fun d hd u hu => (hasWord_trieOf_iff hne).mpr ⟨d, hd, hu⟩
  have hstate : ∀ {w q}, (trieOf strings).Path w q → ¬ EndsDelimiter strings w →
      q ∈ ruleStates strings := fun hw hnot => by
    refine mem_ruleStates.mpr ⟨ht.path_lt hw, ?_⟩
    rw [← Bool.not_eq_true, isTerminal_iff hw]
    exact hnot
  constructor
  · intro h r hr a ha hn hhead
    obtain ⟨q, hq, rfl⟩ := mem_map.mp hr
    rw [mem_ruleStates] at hq
    obtain ⟨w, hw⟩ := exists_path hq.1
    have hnot : ¬ EndsDelimiter strings w := by
      rw [← isTerminal_iff hw, hq.2]
      exact Bool.false_ne_true
    rcases (mem_stateRule_alts excluding).mp ha with ⟨he, -, rfl⟩ | ⟨b, hb, rfl⟩ | rfl
    · obtain ⟨hends, hmin⟩ := (head_completing hsym hw 94).mp hhead
      obtain ⟨d, hd, hpre⟩ := (hasWord_trieOf_iff hne).mp ⟨q, hw⟩
      obtain ⟨c, hc, hends'⟩ := h.last he d hd w hpre hnot hends
      exact hmin c hc hends'
    · obtain ⟨-, hnt, hd0, h0⟩ := ((classesOk (automaton strings) q).buckets b.1 94).mp
        ⟨b, hb, rfl, mem_of_mem_head? hhead⟩
      obtain ⟨x, hx, hmem⟩ := (next_ne_zero_iff hw 94).mp (hd0 ▸ h0)
      obtain ⟨d, hd, y, hy⟩ := exists_split hne hmem
      rcases h.inside d hd x y hy with hends | hends
      · exact hnot (endsDelimiter_suffix hends hx)
      · obtain ⟨-, -, -, hterm⟩ := next_spec hw 94
        have := hterm.mpr (endsDelimiter_suffix hends (suffix_snoc_snoc hx))
        rw [hnt] at this
        cases this
    · cases hn
  · refine fun h => ⟨fun d hd x y hy => ?_, fun he d hd x hx hnot hends => ?_⟩
    · by_contra hno
      obtain ⟨hnot, hnot'⟩ := not_or.mp hno
      obtain ⟨q, hq⟩ := hword d hd x ⟨94 :: y, hy.symm⟩
      obtain ⟨q', hq'⟩ := hword d hd (x ++ [94]) ⟨y, by rw [hy]; simp⟩
      have hnext : (automaton strings).next q 94 = q' := by
        obtain ⟨z, hz, hl, -⟩ := next_spec hq 94
        obtain rfl := hl.unique (.self ⟨q', hq'⟩)
        exact hz.unique hq'
      have h0 : q' ≠ 0 := fun e => by
        rw [e] at hq'
        exact absurd (ht.path_inj hq' .nil) (by simp)
      have hmem := (mem_specific_iff hsym q 94).mpr (hnext ▸ h0)
      have hnt : (automaton strings).isTerminal ((automaton strings).next q 94) = false := by
        rw [hnext, ← Bool.not_eq_true, isTerminal_iff hq']
        exact hnot'
      obtain ⟨b, hb, hbd, -⟩ := ((classesOk _ q).buckets q' 94).mpr
        ⟨(((classesOk _ q).specific 94).mp hmem).1, hnt, hnext, h0⟩
      exact h _ (mem_map_of_mem (hstate hq hnot)) _
        ((mem_stateRule_alts excluding).mpr (.inr (.inl ⟨b, hb, rfl⟩))) rfl
        (head_bucket hq hq' hb hbd)
    · obtain ⟨q, hq⟩ := hword d hd x hx
      by_contra hno
      have hhead := (head_completing hsym hq 94).mpr ⟨hends, fun c hc hc' => hno ⟨c, hc, hc'⟩⟩
      have hcne : (classes (automaton strings) q).completing ≠ [] := fun e => by
        rw [e] at hhead
        cases hhead
      exact h _ (mem_map_of_mem (hstate hq hnot)) _
        ((mem_stateRule_alts excluding).mpr (.inl ⟨he, hcne, rfl⟩)) rfl hhead

include hsym in
/-- A state that a class leads to has a rule. -/
theorem refs_defined : ∀ r ∈ stateRules excluding base strings, ∀ a ∈ r.alts, ∀ n,
    a.ref = some n → ∃ r' ∈ stateRules excluding base strings, r'.name = n := by
  intro r hr a ha n hn
  obtain ⟨q, hq, rfl⟩ := mem_map.mp hr
  have hrule : ∀ d, d ∈ ruleStates strings → n = stateName base d →
      ∃ r' ∈ stateRules excluding base strings, r'.name = n := by
    rintro d hd rfl
    exact ⟨_, mem_map_of_mem hd, rfl⟩
  have ht := tree_trieOf strings
  rcases (mem_stateRule_alts excluding).mp ha with ⟨-, -, rfl⟩ | ⟨b, hb, rfl⟩ | rfl
  · cases hn
  · cases hn
    refine hrule b.1 (mem_ruleStates.mpr ?_) rfl
    obtain ⟨c, hc⟩ := exists_mem_of_ne_nil _ ((classesOk (automaton strings) q).ne_nil b hb)
    obtain ⟨-, hnt, hd, -⟩ := ((classesOk (automaton strings) q).buckets b.1 c).mp ⟨b, hb, rfl, hc⟩
    obtain ⟨w, hw⟩ := exists_path (mem_ruleStates.mp hq).1
    obtain ⟨z, hz, -, -⟩ := next_spec hw c
    rw [hd] at hz hnt
    exact ⟨ht.path_lt hz, hnt⟩
  · cases hn
    exact hrule 0 (mem_ruleStates.mpr ⟨ht.pos, isTerminal_zero hsym⟩) rfl

/-- A rearrangement of the texts is one of the rules. -/
theorem exists_perm_map {α β : Type} (f : α → β) {a b : List β} (h : a.Perm b) {l : List α}
    (hl : b = l.map f) : ∃ rs : List α, a = rs.map f ∧ rs.Perm l := by
  induction h generalizing l with
  | nil => exact ⟨l, hl, .refl l⟩
  | cons x _ ih =>
    cases l with
    | nil => cases hl
    | cons y l =>
      obtain ⟨h1, h2⟩ := List.cons.inj hl
      obtain ⟨rs, rfl, hp⟩ := ih h2
      exact ⟨y :: rs, by rw [h1, map_cons], hp.cons y⟩
  | swap x y =>
    match l, hl with
    | u :: v :: l, hl =>
      obtain ⟨h1, hl⟩ := List.cons.inj hl
      obtain ⟨h2, h3⟩ := List.cons.inj hl
      exact ⟨v :: u :: l, by rw [h1, h2, h3]; rfl, .swap u v l⟩
  | trans _ _ ih1 ih2 =>
    obtain ⟨rs, hrs, hp⟩ := ih2 hl
    obtain ⟨rs', hrs', hp'⟩ := ih1 hrs
    exact ⟨rs', hrs', hp'.trans hp⟩

variable {order : List (List UInt8 × List UInt8)}

include hne hsym hbase in
/-- The text of the rules in some order. -/
theorem exists_rulesText (ho : order.Perm (emitted excluding base strings)) :
    ∃ rs : List TextRule, gbnfText order = rulesText rs ∧
      rs.Perm (stateRules excluding base strings) ∧ (∀ r ∈ rs, r.Ok) ∧
      Gbnf.parseSpace (rulesText rs) true = rulesText rs ∧
      rs.length < (rulesText rs).length + 1 := by
  obtain ⟨rs, rfl, hrs⟩ := exists_perm_map _ ho (emitted_eq hsym excluding)
  have hok : ∀ r ∈ rs, r.Ok := fun r hr =>
    stateRules_ok hne hbase excluding r (hrs.mem_iff.mp hr)
  refine ⟨rs, rfl, hrs, hok, ?_, ?_⟩
  · rcases starts_rulesText hok with h | h
    · rw [h]
      rfl
    · exact parseSpace_of_word h true
  · have hlen := length_le_flatMap gbnfRuleText (rs.map fun r => (r.name, r.body))
      (fun r _ => by simp [gbnfRuleText])
    rw [length_map] at hlen
    exact Nat.lt_succ_of_le hlen

include hne hsym hbase in
/-- The rules are read, in any order, if no class has the character `-`. -/
theorem parse_emitted (vocab : Tokenize)
    (ho : order.Perm (emitted excluding base strings)) (hd : NoDash strings) :
    ∃ p, Gbnf.parse vocab (gbnfText order) = .ok p ∧
      ∀ r ∈ stateRules excluding base strings, Compiled p r := by
  obtain ⟨rs, htext, hrs, hok, hspace, hlen⟩ := exists_rulesText hne hsym hbase excluding ho
  have hd' : ∀ r ∈ rs, ∀ a ∈ r.alts, 45 ∉ a.chars := fun r hr =>
    (noDash_iff_alts hne hsym excluding).mp hd r (hrs.mem_iff.mp hr)
  obtain ⟨h1, h2, h3⟩ := @compiled_foldl rs
    ((hrs.map TextRule.name).nodup_iff.mpr (nodup_stateRules excluding)) {}
    ⟨rfl, nodup_nil, le_rfl⟩ [] (by simp) (by simp) (by simp)
  rw [nil_append] at h2 h3
  refine ⟨_, ?_, fun r hr => h2 r (hrs.mem_iff.mpr hr)⟩
  unfold Gbnf.parse
  rw [htext, hspace, parseRules_text hok hd' hlen]
  refine if_pos (allDefined_of_compiled h1 h2 h3 fun r hr a ha n hn => ?_)
  obtain ⟨r', hr', hn'⟩ := refs_defined hsym excluding r (hrs.mem_iff.mp hr) a ha n hn
  exact ⟨r', hrs.mem_iff.mpr hr', hn'⟩

include hne hsym hbase in
/-- The rules are rejected if a class has the character `-`. -/
theorem parse_emitted_dash (vocab : Tokenize)
    (ho : order.Perm (emitted excluding base strings)) (hd : ¬ NoDash strings) :
    Gbnf.parse vocab (gbnfText order) = .error .unknownEscape := by
  obtain ⟨rs, htext, hrs, hok, hspace, hlen⟩ := exists_rulesText hne hsym hbase excluding ho
  have hd' : ∃ r ∈ rs, ∃ a ∈ r.alts, 45 ∈ a.chars := by
    by_contra hno
    refine hd ((@noDash_iff_alts _ hne hsym base excluding).mpr fun r hr a ha hmem => hno ?_)
    exact ⟨r, hrs.mem_iff.mpr hr, a, ha, hmem⟩
  unfold Gbnf.parse
  rw [htext, hspace, parseRules_dash hok hd' hlen]

end Rules

/-! ## The language of a state -/

/-- The symbols of an alternative. -/
def altSyms (id : List UInt8 → Nat) (a : TextAlt) : List (Cfg.Sym Nat (List GrammarElement)) :=
  .term (classElems (if a.negate then .charNot else .char) a.chars) :: match a.ref with
    | none => []
    | some n => [.rule (id n)]

theorem symsFrom_altElems {id : List UInt8 → Nat} {a : TextAlt} (hne : a.chars ≠ [])
    (hcaret : a.negate = false → a.chars.head? ≠ some 94) :
    symsFrom false (altElems id a ++ [⟨.end_, 0⟩]) = altSyms id a := by
  have hread : readClass a.chars a.negate =
      classElems (if a.negate then .charNot else .char) a.chars := by
    unfold readClass
    cases hn : a.negate with
    | true => rfl
    | false => rw [if_neg Bool.false_ne_true, if_neg (hcaret hn), if_neg Bool.false_ne_true]
  have ht : (if a.negate then GreType.charNot else .char) = .char ∨
      (if a.negate then GreType.charNot else .char) = .charNot := by
    cases a.negate
    · exact .inl rfl
    · exact .inr rfl
  unfold altElems altSyms
  rw [hread]
  cases a.ref with
  | none =>
    rw [append_nil, symsFrom_class ht hne rfl]
    rfl
  | some n =>
    rw [append_assoc, singleton_append, symsFrom_class ht hne rfl]
    rfl

section Language

variable (hne : strings ≠ []) (hsym : ∀ d ∈ strings, symbolsOf d ≠ []) {base : List UInt8}
  {excluding : Bool} {p : GbnfParser} (hc : NoCaret excluding strings)
  (hp : ∀ r ∈ stateRules excluding base strings, Compiled p r)

include hne hsym hc hp

variable {q : Nat} {v x : List Nat}

/-- The alternatives of the rule of a state. -/
theorem alts_state (hq : q ∈ ruleStates strings) :
    Grammar.alts p.rules (symbolId p (stateName base q)) = (if excluding then [[]] else []) ++
      (stateRule excluding base (automaton strings) q).alts.map (altSyms (symbolId p)) := by
  have hcomp := hp _ (mem_map_of_mem hq)
  have hrule : p.rules.getD (symbolId p (stateName base q)) [] = _ := hcomp.rule
  rw [alts_of_chunks hrule (by simp [bodyChunks, TextRule.alts])]
  · unfold bodyChunks
    rw [map_append, map_map]
    congr 1
    · change List.map _ (if excluding then [[]] else []) = _
      cases excluding <;> rfl
    · refine map_congr_left fun a ha => symsFrom_altElems ?_ fun hn => ?_
      · rcases (mem_stateRule_alts excluding).mp ha with ⟨-, h, rfl⟩ | ⟨b, hb, rfl⟩ | rfl
        · exact h
        · exact (classesOk (automaton strings) q).ne_nil b hb
        · exact specific_ne_nil hne hsym (mem_ruleStates.mp hq).1
      · exact (noCaret_iff hne hsym excluding).mp hc _ (mem_map_of_mem hq) a ha hn
  · intro c hmem
    unfold bodyChunks at hmem
    rcases mem_append.mp hmem with hmem | hmem
    · split at hmem
      · rw [mem_singleton.mp hmem]
        exact fun e he => absurd he not_mem_nil
      · cases hmem
    · obtain ⟨a, -, rfl⟩ := mem_map.mp hmem
      exact inner_altElems _ a

/-- Only the rules that exclude delimiters derive the empty word. -/
theorem derives_state_nil (hq : q ∈ ruleStates strings) :
    InLanguage p.rules (symbolId p (stateName base q)) [] ↔ excluding = true := by
  unfold InLanguage
  rw [derives_rule_iff, alts_state hne hsym hc hp hq]
  constructor
  · rintro ⟨rhs, hmem, hd⟩
    rcases mem_append.mp hmem with hmem | hmem
    · split at hmem
      · assumption
      · cases hmem
    · obtain ⟨a, -, rfl⟩ := mem_map.mp hmem
      obtain ⟨c, v, he, -, -⟩ := derives_term_iff.mp hd
      cases he
  · rintro rfl
    exact ⟨[], mem_append_left _ (mem_singleton_self _), .nil⟩

/-- A rule derives a character and what its state goes on with. -/
theorem derives_state_cons (hq : q ∈ ruleStates strings) (c : Nat) (w : List Nat) :
    InLanguage p.rules (symbolId p (stateName base q)) (c :: w) ↔ IsCodePoint c ∧
      (((automaton strings).isTerminal ((automaton strings).next q c) = true ∧
          excluding = false ∧ w = []) ∨
        ((automaton strings).isTerminal ((automaton strings).next q c) = false ∧
          InLanguage p.rules (symbolId p (stateName base ((automaton strings).next q c))) w)) := by
  have hk := classesOk (automaton strings) q
  have h0 := isTerminal_zero hsym
  have hspec := mem_specific_iff hsym q c
  have hcomp := mem_completing_iff hsym q c
  have hspecne := specific_ne_nil hne hsym (mem_ruleStates.mp hq).1
  unfold InLanguage
  rw [derives_rule_iff, alts_state hne hsym hc hp hq]
  constructor
  · rintro ⟨rhs, hmem, hd⟩
    rcases mem_append.mp hmem with hmem | hmem
    · split at hmem
      · rw [mem_singleton.mp hmem] at hd
        cases hd
      · cases hmem
    · obtain ⟨a, ha, rfl⟩ := mem_map.mp hmem
      rcases (mem_stateRule_alts excluding).mp ha with ⟨he, hcne, rfl⟩ | ⟨b, hb, rfl⟩ | rfl
      · obtain ⟨c', v, e, hacc, hv⟩ := derives_term_iff.mp hd
        cases e
        obtain ⟨hcp, hmem⟩ := (accepts_class hcne _).1.mp hacc
        exact ⟨hcp, .inl ⟨hcomp.mp hmem, he, derives_nil_iff.mp hv⟩⟩
      · obtain ⟨c', v, e, hacc, hv⟩ := derives_term_iff.mp hd
        cases e
        obtain ⟨hcp, hmem⟩ := (accepts_class (hk.ne_nil b hb) _).1.mp hacc
        obtain ⟨-, hnt, hd', -⟩ := (hk.buckets b.1 _).mp ⟨b, hb, rfl, hmem⟩
        refine ⟨hcp, .inr ⟨hnt, ?_⟩⟩
        rw [hd']
        exact hv
      · obtain ⟨c', v, e, hacc, hv⟩ := derives_term_iff.mp hd
        cases e
        obtain ⟨hcp, hmem⟩ := (accepts_class hspecne _).2.mp hacc
        have hnext : (automaton strings).next q c = 0 := by
          by_contra hnz
          exact hmem (hspec.mpr hnz)
        rw [hnext]
        exact ⟨hcp, .inr ⟨h0, hv⟩⟩
  · rintro ⟨hcp, ⟨hterm, he, rfl⟩ | ⟨hnt, hw⟩⟩
    · have hmem := hcomp.mpr hterm
      have hcne := ne_nil_of_mem hmem
      refine ⟨_, mem_append_right _ (mem_map_of_mem
        ((mem_stateRule_alts excluding).mpr (.inl ⟨he, hcne, rfl⟩))), ?_⟩
      exact .term ((accepts_class hcne c).1.mpr ⟨hcp, hmem⟩) .nil
    · by_cases hnext : (automaton strings).next q c = 0
      · refine ⟨_, mem_append_right _ (mem_map_of_mem
          ((mem_stateRule_alts excluding).mpr (.inr (.inr rfl)))), ?_⟩
        rw [hnext] at hw
        exact .term ((accepts_class hspecne c).2.mpr ⟨hcp, fun hmem => hspec.mp hmem hnext⟩) hw
      · have hmem := ((classesOk _ q).specific c).mp (hspec.mpr hnext)
        obtain ⟨b, hb, hbd, hbc⟩ := (hk.buckets _ c).mpr ⟨hmem.1, hnt, rfl, hnext⟩
        refine ⟨_, mem_append_right _ (mem_map_of_mem
          ((mem_stateRule_alts excluding).mpr (.inr (.inl ⟨b, hb, rfl⟩)))), ?_⟩
        refine .term ((accepts_class (hk.ne_nil b hb) c).1.mpr ⟨hcp, hbc⟩) ?_
        rw [hbd]
        exact hw

/-- A state that has read a word without a delimiter goes on with the next character. -/
theorem derives_read_cons (hx : (trieOf strings).Path x q)
    (hl : Longest (trieOf strings).HasWord v x) (hnot : ¬ EndsDelimiter strings v) (c : Nat) :
    ∃ q' x', (trieOf strings).Path x' q' ∧ Longest (trieOf strings).HasWord (v ++ [c]) x' ∧
      ∀ w, InLanguage p.rules (symbolId p (stateName base q)) (c :: w) ↔ IsCodePoint c ∧
        ((EndsDelimiter strings (v ++ [c]) ∧ excluding = false ∧ w = []) ∨
          (¬ EndsDelimiter strings (v ++ [c]) ∧
            InLanguage p.rules (symbolId p (stateName base q')) w)) := by
  have hends : ∀ {v x q}, (trieOf strings).Path x q → Longest (trieOf strings).HasWord v x →
      ((automaton strings).isTerminal q = true ↔ EndsDelimiter strings v) := fun hx hl => by
    rw [isTerminal_iff hx, ← hasPattern_iff, ← hasPattern_iff]
    exact (endsIn_iff (fun u hu => hasWord_of_hasPattern hu) hl).symm
  have hq : q ∈ ruleStates strings := by
    refine mem_ruleStates.mpr ⟨(tree_trieOf strings).path_lt hx, ?_⟩
    rw [← Bool.not_eq_true, hends hx hl]
    exact hnot
  obtain ⟨z, hz, hlz, -⟩ := next_spec hx c
  have hlz' := Longest.snoc (prefixClosed _) hl hlz
  refine ⟨_, z, hz, hlz', fun w => ?_⟩
  rw [derives_state_cons hne hsym hc hp hq, ← hends hz hlz', Bool.not_eq_true]

/-- The words of a rule that excludes delimiters have no prefix that ends with one. -/
theorem excluding_run (he : excluding = true)
    (hx : (trieOf strings).Path x q) (hl : Longest (trieOf strings).HasWord v x)
    (hnot : ¬ EndsDelimiter strings v) (w : List Nat) :
    InLanguage p.rules (symbolId p (stateName base q)) w ↔
      (∀ c ∈ w, IsCodePoint c) ∧ ∀ u, u <+: w → ¬ EndsDelimiter strings (v ++ u) := by
  induction w generalizing q v x with
  | nil =>
    have hq : q ∈ ruleStates strings := by
      refine mem_ruleStates.mpr ⟨(tree_trieOf strings).path_lt hx, ?_⟩
      rw [← Bool.not_eq_true, isTerminal_iff hx]
      exact fun h => hnot (endsDelimiter_suffix h hl.suffix)
    rw [derives_state_nil hne hsym hc hp hq]
    simp [he, hnot]
  | cons c w ih =>
    obtain ⟨q', x', hx', hl', hstep⟩ := derives_read_cons hne hsym hc hp hx hl hnot c
    rw [hstep, forall_mem_cons, and_assoc]
    refine and_congr_right fun _ => ?_
    constructor
    · rintro (⟨-, h, -⟩ | ⟨hnot', hw⟩)
      · rw [he] at h
        cases h
      · obtain ⟨hcp, hpre⟩ := (ih hx' hl' hnot').mp hw
        refine ⟨hcp, fun u hu => ?_⟩
        rcases prefix_cons_iff.mp hu with rfl | ⟨u', rfl, hu'⟩
        · rwa [append_nil]
        · rw [append_cons]
          exact hpre u' hu'
    · rintro ⟨hcp, hpre⟩
      have hnot' := hpre [c] (prefix_cons_iff.mpr (.inr ⟨[], rfl, nil_prefix⟩))
      refine .inr ⟨hnot', (ih hx' hl' hnot').mpr ⟨hcp, fun u hu => ?_⟩⟩
      rw [append_assoc, singleton_append]
      exact hpre (c :: u) (cons_prefix_cons.mpr ⟨rfl, hu⟩)

/-- The words of a rule that includes a delimiter end where its first occurrence ends. -/
theorem including_run (he : excluding = false)
    (hx : (trieOf strings).Path x q) (hl : Longest (trieOf strings).HasWord v x)
    (hnot : ¬ EndsDelimiter strings v) (w : List Nat) :
    InLanguage p.rules (symbolId p (stateName base q)) w ↔
      (∀ c ∈ w, IsCodePoint c) ∧ EndsDelimiter strings (v ++ w) ∧
        ∀ u, u <+: w → u ≠ w → ¬ EndsDelimiter strings (v ++ u) := by
  induction w generalizing q v x with
  | nil =>
    have hq : q ∈ ruleStates strings := by
      refine mem_ruleStates.mpr ⟨(tree_trieOf strings).path_lt hx, ?_⟩
      rw [← Bool.not_eq_true, isTerminal_iff hx]
      exact fun h => hnot (endsDelimiter_suffix h hl.suffix)
    rw [derives_state_nil hne hsym hc hp hq]
    simp [he, hnot]
  | cons c w ih =>
    obtain ⟨q', x', hx', hl', hstep⟩ := derives_read_cons hne hsym hc hp hx hl hnot c
    rw [hstep, forall_mem_cons, and_assoc]
    refine and_congr_right fun _ => ?_
    constructor
    · rintro (⟨hends, -, rfl⟩ | ⟨hnot', hw⟩)
      · refine ⟨by simp, hends, fun u hu hne' => ?_⟩
        rcases prefix_cons_iff.mp hu with rfl | ⟨u', rfl, hu'⟩
        · rwa [append_nil]
        · rw [prefix_nil.mp hu'] at hne'
          exact absurd rfl hne'
      · obtain ⟨hcp, hends, hpre⟩ := (ih hx' hl' hnot').mp hw
        rw [append_cons]
        refine ⟨hcp, hends, fun u hu hne' => ?_⟩
        rcases prefix_cons_iff.mp hu with rfl | ⟨u', rfl, hu'⟩
        · rwa [append_nil]
        · rw [append_cons]
          exact hpre u' hu' fun e => hne' (by rw [e])
    · rintro ⟨hcp, hends, hpre⟩
      rcases eq_or_ne w [] with rfl | hw
      · exact .inl ⟨hends, he, rfl⟩
      · have hnot' := hpre [c] (cons_prefix_cons.mpr ⟨rfl, nil_prefix⟩)
          fun e => hw (List.cons.inj e).2.symm
        rw [append_cons] at hends
        refine .inr ⟨hnot', (ih hx' hl' hnot').mpr ⟨hcp, hends, fun u hu hne' => ?_⟩⟩
        rw [append_assoc, singleton_append]
        exact hpre (c :: u) (cons_prefix_cons.mpr ⟨rfl, hu⟩) fun e => hne' (List.cons.inj e).2

end Language

end States

/-! ## Both grammars -/

/-- The strings the rules stand for: no delimiter is in them, or they end where the first one ends.
-/
def Delimited (excluding : Bool) (strings : List (List UInt8)) (w : List Nat) : Prop :=
  if excluding then ¬ ∃ d ∈ strings, symbolsOf d <:+: w
  else EndsDelimiter strings w ∧ ∀ u, u <+: w → u ≠ w → ¬ EndsDelimiter strings u

/-- The rules in any order, as the map of the grammar's rules may have them, are accepted exactly if
no delimiter has a character `-` that a class needs; and where none has a `^` that begins a class
either, the first rule generates the strings it stands for. -/
theorem delimiter_grammars (excluding : Bool) (vocab : Tokenize) {base : List UInt8}
    (hbase : IsName base) {strings : List (List UInt8)} (hne : strings ≠ [])
    (hd : ∀ d ∈ strings, d ≠ [] ∧ ValidUtf8 d) {order : List (List UInt8 × List UInt8)}
    (ho : order.Perm (emitted excluding base strings)) :
    ((∃ p, Gbnf.parse vocab (gbnfText order) = .ok p) ↔ NoDash strings) ∧
    (NoCaret excluding strings → ∀ p, Gbnf.parse vocab (gbnfText order) = .ok p →
      ∃ id, p.symbolIds.lookup base = some id ∧ ∀ w, InLanguage p.rules id w ↔
        (∀ c ∈ w, IsCodePoint c) ∧ Delimited excluding strings w) := by
  have hsym : ∀ d ∈ strings, symbolsOf d ≠ [] := fun d h => symbolsOf_ne_nil (hd d h).1 (hd d h).2
  have haccept : (∃ p, Gbnf.parse vocab (gbnfText order) = .ok p) ↔ NoDash strings := by
    constructor
    · rintro ⟨p, h⟩
      by_contra hno
      rw [parse_emitted_dash hne hsym hbase excluding vocab ho hno] at h
      cases h
    · intro h
      obtain ⟨p, hp, -⟩ := parse_emitted hne hsym hbase excluding vocab ho h
      exact ⟨p, hp⟩
  refine ⟨haccept, fun hc p h => ?_⟩
  obtain ⟨p', h', hp⟩ := parse_emitted hne hsym hbase excluding vocab ho (haccept.mp ⟨p, h⟩)
  obtain rfl : p = p' := by
    rw [h] at h'
    exact Except.ok.inj h'
  have hroot : 0 ∈ ruleStates strings :=
    mem_ruleStates.mpr ⟨(tree_trieOf strings).pos, isTerminal_zero hsym⟩
  have hname := (hp _ (mem_map_of_mem hroot)).name
  refine ⟨symbolId p (stateName base 0), ?_, fun w => ?_⟩
  · exact lookup_symbolId hname
  have hnil := not_endsDelimiter_nil hsym
  have hl : Longest (trieOf strings).HasWord [] [] := .nil (prefixClosed _)
  cases excluding with
  | true =>
    rw [excluding_run hne hsym hc hp rfl .nil hl hnil]
    refine and_congr_right fun _ => ?_
    unfold Delimited
    rw [if_pos rfl]
    have hinf : (∃ d ∈ strings, symbolsOf d <:+: w) ↔
        ∃ v, v <+: w ∧ EndsDelimiter strings v := by
      refine Iff.trans ⟨fun ⟨d, h, hi⟩ => ?_, fun ⟨u, ⟨d, h, e⟩, hi⟩ => ?_⟩ exists_infix_iff
      · exact ⟨_, ⟨d, h, rfl⟩, hi⟩
      · exact ⟨d, h, e ▸ hi⟩
    rw [hinf]
    simp
  | false =>
    rw [including_run hne hsym hc hp rfl .nil hl hnil]
    rfl

/-- The delimiter `ab` is read as it was meant. -/
theorem delimiter_grammars_plain :
    ∃ p, Gbnf.parse none (gbnfText (emitted false [117] [[97, 98]])) = .ok p ∧
      ∃ id, p.symbolIds.lookup [117] = some id ∧ ∀ w, InLanguage p.rules id w ↔
        (∀ c ∈ w, IsCodePoint c) ∧ Delimited false [[97, 98]] w := by
  have hsplit : ∀ (c : Nat) (x y : List Nat), [97, 98] = x ++ c :: y → c = 97 ∨ c = 98 := by
    intro c x y e
    have : c ∈ [97, 98] := e ▸ mem_append_right x mem_cons_self
    simpa using this
  have hsyms : symbolsOf [97, 98] = [97, 98] := by decide +kernel
  have hbase : IsName [117] :=
    ⟨cons_ne_nil _ _, fun c hc => by rw [mem_singleton.mp hc]; rfl⟩
  have hne : [[97, 98]] ≠ ([] : List (List UInt8)) := cons_ne_nil _ _
  have h := delimiter_grammars false none hbase hne
    (by simpa using (by unfold ValidUtf8; decide +kernel : ValidUtf8 [97, 98])) (.refl _)
  have hdash : NoDash [[97, 98]] := fun d hd x y e => by
    rw [mem_singleton.mp hd, hsyms] at e
    rcases hsplit 45 x y e with h | h <;> cases h
  have hcaret : NoCaret false [[97, 98]] := by
    refine ⟨fun d hd x y e => ?_, fun _ d hd x hx hnot hends => ?_⟩
    · rw [mem_singleton.mp hd, hsyms] at e
      rcases hsplit 94 x y e with h | h <;> cases h
    · obtain ⟨u, ⟨d', hd', rfl⟩, hs⟩ := hends
      rw [mem_singleton.mp hd', hsyms] at hs
      obtain ⟨l, hl⟩ := hs
      rw [show [97, 98] = [97] ++ [98] from rfl, ← append_assoc] at hl
      cases (append_inj' hl rfl).2
  obtain ⟨p, hp⟩ := h.1.mpr hdash
  exact ⟨p, hp, h.2 hcaret p hp⟩

/-- The rules for `a-b` are rejected, and the rules that exclude `a^b` generate it. -/
theorem delimiter_grammars_misread :
    Gbnf.parse none (gbnfText (emitted true [117] [[97, 45, 98]])) = .error .unknownEscape ∧
    ∃ p, Gbnf.parse none (gbnfText (emitted true [117] [[97, 94, 98]])) = .ok p ∧
      p.symbolIds.lookup [117] = some 0 ∧ InLanguage p.rules 0 [97, 94, 98] ∧
      symbolsOf [97, 94, 98] <:+: [97, 94, 98] := by
  refine ⟨by decide +kernel, ((Gbnf.parse none
    (gbnfText (emitted true [117] [[97, 94, 98]]))).toOption.getD {}), by decide +kernel,
    by decide +kernel, ?_, by decide +kernel⟩
  -- the class of `^` is read as none
  have h1 := ((accepts_class (cons_ne_nil 97 []) 97).1.mpr ⟨by decide, by decide⟩)
  have h2 := ((accepts_class (cons_ne_nil 97 [98]) 94).2.mpr ⟨by decide, by decide⟩)
  have h3 := ((accepts_class (cons_ne_nil 97 []) 98).2.mpr ⟨by decide, by decide⟩)
  refine derives_rule_iff.mpr ⟨[.term [⟨.char, 97⟩], .rule 1], by decide +kernel, ?_⟩
  refine .term h1 (derives_rule_iff.mpr ⟨[.rule 2], by decide +kernel, ?_⟩)
  refine derives_rule_iff.mpr
    ⟨[.term [⟨.charNot, 97⟩, ⟨.charAlt, 98⟩], .rule 0], by decide +kernel, ?_⟩
  refine .term h2 (derives_rule_iff.mpr ⟨[.term [⟨.charNot, 97⟩], .rule 0], by decide +kernel, ?_⟩)
  exact .term h3 (derives_rule_iff.mpr ⟨[], by decide +kernel, .nil⟩)

end BeeLlama.Peg
