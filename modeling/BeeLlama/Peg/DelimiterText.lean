import BeeLlama.Peg.DelimiterRules
import Mathlib.Tactic.NormNum
import Mathlib.Tactic.Ring

/-!
# The text of the delimiter rules is read again

* `parseChar_escape`: an escaped character is read as itself, unless it is `-`.
* `rangeLoop_chars`: so are the characters of a class.
* `parseRule_text`: a rule is read as its alternatives (`compileRule`).
* `parseRules_text`: so is a grammar, and it is read if no class has the character `-`.
-/

namespace BeeLlama.Peg

open Gbnf List Nat

/-! ## Characters -/

section Chars

variable {c : Nat} {tail : List UInt8}

theorem toNat_ofNat (h : c < 256) : (UInt8.ofNat c).toNat = c := by
  rw [UInt8.toNat_ofNat']
  exact mod_eq_of_lt h

theorem ofNat_ne {b : UInt8} (h : c < 256) (hne : c ≠ b.toNat) : UInt8.ofNat c ≠ b := by
  rintro rfl
  exact hne (toNat_ofNat h).symm

theorem hexValue_hexDigit : ∀ d < 16, hexValue (hexDigit d) = some d := by decide

theorem parseHexLoop_hexDigits (size : Nat) (c : Nat) (n v : Nat)
    (h : v * 16 ^ n + c % 16 ^ n < 2 ^ 32) :
    parseHexLoop size n v (hexDigits c n ++ tail) = .ok (v * 16 ^ n + c % 16 ^ n, tail) := by
  induction n generalizing v with
  | zero => simp [parseHexLoop, hexDigits, mod_one]
  | succ n ih =>
    have hd : c / 16 ^ n % 16 < 16 := mod_lt _ (by norm_num)
    have hmod : c % 16 ^ (n + 1) = c % 16 ^ n + 16 ^ n * (c / 16 ^ n % 16) := mod_pow_succ
    have hval : v * 16 ^ (n + 1) + c % 16 ^ (n + 1) =
        (v * 16 + c / 16 ^ n % 16) * 16 ^ n + c % 16 ^ n := by
      rw [hmod, pow_succ]
      ring
    rw [hval] at h ⊢
    have hlt : v * 16 + c / 16 ^ n % 16 < 2 ^ 32 := by
      have : (v * 16 + c / 16 ^ n % 16) * 1 ≤ (v * 16 + c / 16 ^ n % 16) * 16 ^ n :=
        Nat.mul_le_mul_left _ (one_le_pow _ _ (by norm_num))
      omega
    simp only [hexDigits, cons_append, parseHexLoop, hexValue_hexDigit _ hd, mod_eq_of_lt hlt]
    exact ih _ h

theorem parseHex_hexDigits {size : Nat} (h : c < 16 ^ size) (hs : c < 2 ^ 32) :
    parseHex (hexDigits c size ++ tail) size = .ok (c, tail) := by
  have hc : c % 16 ^ size = c := mod_eq_of_lt h
  unfold parseHex
  rw [parseHexLoop_hexDigits _ _ _ _ (by rw [hc]; omega), hc]
  simp

/-- An escaped character is read as itself, unless it is `-`. -/
theorem parseChar_escape (hc : c < 2 ^ 32) (hd : c ≠ 45) (tail : List UInt8) :
    parseChar (gbnfEscapeCharClass c ++ tail) = .ok (c, tail) := by
  unfold gbnfEscapeCharClass
  split
  · next h =>
    rcases h with rfl | rfl | rfl | rfl
    · exact absurd rfl hd
    · rfl
    · rfl
    · rfl
  · next h1 =>
    split
    · next h => subst h; rfl
    · split
      · next h => subst h; rfl
      · split
        · next h => subst h; rfl
        · split
          · next h =>
            have hlt : c < 256 := by omega
            have h92 : UInt8.ofNat c ≠ 92 := ofNat_ne hlt (by simp; omega)
            have h0 : UInt8.ofNat c ≠ 0 := ofNat_ne hlt (by simp; omega)
            simp only [singleton_append, parseChar, cur, headD_cons, if_neg h92, ne_eq,
              h0, not_false_eq_true, if_true, decodeUtf8, utf8Length, toNat_ofNat hlt,
              if_pos (show c / 16 < 12 by omega), Nat.sub_self, decodeUtf8Loop]
            rw [mod_eq_of_lt (by omega)]
          · split
            · next h => exact parseHex_hexDigits (by omega) hc
            · split
              · next h => exact parseHex_hexDigits (by omega) hc
              · exact parseHex_hexDigits (by omega) hc

theorem parseChar_dash (tail : List UInt8) :
    parseChar (gbnfEscapeCharClass 45 ++ tail) = .error .unknownEscape := rfl

/-- An escaped character begins with a backslash, or it is a printable one that needs no escape. -/
theorem escape_cases (c : Nat) : (∃ l, gbnfEscapeCharClass c = 92 :: l) ∨
    (gbnfEscapeCharClass c = [UInt8.ofNat c] ∧ 0x20 ≤ c ∧ c ≤ 0x7E ∧ c ≠ 45 ∧ c ≠ 93) := by
  unfold gbnfEscapeCharClass
  split
  · exact .inl ⟨_, rfl⟩
  · next h1 =>
    split
    · exact .inl ⟨_, rfl⟩
    · split
      · exact .inl ⟨_, rfl⟩
      · split
        · exact .inl ⟨_, rfl⟩
        · split
          · next h => exact .inr ⟨rfl, h.1, h.2, by omega, by omega⟩
          · split
            · exact .inl ⟨_, rfl⟩
            · split
              · exact .inl ⟨_, rfl⟩
              · exact .inl ⟨_, rfl⟩

/-- The first byte of an escaped character is that of a character, and only `^` begins with `^`. -/
theorem cur_escape (c : Nat) (tail : List UInt8) :
    cur (gbnfEscapeCharClass c ++ tail) ≠ 0 ∧ cur (gbnfEscapeCharClass c ++ tail) ≠ 45 ∧
      cur (gbnfEscapeCharClass c ++ tail) ≠ 93 ∧
        (cur (gbnfEscapeCharClass c ++ tail) = 94 ↔ c = 94) := by
  rcases escape_cases c with ⟨l, hl⟩ | ⟨hl, h1, h2, h3, h4⟩
  · have hc : c ≠ 94 := by
      rintro rfl
      cases hl
    rw [hl]
    simp [cur, hc]
  · have hlt : c < 256 := by omega
    rw [hl]
    simp only [singleton_append, cur, headD_cons]
    refine ⟨ofNat_ne hlt (by simp; omega), ofNat_ne hlt h3,
      ofNat_ne hlt h4, ?_⟩
    constructor
    · intro h
      by_contra hne
      exact ofNat_ne hlt (show c ≠ (94 : UInt8).toNat from hne) h
    · rintro rfl
      rfl

end Chars

/-! ## Classes -/

/-- The elements of a class that begins with this type. -/
def classElems (startType : GreType) : List Nat → List GrammarElement
  | [] => []
  | c :: cs => ⟨startType, c⟩ :: cs.map fun c => ⟨.charAlt, c⟩

/-- How a class is read: a `^` at the beginning of a class negates it. -/
def readClass (chars : List Nat) (negate : Bool) : List GrammarElement :=
  if negate then classElems .charNot chars
  else if chars.head? = some 94 then classElems .charNot chars.tail
  else classElems .char chars

section Classes

variable {chars : List Nat} {tail : List UInt8}

/-- The text of a class from a character on. -/
def classText (chars : List Nat) (tail : List UInt8) : List UInt8 :=
  chars.flatMap gbnfEscapeCharClass ++ 93 :: tail

theorem classText_cons (c : Nat) (cs : List Nat) (tail : List UInt8) :
    classText (c :: cs) tail = gbnfEscapeCharClass c ++ classText cs tail := by
  simp [classText]

theorem cur_classText (chars : List Nat) (tail : List UInt8) :
    cur (classText chars tail) ≠ 0 ∧ cur (classText chars tail) ≠ 45 ∧
      (cur (classText chars tail) = 93 ↔ chars = []) ∧
        (cur (classText chars tail) = 94 ↔ chars.head? = some 94) := by
  cases chars with
  | nil => simp [classText, cur]
  | cons c cs =>
    have h := cur_escape c (classText cs tail)
    rw [classText_cons]
    exact ⟨h.1, h.2.1, by simp [h.2.2.1], by simp [h.2.2.2]⟩

theorem length_escape_pos (c : Nat) : 0 < (gbnfEscapeCharClass c).length := by
  rcases escape_cases c with ⟨l, hl⟩ | ⟨hl, -⟩ <;> simp [hl]

theorem length_le_classText (chars : List Nat) (tail : List UInt8) :
    chars.length + tail.length + 1 ≤ (classText chars tail).length := by
  induction chars with
  | nil => simp [classText]
  | cons c cs ih =>
    have := length_escape_pos c
    rw [classText_cons, length_append, length_cons]
    omega

/-- The characters of a class are read one after the other. -/
theorem rangeLoop_chars (startType : GreType) (hc : ∀ c ∈ chars, c < 2 ^ 32) (hd : 45 ∉ chars)
    {fuel : Nat} (hf : chars.length < fuel) (elems : List GrammarElement) :
    Gbnf.rangeLoop startType fuel (classText chars tail) elems =
      .ok (if elems = [] then classElems startType chars
        else elems ++ chars.map fun c => ⟨.charAlt, c⟩, 93 :: tail) := by
  induction chars generalizing fuel elems with
  | nil =>
    obtain ⟨fuel, rfl⟩ := exists_eq_succ_of_ne_zero (show fuel ≠ 0 by omega)
    by_cases he : elems = [] <;> simp [Gbnf.rangeLoop, classText, cur, classElems, he]
  | cons c cs ih =>
    obtain ⟨fuel, rfl⟩ := exists_eq_succ_of_ne_zero (show fuel ≠ 0 by omega)
    have h := cur_escape c (classText cs tail)
    have hnext := cur_classText cs tail
    rw [classText_cons, Gbnf.rangeLoop, if_neg h.2.2.1, if_neg h.1,
      parseChar_escape (hc c mem_cons_self) (fun e => hd (e ▸ mem_cons_self))]
    dsimp only
    rw [if_neg fun hh => hnext.2.1 hh.1, ih (fun d hd' => hc d (mem_cons_of_mem c hd'))
      (fun hd' => hd (mem_cons_of_mem c hd')) (by simpa using hf)]
    by_cases he : elems = [] <;> simp [he, classElems]

/-- A class with the character `-` is not read. -/
theorem rangeLoop_dash (startType : GreType) (hc : ∀ c ∈ chars, c < 2 ^ 32) (hd : 45 ∈ chars)
    {fuel : Nat} (hf : chars.length < fuel) (elems : List GrammarElement) :
    Gbnf.rangeLoop startType fuel (classText chars tail) elems = .error .unknownEscape := by
  induction chars generalizing fuel elems with
  | nil => cases hd
  | cons c cs ih =>
    obtain ⟨fuel, rfl⟩ := exists_eq_succ_of_ne_zero (show fuel ≠ 0 by omega)
    have h := cur_escape c (classText cs tail)
    have hnext := cur_classText cs tail
    rw [classText_cons, Gbnf.rangeLoop, if_neg h.2.2.1, if_neg h.1]
    by_cases hc45 : c = 45
    · rw [hc45, parseChar_dash]
    · rw [parseChar_escape (hc c mem_cons_self) hc45]
      dsimp only
      rw [if_neg fun hh => hnext.2.1 hh.1]
      exact ih (fun d hd' => hc d (mem_cons_of_mem c hd'))
        ((mem_cons.mp hd).resolve_left (Ne.symm hc45)) (by simpa using hf) _

variable {vocab : Tokenize} {ruleName : List UInt8} {isNested : Bool}
  {group : GbnfParser → List UInt8 → Nat → Except GbnfError (GbnfParser × List UInt8)}

theorem gbnfCharClass_append (chars : List Nat) (negate : Bool) (tail : List UInt8) :
    gbnfCharClass chars negate ++ tail =
      (if negate then [91, 94] else [91]) ++ classText chars tail := by
  simp [gbnfCharClass, classText]

/-- What `parse_sequence` does at a class. -/
theorem parseItem_class_eq (p : GbnfParser) (st : Gbnf.SeqState) (chars : List Nat)
    (negate : Bool) :
    ∃ startType cs, classElems startType cs = readClass chars negate ∧ cs ⊆ chars ∧
      (45 ∈ cs ↔ 45 ∈ chars) ∧ ∃ fuel, cs.length < fuel ∧
      parseItem vocab ruleName isNested group p (gbnfCharClass chars negate ++ tail) st =
        match Gbnf.rangeLoop startType fuel (classText cs tail) [] with
        | .error e => .error e
        | .ok (elems, pos) => .ok (some (p, Gbnf.parseSpace pos.tail isNested, st.push elems)) := by
  have hlen := length_le_classText chars tail
  have hcur := cur_classText chars tail
  rw [gbnfCharClass_append]
  cases negate with
  | true =>
    refine ⟨.charNot, chars, rfl, fun _ h => h, Iff.rfl, (classText chars tail).length + 1 + 1,
      by omega, ?_⟩
    simp [parseItem, cur] <;> rfl
  | false =>
    by_cases hhat : chars.head? = some 94
    · obtain ⟨cs, rfl⟩ : ∃ cs, chars = 94 :: cs := by
        cases chars with
        | nil => cases hhat
        | cons c cs =>
          rw [head?_cons, Option.some.injEq] at hhat
          exact ⟨cs, by rw [hhat]⟩
      have hlen' := length_le_classText cs tail
      refine ⟨.charNot, cs, rfl, subset_cons_self 94 cs, by simp,
        (classText cs tail).length + 1 + 1, by omega, ?_⟩
      have he : classText (94 :: cs) tail = 94 :: classText cs tail := rfl
      simp [parseItem, cur, he] <;> rfl
    · refine ⟨.char, chars, by simp [readClass, hhat], fun _ h => h, Iff.rfl,
        (classText chars tail).length + 1, by omega, ?_⟩
      have hne : cur (classText chars tail) ≠ 94 := fun h => hhat (hcur.2.2.2.mp h)
      have h91 : cur (91 :: classText chars tail) = 91 := rfl
      simp [parseItem, h91, hne] <;> rfl

theorem parseItem_class (p : GbnfParser) (st : Gbnf.SeqState) (chars : List Nat) (negate : Bool)
    (hc : ∀ c ∈ chars, c < 2 ^ 32) (hd : 45 ∉ chars) :
    parseItem vocab ruleName isNested group p (gbnfCharClass chars negate ++ tail) st =
      .ok (some (p, Gbnf.parseSpace tail isNested, st.push (readClass chars negate))) := by
  obtain ⟨startType, cs, he, hsub, hdash, fuel, hf, heq⟩ := @parseItem_class_eq tail vocab ruleName
    isNested group p st chars negate
  rw [heq, rangeLoop_chars startType (fun c hc' => hc c (hsub hc')) (fun h => hd (hdash.mp h)) hf,
    if_pos rfl, he]
  rfl

theorem parseItem_dash (p : GbnfParser) (st : Gbnf.SeqState) (chars : List Nat) (negate : Bool)
    (hc : ∀ c ∈ chars, c < 2 ^ 32) (hd : 45 ∈ chars) :
    parseItem vocab ruleName isNested group p (gbnfCharClass chars negate ++ tail) st =
      .error .unknownEscape := by
  obtain ⟨startType, cs, he, hsub, hdash, fuel, hf, heq⟩ := @parseItem_class_eq tail vocab ruleName
    isNested group p st chars negate
  rw [heq, rangeLoop_dash startType (fun c hc' => hc c (hsub hc')) (hdash.mpr hd) hf]

end Classes

/-! ## Alternatives -/

/-- An alternative of a rule: a class, and perhaps the name of a rule behind it. -/
structure TextAlt where
  negate : Bool
  chars : List Nat
  ref : Option (List UInt8)
  deriving DecidableEq, Repr

/-- The text of an alternative. -/
def TextAlt.text (a : TextAlt) : List UInt8 :=
  gbnfCharClass a.chars a.negate ++ match a.ref with
    | none => []
    | some name => 32 :: name

/-- A name of a rule. -/
structure IsName (name : List UInt8) : Prop where
  ne : name ≠ []
  word : ∀ c ∈ name, isWordChar c = true

/-- The class has code points, and the name is one. -/
structure TextAlt.Ok (a : TextAlt) : Prop where
  chars_lt : ∀ c ∈ a.chars, c < 2 ^ 32
  name : ∀ name, a.ref = some name → IsName name

/-- What the parser adds for an alternative. -/
def compileAlt (p : GbnfParser) (a : TextAlt) : GbnfParser × List GrammarElement :=
  match a.ref with
  | none => (p, readClass a.chars a.negate)
  | some name => ((p.getSymbolId name).1,
      readClass a.chars a.negate ++ [⟨.ruleRef, (p.getSymbolId name).2⟩])

/-- What the parser adds for the alternatives behind the first one. -/
def compileAlts : List TextAlt → GbnfParser → GrammarRule → GbnfParser × GrammarRule
  | [], p, rule => (p, rule)
  | a :: as, p, rule =>
    compileAlts as (compileAlt p a).1 (rule ++ [⟨.alt, 0⟩] ++ (compileAlt p a).2)

section Alts

variable {vocab : Tokenize} {ruleName : List UInt8}
  {group : GbnfParser → List UInt8 → Nat → Except GbnfError (GbnfParser × List UInt8)}

/-- The text behind an alternative, after spaces: a bar or a line end. -/
structure Follows (tail rest : List UInt8) : Prop where
  space : Gbnf.parseSpace tail false = rest
  word : isWordChar (cur tail) = false
  cur : cur rest = 124 ∨ cur rest = 10

theorem parseSpace_of_word {src : List UInt8} (h : isWordChar (cur src) = true) (b : Bool) :
    Gbnf.parseSpace src b = src := by
  cases src with
  | nil => rfl
  | cons c src =>
    have hc : ∀ d, isWordChar d = false → c ≠ d := by
      rintro d hd rfl
      rw [show cur (c :: src) = c from rfl, hd] at h
      cases h
    simp [Gbnf.parseSpace, parseSpaceLoop, hc 32 (by decide), hc 9 (by decide), hc 35 (by decide),
      hc 13 (by decide), hc 10 (by decide)]

theorem cur_name {name : List UInt8} (h : IsName name) (tail : List UInt8) :
    isWordChar (cur (name ++ tail)) = true := by
  cases name with
  | nil => exact absurd rfl h.ne
  | cons c name => exact h.word c mem_cons_self

theorem takeWhile_name {name tail : List UInt8} (h : IsName name)
    (ht : isWordChar (cur tail) = false) :
    (name ++ tail).takeWhile isWordChar = name ∧ (name ++ tail).dropWhile isWordChar = tail := by
  have htail : tail.takeWhile isWordChar = [] ∧ tail.dropWhile isWordChar = tail := by
    cases tail with
    | nil => exact ⟨rfl, rfl⟩
    | cons c tail =>
      have hc : isWordChar c = false := ht
      simp [hc]
  rw [takeWhile_append_of_pos h.word, dropWhile_append_of_pos h.word, htail.1, htail.2]
  simp

theorem parseName_append {name tail : List UInt8} (h : IsName name)
    (ht : isWordChar (cur tail) = false) : parseName (name ++ tail) = .ok (name, tail) := by
  obtain ⟨h1, h2⟩ := takeWhile_name h ht
  unfold parseName
  rw [h1, h2]
  exact if_neg h.ne

/-- What `parse_sequence` does at a name. -/
theorem parseItem_name (p : GbnfParser) (st : Gbnf.SeqState) {name tail : List UInt8}
    (h : IsName name)
    (ht : isWordChar (cur tail) = false) :
    parseItem vocab ruleName false group p (name ++ tail) st =
      .ok (some ((p.getSymbolId name).1, Gbnf.parseSpace tail false,
        st.push [⟨.ruleRef, (p.getSymbolId name).2⟩])) := by
  have hw := cur_name h tail
  have hc : ∀ d, isWordChar d = false → cur (name ++ tail) ≠ d := by
    rintro d hd e
    rw [e, hd] at hw
    cases hw
  unfold parseItem
  rw [if_neg (hc 34 (by decide)), if_neg (hc 91 (by decide)),
    if_neg (fun e => e.elim (hc 60 (by decide)) (hc 33 (by decide))), if_pos hw,
    parseName_append h ht]

/-- `parse_sequence` ends at a bar and at a line end. -/
theorem parseItem_end (p : GbnfParser) (st : Gbnf.SeqState) {pos : List UInt8}
    (h : cur pos = 124 ∨ cur pos = 10) :
    parseItem vocab ruleName false group p pos st = .ok none := by
  unfold parseItem
  rcases h with h | h <;> simp [h, isWordChar, isDigitChar]

/-- An alternative is read as its elements. -/
theorem parseSequence_alt (p : GbnfParser) {a : TextAlt} (ha : a.Ok) (hd : 45 ∉ a.chars)
    {tail rest : List UInt8} (hf : Follows tail rest) (rule : GrammarRule) :
    parseSequence vocab ruleName false group p (a.text ++ tail) rule =
      .ok ((compileAlt p a).1, rest, rule ++ (compileAlt p a).2) := by
  have hlen : 2 ≤ (gbnfCharClass a.chars a.negate).length := by
    unfold gbnfCharClass
    split <;> simp
  unfold parseSequence TextAlt.text compileAlt
  cases href : a.ref with
  | none =>
    obtain ⟨n, hn⟩ : ∃ n, (gbnfCharClass a.chars a.negate ++ [] ++ tail).length + 1 = n + 2 :=
      ⟨(gbnfCharClass a.chars a.negate ++ [] ++ tail).length - 1, by simp; omega⟩
    rw [hn, append_nil, Gbnf.sequenceLoop, parseItem_class p _ a.chars a.negate ha.chars_lt hd]
    dsimp only
    rw [Gbnf.sequenceLoop, hf.space, parseItem_end _ _ hf.cur]
    rfl
  | some name =>
    have hname := ha.name name href
    obtain ⟨n, hn⟩ : ∃ n, (gbnfCharClass a.chars a.negate ++ 32 :: name ++ tail).length + 1 =
        n + 3 :=
      ⟨(gbnfCharClass a.chars a.negate ++ 32 :: name ++ tail).length - 2, by simp; omega⟩
    have hspace : Gbnf.parseSpace (32 :: (name ++ tail)) false = name ++ tail := by
      have := parseSpace_of_word (cur_name hname tail) false
      simpa [Gbnf.parseSpace, parseSpaceLoop] using this
    rw [hn, append_assoc, cons_append, Gbnf.sequenceLoop,
      parseItem_class p _ a.chars a.negate ha.chars_lt hd]
    dsimp only
    rw [Gbnf.sequenceLoop, hspace, parseItem_name _ _ hname hf.word]
    dsimp only
    rw [Gbnf.sequenceLoop, hf.space, parseItem_end _ _ hf.cur]
    simp [Gbnf.SeqState.push]

/-- An alternative with the character `-` is not read. -/
theorem parseSequence_dash (p : GbnfParser) {a : TextAlt} (ha : a.Ok) (hd : 45 ∈ a.chars)
    (tail : List UInt8) (rule : GrammarRule) :
    parseSequence vocab ruleName false group p (a.text ++ tail) rule = .error .unknownEscape := by
  unfold parseSequence TextAlt.text
  rw [Gbnf.sequenceLoop, append_assoc, parseItem_dash p _ a.chars a.negate ha.chars_lt hd]

/-- An empty alternative before a bar. -/
theorem parseSequence_empty (p : GbnfParser) {src : List UInt8} (h : cur src = 124)
    (rule : GrammarRule) :
    parseSequence vocab ruleName false group p src rule = .ok (p, src, rule) := by
  unfold parseSequence
  rw [Gbnf.sequenceLoop, parseItem_end _ _ (.inl h)]

/-- The text of the alternatives behind the first one, and a line end. -/
def altsText (as : List TextAlt) (tail : List UInt8) : List UInt8 :=
  as.flatMap (fun a => [32, 124, 32] ++ a.text) ++ 10 :: tail

/-- The text of the alternatives from a bar on. -/
def barText (as : List TextAlt) (tail : List UInt8) : List UInt8 :=
  match as with
  | [] => 10 :: tail
  | a :: as => [124, 32] ++ a.text ++ altsText as tail

theorem follows_altsText (as : List TextAlt) (tail : List UInt8) :
    Follows (altsText as tail) (barText as tail) := by
  cases as with
  | nil => exact ⟨rfl, rfl, .inr rfl⟩
  | cons a as =>
    have he : altsText (a :: as) tail = 32 :: barText (a :: as) tail := by
      simp [altsText, barText]
    refine ⟨?_, by rw [he]; rfl, .inl rfl⟩
    rw [he]
    simp [Gbnf.parseSpace, parseSpaceLoop, barText]

theorem cur_text (a : TextAlt) (tail : List UInt8) :
    Gbnf.parseSpace (32 :: (a.text ++ tail)) true = a.text ++ tail := by
  have he : ∃ l, a.text ++ tail = 91 :: l := by
    unfold TextAlt.text gbnfCharClass
    split <;> exact ⟨_, rfl⟩
  obtain ⟨l, hl⟩ := he
  rw [hl]
  simp [Gbnf.parseSpace, parseSpaceLoop]

/-- The alternatives behind the first one are read one after the other. -/
theorem alternatesLoop_text (as : List TextAlt) (hok : ∀ a ∈ as, a.Ok)
    (hd : ∀ a ∈ as, 45 ∉ a.chars) (tail : List UInt8) {fuel : Nat} (hf : as.length < fuel)
    (p : GbnfParser) (rule : GrammarRule) :
    alternatesLoop vocab ruleName false group fuel p (barText as tail) rule =
      .ok ((compileAlts as p rule).1, 10 :: tail, (compileAlts as p rule).2) := by
  induction as generalizing fuel p rule with
  | nil =>
    obtain ⟨fuel, rfl⟩ := exists_eq_succ_of_ne_zero (show fuel ≠ 0 by omega)
    simp [alternatesLoop, barText, cur, compileAlts]
  | cons a as ih =>
    obtain ⟨fuel, rfl⟩ := exists_eq_succ_of_ne_zero (show fuel ≠ 0 by omega)
    have he : barText (a :: as) tail = 124 :: 32 :: (a.text ++ altsText as tail) := by
      simp [barText]
    rw [he, alternatesLoop, if_pos (show cur (124 :: _) = 124 from rfl), tail_cons, cur_text,
      parseSequence_alt p (hok a mem_cons_self) (hd a mem_cons_self) (follows_altsText as tail)]
    exact ih (fun b hb => hok b (mem_cons_of_mem a hb))
      (fun b hb => hd b (mem_cons_of_mem a hb)) (by simpa using hf) _ _

theorem alternatesLoop_dash (as : List TextAlt) (hok : ∀ a ∈ as, a.Ok)
    (hd : ∃ a ∈ as, 45 ∈ a.chars) (tail : List UInt8) {fuel : Nat} (hf : as.length < fuel)
    (p : GbnfParser) (rule : GrammarRule) :
    alternatesLoop vocab ruleName false group fuel p (barText as tail) rule =
      .error .unknownEscape := by
  induction as generalizing fuel p rule with
  | nil =>
    obtain ⟨a, ha, -⟩ := hd
    cases ha
  | cons a as ih =>
    obtain ⟨fuel, rfl⟩ := exists_eq_succ_of_ne_zero (show fuel ≠ 0 by omega)
    have he : barText (a :: as) tail = 124 :: 32 :: (a.text ++ altsText as tail) := by
      simp [barText]
    rw [he, alternatesLoop, if_pos (show cur (124 :: _) = 124 from rfl), tail_cons, cur_text]
    by_cases ha : 45 ∈ a.chars
    · rw [parseSequence_dash p (hok a mem_cons_self) ha]
    · rw [parseSequence_alt p (hok a mem_cons_self) ha (follows_altsText as tail)]
      refine ih (fun b hb => hok b (mem_cons_of_mem a hb)) ?_ (by simpa using hf) _ _
      obtain ⟨b, hb, hb45⟩ := hd
      rcases mem_cons.mp hb with rfl | hb
      · exact absurd hb45 ha
      · exact ⟨b, hb, hb45⟩

end Alts

/-! ## Rules -/

/-- A rule: its alternatives, and perhaps the empty one before them. -/
structure TextRule where
  name : List UInt8
  optional : Bool
  first : TextAlt
  rest : List TextAlt
  deriving DecidableEq, Repr

/-- The text behind `::=`. -/
def TextRule.body (r : TextRule) : List UInt8 :=
  (if r.optional then [124, 32] else []) ++ r.first.text ++
    r.rest.flatMap fun a => [32, 124, 32] ++ a.text

/-- The alternatives of a rule that are not empty. -/
def TextRule.alts (r : TextRule) : List TextAlt := r.first :: r.rest

/-- The names are names, and the classes have code points. -/
structure TextRule.Ok (r : TextRule) : Prop where
  name : IsName r.name
  alts : ∀ a ∈ r.alts, a.Ok

/-- The elements of a rule before the end. -/
def compileBody (p : GbnfParser) (r : TextRule) : GbnfParser × GrammarRule :=
  if r.optional then compileAlts r.alts p []
  else compileAlts r.rest (compileAlt p r.first).1 (compileAlt p r.first).2

/-- The parser behind a rule. -/
def compileRule (p : GbnfParser) (r : TextRule) : GbnfParser :=
  let c := compileBody (p.getSymbolId r.name).1 r
  c.1.addRule (p.getSymbolId r.name).2 (c.2 ++ [⟨.end_, 0⟩])

section Rules

variable {vocab : Tokenize}

theorem body_append (r : TextRule) (tail : List UInt8) :
    r.body ++ 10 :: tail = if r.optional then barText r.alts tail
      else r.first.text ++ altsText r.rest tail := by
  unfold TextRule.body TextRule.alts
  split <;> simp [barText, altsText]

theorem length_le_flatMap {α β : Type} (f : α → List β) (l : List α) (h : ∀ a ∈ l, f a ≠ []) :
    l.length ≤ (l.flatMap f).length := by
  induction l with
  | nil => simp
  | cons a l ih =>
    have h1 := length_pos_iff.mpr (h a mem_cons_self)
    have h2 := ih fun b hb => h b (mem_cons_of_mem a hb)
    rw [flatMap_cons, length_append, length_cons]
    omega

theorem length_lt_altsText (as : List TextAlt) (tail : List UInt8) :
    as.length < (altsText as tail).length := by
  have := length_le_flatMap (fun a : TextAlt => [32, 124, 32] ++ a.text) as (by simp)
  rw [altsText, length_append, length_cons]
  omega

theorem length_lt_barText (as : List TextAlt) (tail : List UInt8) :
    as.length < (barText as tail).length + 1 := by
  cases as with
  | nil => simp
  | cons a as =>
    have := length_lt_altsText as tail
    simp only [barText, length_append, length_cons]
    omega

/-- The body of a rule is read. -/
theorem parseAlternates_body (r : TextRule) (hok : ∀ a ∈ r.alts, a.Ok)
    (hd : ∀ a ∈ r.alts, 45 ∉ a.chars) (tail : List UInt8) (depth : Nat) (p : GbnfParser)
    (ruleName : List UInt8) (ruleId : Nat) :
    parseAlternates vocab ruleName (depth + 1) false p (r.body ++ 10 :: tail) ruleId =
      .ok ((compileBody p r).1.addRule ruleId ((compileBody p r).2 ++ [⟨.end_, 0⟩]),
        10 :: tail) := by
  rw [body_append, parseAlternates]
  unfold compileBody
  by_cases hopt : r.optional = true
  · rw [if_pos hopt, if_pos hopt, parseSequence_empty p (by rfl)]
    dsimp only
    rw [alternatesLoop_text r.alts hok hd tail (length_lt_barText r.alts tail)]
  · rw [if_neg hopt, if_neg hopt, parseSequence_alt p (hok _ mem_cons_self)
      (hd _ mem_cons_self) (follows_altsText r.rest tail), nil_append]
    dsimp only
    rw [alternatesLoop_text r.rest (fun a ha => hok a (mem_cons_of_mem _ ha))
      (fun a ha => hd a (mem_cons_of_mem _ ha)) tail (length_lt_barText r.rest tail)]

theorem parseAlternates_dash (r : TextRule) (hok : ∀ a ∈ r.alts, a.Ok)
    (hd : ∃ a ∈ r.alts, 45 ∈ a.chars) (tail : List UInt8) (depth : Nat) (p : GbnfParser)
    (ruleName : List UInt8) (ruleId : Nat) :
    parseAlternates vocab ruleName (depth + 1) false p (r.body ++ 10 :: tail) ruleId =
      .error .unknownEscape := by
  rw [body_append, parseAlternates]
  by_cases hopt : r.optional = true
  · rw [if_pos hopt, parseSequence_empty p (by rfl)]
    dsimp only
    rw [alternatesLoop_dash r.alts hok hd tail (length_lt_barText r.alts tail)]
  · rw [if_neg hopt]
    by_cases hf : 45 ∈ r.first.chars
    · rw [parseSequence_dash p (hok _ mem_cons_self) hf]
    · rw [parseSequence_alt p (hok _ mem_cons_self) hf (follows_altsText r.rest tail)]
      dsimp only
      rw [alternatesLoop_dash r.rest (fun a ha => hok a (mem_cons_of_mem _ ha)) ?_ tail
        (length_lt_barText r.rest tail)]
      obtain ⟨a, ha, ha45⟩ := hd
      rcases mem_cons.mp ha with rfl | ha
      · exact absurd ha45 hf
      · exact ⟨a, ha, ha45⟩

/-- The text behind a rule: the end, or the name of the next rule. -/
def Starts (tail : List UInt8) : Prop := tail = [] ∨ isWordChar (cur tail) = true

variable {r : TextRule} {rs : List TextRule}

/-- What `parse_rule` does at the text of a rule. -/
theorem parseRule_eq (p : GbnfParser) (hok : r.Ok) (tail : List UInt8) :
    parseRule vocab p (gbnfRuleText (r.name, r.body) ++ tail) =
      match parseAlternates vocab r.name ((r.body ++ 10 :: tail).length + 1) false
        (p.getSymbolId r.name).1 (r.body ++ 10 :: tail) (p.getSymbolId r.name).2 with
      | .error e => .error e
      | .ok (p, pos) =>
        if cur pos = 13 then
          .ok (p, Gbnf.parseSpace (if cur pos.tail = 10 then pos.drop 2 else pos.tail) true)
        else if cur pos = 10 then .ok (p, Gbnf.parseSpace pos.tail true)
        else if cur pos ≠ 0 then .error .newline
        else .ok (p, Gbnf.parseSpace pos true) := by
  have he : gbnfRuleText (r.name, r.body) ++ tail =
      r.name ++ 32 :: 58 :: 58 :: 61 :: 32 :: (r.body ++ 10 :: tail) := by
    simp [gbnfRuleText]
  have hbody : Gbnf.parseSpace (32 :: (r.body ++ 10 :: tail)) true = r.body ++ 10 :: tail := by
    rw [body_append]
    split
    · simp [TextRule.alts, barText, Gbnf.parseSpace, parseSpaceLoop]
    · exact cur_text r.first _
  have hspace : ∀ l, Gbnf.parseSpace (32 :: 58 :: l) false = 58 :: l := fun l => by
    simp [Gbnf.parseSpace, parseSpaceLoop]
  unfold parseRule
  rw [he, parseName_append hok.name (by rfl)]
  dsimp only
  rw [hspace]
  simp only [cur, headD_cons, tail_cons, drop_succ_cons, drop_zero, and_self,
    not_true_eq_false, if_false]
  rw [hbody] <;> rfl

/-- A rule is read. -/
theorem parseRule_text (p : GbnfParser) (hok : r.Ok)
    (hd : ∀ a ∈ r.alts, 45 ∉ a.chars) {tail : List UInt8} (ht : Starts tail) :
    parseRule vocab p (gbnfRuleText (r.name, r.body) ++ tail) = .ok (compileRule p r, tail) := by
  rw [parseRule_eq p hok tail, parseAlternates_body r hok.alts hd]
  have hspace : Gbnf.parseSpace tail true = tail := by
    rcases ht with rfl | ht
    · rfl
    · exact parseSpace_of_word ht true
  simp [cur, hspace, compileRule]

theorem parseRule_dash (p : GbnfParser) (hok : r.Ok)
    (hd : ∃ a ∈ r.alts, 45 ∈ a.chars) (tail : List UInt8) :
    parseRule vocab p (gbnfRuleText (r.name, r.body) ++ tail) = .error .unknownEscape := by
  rw [parseRule_eq p hok tail, parseAlternates_dash r hok.alts hd]

/-- The text of rules. -/
def rulesText (rs : List TextRule) : List UInt8 := gbnfText (rs.map fun r => (r.name, r.body))

theorem rulesText_cons (r : TextRule) (rs : List TextRule) :
    rulesText (r :: rs) = gbnfRuleText (r.name, r.body) ++ rulesText rs := rfl

theorem starts_rulesText (hok : ∀ r ∈ rs, r.Ok) : Starts (rulesText rs) := by
  cases rs with
  | nil => exact .inl rfl
  | cons r rs =>
    refine .inr ?_
    rw [rulesText_cons, gbnfRuleText, append_assoc, append_assoc, append_assoc]
    exact cur_name (hok r mem_cons_self).name _

theorem cur_rulesText (hok : r.Ok) : cur (rulesText (r :: rs)) ≠ 0 := fun e => by
  have hw : isWordChar (cur (rulesText (r :: rs))) = true := by
    rw [rulesText_cons, gbnfRuleText, append_assoc, append_assoc, append_assoc]
    exact cur_name hok.name _
  rw [e] at hw
  cases hw

/-- A grammar is read, rule by rule. -/
theorem parseRules_text (hok : ∀ r ∈ rs, r.Ok)
    (hd : ∀ r ∈ rs, ∀ a ∈ r.alts, 45 ∉ a.chars) {fuel : Nat} (hf : rs.length < fuel)
    (p : GbnfParser) : parseRules vocab fuel p (rulesText rs) = .ok (rs.foldl compileRule p) := by
  induction rs generalizing fuel p with
  | nil =>
    obtain ⟨fuel, rfl⟩ := exists_eq_succ_of_ne_zero (show fuel ≠ 0 by omega)
    rfl
  | cons r rs ih =>
    obtain ⟨fuel, rfl⟩ := exists_eq_succ_of_ne_zero (show fuel ≠ 0 by omega)
    have hrs : ∀ r ∈ rs, r.Ok := fun r' hr' => hok r' (mem_cons_of_mem r hr')
    rw [parseRules, if_neg (cur_rulesText (hok r mem_cons_self)), rulesText_cons,
      parseRule_text p (hok r mem_cons_self) (hd r mem_cons_self) (starts_rulesText hrs)]
    exact ih hrs (fun r' hr' => hd r' (mem_cons_of_mem r hr')) (by simpa using hf) _

/-- A grammar with the character `-` in a class is not read. -/
theorem parseRules_dash (hok : ∀ r ∈ rs, r.Ok)
    (hd : ∃ r ∈ rs, ∃ a ∈ r.alts, 45 ∈ a.chars) {fuel : Nat} (hf : rs.length < fuel)
    (p : GbnfParser) : parseRules vocab fuel p (rulesText rs) = .error .unknownEscape := by
  induction rs generalizing fuel p with
  | nil =>
    obtain ⟨r, hr, -⟩ := hd
    cases hr
  | cons r rs ih =>
    obtain ⟨fuel, rfl⟩ := exists_eq_succ_of_ne_zero (show fuel ≠ 0 by omega)
    have hrs : ∀ r ∈ rs, r.Ok := fun r' hr' => hok r' (mem_cons_of_mem r hr')
    rw [parseRules, if_neg (cur_rulesText (hok r mem_cons_self)), rulesText_cons]
    by_cases hr : ∃ a ∈ r.alts, 45 ∈ a.chars
    · rw [parseRule_dash p (hok r mem_cons_self) hr]
    · have hr' : ∀ a ∈ r.alts, 45 ∉ a.chars := fun a ha h => hr ⟨a, ha, h⟩
      rw [parseRule_text p (hok r mem_cons_self) hr' (starts_rulesText hrs)]
      refine ih hrs ?_ (by simpa using hf) _
      obtain ⟨r', hr'', h⟩ := hd
      rcases mem_cons.mp hr'' with rfl | hr''
      · exact absurd h hr
      · exact ⟨r', hr'', h⟩

end Rules

end BeeLlama.Peg
