import BeeLlama.Grammar.Utf8
import BeeLlama.Peg.Trie

/-!
# Characters and their bytes (`common_parse_utf8_codepoint`)

The bytes of a text are those of its characters, one after the other.

* `parseUtf8_codePoint`, `parseUtf8_encode`: at the first byte of a code point it is read.
* `parseUtf8_part`, `parseUtf8_inside`: a character that is cut is incomplete at its first byte, and
  at the other ones there is none.
* `prefix_of_encode`: so a text that begins with another one does so in characters.
* `symbolsOf_encode`: the symbols of a word are the code points of its characters.
-/

namespace BeeLlama.Peg

open Grammar List Nat

/-- The bytes of a text. -/
def encode (cs : List Char) : List UInt8 := cs.flatMap String.utf8EncodeChar

@[simp] theorem encode_nil : encode [] = [] := rfl

@[simp] theorem encode_cons (c : Char) (cs : List Char) :
    encode (c :: cs) = String.utf8EncodeChar c ++ encode cs := flatMap_cons ..

@[simp] theorem encode_append (a b : List Char) : encode (a ++ b) = encode a ++ encode b :=
  flatMap_append ..

/-- The bytes begin a character, but do not complete it. -/
def Part (l : List UInt8) : Prop := ∃ c r, String.utf8EncodeChar c = l ++ r ∧ r ≠ []

theorem part_nil : Part [] := ⟨'a', String.utf8EncodeChar 'a', rfl, String.utf8EncodeChar_ne_nil⟩

/-! ## One character -/

theorem parseUtf8_append (xs ys : List UInt8) (i : Nat) :
    parseUtf8 (xs ++ ys) (xs.length + i) = parseUtf8 ys i := by
  have hget : ∀ j : Nat, (xs ++ ys)[xs.length + i + j]? = ys[i + j]? := by
    intro j
    rw [Nat.add_assoc, getElem?_append_right (Nat.le_add_right _ _), Nat.add_sub_cancel_left]
  have h0 := hget 0
  rw [Nat.add_zero, Nat.add_zero] at h0
  simp only [parseUtf8, h0, hget]

theorem lead_zero : ∀ x < 0x80, UInt8.ofNat x &&& 0x80 = 0 ∧ (UInt8.ofNat x).toNat = x := by
  decide

theorem lead_one : ∀ x < 0x20, ¬ UInt8.ofNat (x + 0xc0) &&& 0x80 = 0 ∧
    ¬ UInt8.ofNat (x + 0xc0) &&& 0x40 = 0 ∧ UInt8.ofNat (x + 0xc0) &&& 0x20 = 0 ∧
    (UInt8.ofNat (x + 0xc0) &&& 0x1f).toNat = x := by decide

theorem lead_two : ∀ x < 0x10, ¬ UInt8.ofNat (x + 0xe0) &&& 0x80 = 0 ∧
    ¬ UInt8.ofNat (x + 0xe0) &&& 0x40 = 0 ∧ ¬ UInt8.ofNat (x + 0xe0) &&& 0x20 = 0 ∧
    UInt8.ofNat (x + 0xe0) &&& 0x10 = 0 ∧ (UInt8.ofNat (x + 0xe0) &&& 0x0f).toNat = x := by decide

theorem lead_three : ∀ x < 0x08, ¬ UInt8.ofNat (x + 0xf0) &&& 0x80 = 0 ∧
    ¬ UInt8.ofNat (x + 0xf0) &&& 0x40 = 0 ∧ ¬ UInt8.ofNat (x + 0xf0) &&& 0x20 = 0 ∧
    ¬ UInt8.ofNat (x + 0xf0) &&& 0x10 = 0 ∧ UInt8.ofNat (x + 0xf0) &&& 0x08 = 0 ∧
    (UInt8.ofNat (x + 0xf0) &&& 0x07).toNat = x := by decide

theorem cont_byte : ∀ x < 0x40, ¬ UInt8.ofNat (x + 0x80) &&& 0x80 = 0 ∧
    UInt8.ofNat (x + 0x80) &&& 0x40 = 0 ∧ isContinuation (UInt8.ofNat (x + 0x80)) = true ∧
    (UInt8.ofNat (x + 0x80) &&& 0x3f).toNat = x := by decide

/-- Behind the first byte there are as many bytes as it says, or the character is incomplete. -/
theorem parseUtf8_lead {v : Nat} {rest : List UInt8} (h : rest.length < trailing v) :
    parseUtf8 (leadByte v :: rest) 0 = .incomplete := by
  unfold leadByte
  unfold trailing at h
  by_cases h0 : v ≤ 0x7f
  · rw [if_pos h0] at h
    omega
  rw [if_neg h0] at h ⊢
  by_cases h1 : v ≤ 0x7ff
  · rw [if_pos h1] at h ⊢
    have hb := lead_one (v / 64 % 0x20) (mod_lt _ (by decide))
    generalize UInt8.ofNat (v / 64 % 0x20 + 0xc0) = b at hb
    obtain rfl : rest = [] := length_eq_zero_iff.mp (by omega)
    simp [parseUtf8, hb]
  rw [if_neg h1] at h ⊢
  by_cases h2 : v ≤ 0xffff
  · rw [if_pos h2] at h ⊢
    have hb := lead_two (v / 4096 % 0x10) (mod_lt _ (by decide))
    generalize UInt8.ofNat (v / 4096 % 0x10 + 0xe0) = b at hb
    have hnone : rest[1]? = none := getElem?_eq_none (by omega)
    simp [parseUtf8, hb, hnone]
  · rw [if_neg h2] at h ⊢
    have hb := lead_three (v / 262144 % 0x08) (mod_lt _ (by decide))
    generalize UInt8.ofNat (v / 262144 % 0x08 + 0xf0) = b at hb
    have hnone : rest[2]? = none := getElem?_eq_none (by omega)
    simp [parseUtf8, hb, hnone]

/-- The number that two parts make up. -/
theorem shift_or {a b n i : Nat} (hb : b < 2 ^ i) (h : a * 2 ^ i + b = n) : a <<< i ||| b = n := by
  rw [← shiftLeft_add_eq_or_of_lt hb, shiftLeft_eq, h]

/-- At the first byte of a code point it is read. -/
theorem parseUtf8_codePoint {v : Nat} (hv : v < 0x110000) (ys : List UInt8) :
    parseUtf8 (leadByte v :: contBytes v (trailing v) ++ ys) 0 = .success v (trailing v + 1) := by
  have hcont := fun k => cont_byte (v / 64 ^ k % 0x40) (mod_lt _ (by decide))
  have hlow : (v / 64 ^ 1 % 0x40) <<< 6 ||| v / 64 ^ 0 % 0x40 = v % 4096 :=
    shift_or (by omega) (by omega)
  have h0' := hcont 0
  have h1' := hcont 1
  have h2' := hcont 2
  unfold leadByte trailing
  by_cases h0 : v ≤ 0x7f
  · have hb := lead_zero v (by omega)
    simp only [if_pos h0, contBytes, cons_append, nil_append]
    generalize UInt8.ofNat v = b at hb
    simp [parseUtf8, hb]
  by_cases h1 : v ≤ 0x7ff
  · have hb := lead_one (v / 64 % 0x20) (mod_lt _ (by decide))
    have hnum : (v / 64 % 0x20) <<< 6 ||| v / 64 ^ 0 % 0x40 = v := shift_or (by omega) (by omega)
    simp only [if_neg h0, if_pos h1, contBytes, cons_append, nil_append]
    generalize UInt8.ofNat (v / 64 % 0x20 + 0xc0) = b at hb
    generalize UInt8.ofNat (v / 64 ^ 0 % 0x40 + 0x80) = b1 at h0'
    simp only [parseUtf8, getElem?_cons_zero, getElem?_cons_succ, hb, h0', hnum, if_false,
      if_true, Bool.not_true, Bool.false_eq_true]
  by_cases h2 : v ≤ 0xffff
  · have hb := lead_two (v / 4096 % 0x10) (mod_lt _ (by decide))
    have hnum : (v / 4096 % 0x10) <<< 12 ||| (v / 64 ^ 1 % 0x40) <<< 6 |||
        v / 64 ^ 0 % 0x40 = v := by
      rw [Nat.or_assoc, hlow]
      exact shift_or (by omega) (by omega)
    simp only [if_neg h0, if_neg h1, if_pos h2, contBytes, cons_append, nil_append]
    generalize UInt8.ofNat (v / 4096 % 0x10 + 0xe0) = b at hb
    generalize UInt8.ofNat (v / 64 ^ 0 % 0x40 + 0x80) = b2 at h0'
    generalize UInt8.ofNat (v / 64 ^ 1 % 0x40 + 0x80) = b1 at h1'
    simp only [parseUtf8, getElem?_cons_zero, getElem?_cons_succ, hb, h0', h1', hnum,
      if_false, if_true, Bool.not_true, Bool.false_eq_true, Bool.or_false]
  · have hb := lead_three (v / 262144 % 0x08) (mod_lt _ (by decide))
    have hnum : (v / 262144 % 0x08) <<< 18 ||| (v / 64 ^ 2 % 0x40) <<< 12 |||
        (v / 64 ^ 1 % 0x40) <<< 6 ||| v / 64 ^ 0 % 0x40 = v := by
      have hmid : (v / 64 ^ 2 % 0x40) <<< 12 ||| v % 4096 = v % 262144 :=
        shift_or (by omega) (by omega)
      rw [Nat.or_assoc, hlow, Nat.or_assoc, hmid]
      exact shift_or (by omega) (by omega)
    simp only [if_neg h0, if_neg h1, if_neg h2, contBytes, cons_append, nil_append]
    generalize UInt8.ofNat (v / 262144 % 0x08 + 0xf0) = b at hb
    generalize UInt8.ofNat (v / 64 ^ 0 % 0x40 + 0x80) = b3 at h0'
    generalize UInt8.ofNat (v / 64 ^ 1 % 0x40 + 0x80) = b2 at h1'
    generalize UInt8.ofNat (v / 64 ^ 2 % 0x40 + 0x80) = b1 at h2'
    simp only [parseUtf8, getElem?_cons_zero, getElem?_cons_succ, hb, h0', h1', h2', hnum,
      if_false, if_true, Bool.not_true, Bool.false_eq_true, Bool.or_false]

theorem parseUtf8_encode (c : Char) (ys : List UInt8) :
    parseUtf8 (String.utf8EncodeChar c ++ ys) 0 =
      .success c.toNat (String.utf8EncodeChar c).length := by
  rw [encode_eq, length_cons, length_contBytes]
  exact parseUtf8_codePoint (toNat_lt c) ys

/-- A character that is cut is incomplete. -/
theorem parseUtf8_part {l : List UInt8} (h : Part l) : parseUtf8 l 0 = .incomplete := by
  obtain ⟨c, r, e, hr⟩ := h
  rw [encode_eq] at e
  cases l with
  | nil => exact parseUtf8_of_le le_rfl
  | cons b l =>
    obtain ⟨rfl, e'⟩ := List.cons.inj e
    have hlen := congrArg List.length e'
    rw [length_contBytes, append_eq, length_append] at hlen
    have := length_pos_of_ne_nil hr
    exact parseUtf8_lead (by omega)

theorem contBytes_suffix {v k : Nat} {l : List UInt8} {b : UInt8} {r : List UInt8}
    (e : contBytes v k = l ++ b :: r) : ∃ x < 0x40, b = UInt8.ofNat (x + 0x80) := by
  induction k generalizing l with
  | zero => simp [contBytes] at e
  | succ k ih =>
    cases l with
    | nil => exact ⟨_, mod_lt _ (by decide), (List.cons.inj e).1.symm⟩
    | cons a l => exact ih (List.cons.inj e).2

/-- Inside of a character there is none. -/
theorem parseUtf8_inside {c : Char} {l r : List UInt8} {b : UInt8}
    (e : String.utf8EncodeChar c = l ++ b :: r) (hl : l ≠ []) (ys : List UInt8) :
    parseUtf8 (b :: ys) 0 = .invalid := by
  obtain ⟨b', l, rfl⟩ := exists_cons_of_ne_nil hl
  rw [encode_eq] at e
  obtain ⟨x, hx, rfl⟩ := contBytes_suffix (List.cons.inj e).2
  have hb := cont_byte x hx
  generalize UInt8.ofNat (x + 0x80) = b at hb
  simp [parseUtf8, hb]

/-! ## Texts -/

theorem encode_inj {c c' : Char} {ys zs : List UInt8}
    (e : String.utf8EncodeChar c ++ ys = String.utf8EncodeChar c' ++ zs) : c = c' := by
  have h := parseUtf8_encode c ys
  rw [e, parseUtf8_encode] at h
  exact Char.ext (UInt32.toNat_inj.mp (Utf8Result.success.inj h).1.symm)

/-- A text that begins with another one does so in characters. -/
theorem prefix_of_encode {d b : List Char} {l : List UInt8} (hl : Part l)
    (h : encode d <+: encode b ++ l) : d <+: b := by
  induction d generalizing b with
  | nil => exact nil_prefix
  | cons c d ih =>
    obtain ⟨t, ht⟩ := h
    rw [encode_cons, append_assoc] at ht
    cases b with
    | nil =>
      have hp := parseUtf8_part hl
      rw [encode_nil, nil_append] at ht
      rw [← ht, parseUtf8_encode] at hp
      cases hp
    | cons c' b =>
      rw [encode_cons, append_assoc] at ht
      obtain rfl := encode_inj ht
      exact cons_prefix_cons.mpr ⟨rfl, ih ⟨t, append_cancel_left ht⟩⟩

theorem length_encode_pos {cs : List Char} (h : cs ≠ []) : 0 < (encode cs).length := by
  obtain ⟨c, cs, rfl⟩ := exists_cons_of_ne_nil h
  have := length_pos_of_ne_nil (String.utf8EncodeChar_ne_nil (c := c))
  rw [encode_cons, length_append]
  omega

theorem symbolsFrom_encode (xs : List UInt8) (d : List Char) (fuel : Nat)
    (hf : (encode d).length ≤ fuel) :
    symbolsFrom (xs ++ encode d) fuel xs.length = d.map Char.toNat := by
  induction d generalizing xs fuel with
  | nil =>
    cases fuel with
    | zero => rfl
    | succ fuel => simp [symbolsFrom, parseUtf8_of_le]
  | cons c d ih =>
    have hc := length_pos_of_ne_nil (String.utf8EncodeChar_ne_nil (c := c))
    rw [encode_cons, length_append] at hf
    obtain ⟨fuel, rfl⟩ := exists_eq_succ_of_ne_zero (show fuel ≠ 0 by omega)
    have hp := parseUtf8_append xs (String.utf8EncodeChar c ++ encode d) 0
    rw [Nat.add_zero, parseUtf8_encode] at hp
    have h := ih (xs ++ String.utf8EncodeChar c) fuel (by omega)
    rw [length_append, append_assoc] at h
    simp only [symbolsFrom, encode_cons, hp, h, map_cons]

/-- The symbols of a word are the code points of its characters. -/
@[simp] theorem symbolsOf_encode (d : List Char) : symbolsOf (encode d) = d.map Char.toNat :=
  symbolsFrom_encode [] d _ le_rfl

end BeeLlama.Peg
