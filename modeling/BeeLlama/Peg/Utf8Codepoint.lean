import BeeLlama.Grammar.Utf8Cut
import BeeLlama.Peg.Utf8Chars

/-!
# Code points and cuts (`common_unicode_cpt_to_utf8`, `common_utf8_is_complete`)

* `cptToUtf8_eq`: the encoder; `parseUtf8_codePoint` reads what it writes.
* `utf8IsComplete_cut`: the scan from the end. `utf8_roundtrip` compares it with `scan`, which reads
  the text from its begin.
-/

namespace BeeLlama.Peg

open Grammar List Nat

/-- `common_unicode_cpt_to_utf8`. -/
def cptToUtf8 (cpt : Nat) : Except String (List UInt8) :=
  if cpt ≤ 0x7f then .ok [.ofNat cpt]
  else if 0x80 ≤ cpt ∧ cpt ≤ 0x7ff then
    .ok [.ofNat (0xc0 ||| ((cpt >>> 6) &&& 0x1f)), .ofNat (0x80 ||| (cpt &&& 0x3f))]
  else if 0x800 ≤ cpt ∧ cpt ≤ 0xffff then
    .ok [.ofNat (0xe0 ||| ((cpt >>> 12) &&& 0x0f)), .ofNat (0x80 ||| ((cpt >>> 6) &&& 0x3f)),
      .ofNat (0x80 ||| (cpt &&& 0x3f))]
  else if 0x10000 ≤ cpt ∧ cpt ≤ 0x10ffff then
    .ok [.ofNat (0xf0 ||| ((cpt >>> 18) &&& 0x07)), .ofNat (0x80 ||| ((cpt >>> 12) &&& 0x3f)),
      .ofNat (0x80 ||| ((cpt >>> 6) &&& 0x3f)), .ofNat (0x80 ||| (cpt &&& 0x3f))]
  else .error "invalid codepoint"

/-- The length that a first byte asks for. -/
def expectedLength (c : UInt8) : Nat :=
  if 0xf0 ≤ c then 4 else if 0xe0 ≤ c then 3 else if 0xc0 ≤ c then 2 else 1

/-- The loop of `common_utf8_is_complete`, from the end of the text. -/
def completeFrom (i : Nat) : List UInt8 → Bool
  | [] => false
  | c :: cs => if isContinuation c then completeFrom (i + 1) cs else expectedLength c ≤ i

/-- `common_utf8_is_complete`. -/
def utf8IsComplete (s : List UInt8) : Bool := s.isEmpty || completeFrom 1 (s.reverse.take 4)

/-- The characters from a position on are read: what is not a character, if anything. -/
def scan (input : List UInt8) : Nat → Nat → Option Utf8Result
  | 0, _ => none
  | fuel + 1, pos =>
    if input.length ≤ pos then none
    else
      match parseUtf8 input pos with
      | .success _ k => scan input fuel (pos + k)
      | r => some r

/-! ## The encoder -/

theorem or_add : (∀ x < 0x20, 0xc0 ||| x = x + 0xc0) ∧ (∀ x < 0x10, 0xe0 ||| x = x + 0xe0) ∧
    (∀ x < 0x08, 0xf0 ||| x = x + 0xf0) ∧ ∀ x < 0x40, 0x80 ||| x = x + 0x80 := by decide

theorem cptToUtf8_eq {v : Nat} (h : v ≤ 0x10ffff) :
    cptToUtf8 v = .ok (leadByte v :: contBytes v (trailing v)) := by
  have hm3 : ∀ x, x &&& 0x07 = x % 0x08 := fun x => and_two_pow_sub_one_eq_mod x 3
  have hm4 : ∀ x, x &&& 0x0f = x % 0x10 := fun x => and_two_pow_sub_one_eq_mod x 4
  have hm5 : ∀ x, x &&& 0x1f = x % 0x20 := fun x => and_two_pow_sub_one_eq_mod x 5
  have hm6 : ∀ x, x &&& 0x3f = x % 0x40 := fun x => and_two_pow_sub_one_eq_mod x 6
  obtain ⟨h5, h4, h3, h6⟩ := or_add
  have h3 := fun x => h3 (x % 0x08) (mod_lt _ (by decide))
  have h4 := fun x => h4 (x % 0x10) (mod_lt _ (by decide))
  have h5 := fun x => h5 (x % 0x20) (mod_lt _ (by decide))
  have h6 := fun x => h6 (x % 0x40) (mod_lt _ (by decide))
  unfold cptToUtf8 leadByte trailing
  by_cases h0 : v ≤ 0x7f
  · simp [h0, contBytes]
  by_cases h1 : v ≤ 0x7ff
  · simp [h0, h1, show 0x80 ≤ v by omega, hm5, hm6, h5, h6, shiftRight_eq_div_pow, contBytes]
  by_cases h2 : v ≤ 0xffff
  · simp [h0, h1, h2, show 0x800 ≤ v by omega, hm4, hm6, h4, h6, shiftRight_eq_div_pow,
      contBytes]
  · simp [h0, h1, h2, h, show 0x10000 ≤ v by omega, hm3, hm6, h3, h6, shiftRight_eq_div_pow,
      contBytes]

/-! ## The end of a text -/

theorem leadByte_expected {v : Nat} (hv : v < 0x110000) :
    isContinuation (leadByte v) = false ∧ expectedLength (leadByte v) = trailing v + 1 := by
  unfold leadByte trailing
  split
  · exact (by decide : ∀ x < 0x80, isContinuation (.ofNat x) = false ∧
      expectedLength (.ofNat x) = 1) v (by omega)
  split
  · exact (by decide : ∀ x < 0x20, isContinuation (.ofNat (x + 0xc0)) = false ∧
      expectedLength (.ofNat (x + 0xc0)) = 2) _ (mod_lt _ (by decide))
  split
  · exact (by decide : ∀ x < 0x10, isContinuation (.ofNat (x + 0xe0)) = false ∧
      expectedLength (.ofNat (x + 0xe0)) = 3) _ (mod_lt _ (by decide))
  · exact (by decide : ∀ x < 0x08, isContinuation (.ofNat (x + 0xf0)) = false ∧
      expectedLength (.ofNat (x + 0xf0)) = 4) _ (mod_lt _ (by decide))

theorem completeFrom_append {m : List UInt8} (hm : ∀ b ∈ m, isContinuation b = true) {b : UInt8}
    (hb : isContinuation b = false) (i : Nat) (rest : List UInt8) :
    completeFrom i (m ++ b :: rest) = decide (expectedLength b ≤ i + m.length) := by
  induction m generalizing i with
  | nil => simp [completeFrom, hb]
  | cons a m ih =>
    obtain ⟨ha, hm⟩ := forall_mem_cons.mp hm
    rw [cons_append, completeFrom, if_pos ha, ih hm, length_cons, Nat.add_right_comm, Nat.add_assoc]

/-- The scan from the end finds the first byte of the last character. -/
theorem utf8IsComplete_cut (xs : List UInt8) {v : Nat} (hv : v < 0x110000) {l r : List UInt8}
    (e : contBytes v (trailing v) = l ++ r) :
    utf8IsComplete (xs ++ leadByte v :: l) = decide (r = []) := by
  obtain ⟨hlead, hexp⟩ := leadByte_expected hv
  have hlen := congrArg List.length e
  rw [length_contBytes, length_append] at hlen
  have htrail : trailing v ≤ 3 := by
    unfold trailing
    split_ifs <;> omega
  have hrev : (xs ++ leadByte v :: l).reverse.take 4 =
      l.reverse ++ leadByte v :: xs.reverse.take (3 - l.length) := by
    rw [reverse_append, reverse_cons, append_assoc, singleton_append, take_append,
      take_of_length_le (by rw [length_reverse]; omega), length_reverse,
      show 4 - l.length = 3 - l.length + 1 by omega, take_succ_cons]
  have hcont : ∀ b ∈ l.reverse, isContinuation b = true := by
    intro b hb
    obtain ⟨y, z, rfl⟩ := append_of_mem (mem_reverse.mp hb)
    rw [append_assoc] at e
    obtain ⟨x, hx, rfl⟩ := contBytes_suffix e
    exact (cont_byte x hx).2.2.1
  rw [utf8IsComplete, hrev, completeFrom_append hcont hlead, hexp, length_reverse]
  have hr : r = [] ↔ trailing v + 1 ≤ 1 + l.length := by
    rw [← length_eq_zero_iff]
    omega
  simp [hr]

/-! ## Texts -/

theorem scan_eq (xs : List UInt8) (cs : List Char) {l : List UInt8} (hl : Part l) {fuel : Nat}
    (hf : (encode cs ++ l).length ≤ fuel) :
    scan (xs ++ (encode cs ++ l)) fuel xs.length = if l = [] then none else some .incomplete := by
  induction cs generalizing xs fuel with
  | nil =>
    cases fuel with
    | zero => simp_all [scan]
    | succ fuel =>
      have hp := parseUtf8_append xs l 0
      rw [Nat.add_zero, parseUtf8_part hl] at hp
      simp only [scan, encode_nil, nil_append, hp]
      by_cases h : l = []
      · simp [h]
      · simp [h, length_pos_of_ne_nil h]
  | cons c cs ih =>
    have hc := length_pos_of_ne_nil (String.utf8EncodeChar_ne_nil (c := c))
    rw [encode_cons, append_assoc, length_append] at hf
    obtain ⟨fuel, rfl⟩ := exists_eq_succ_of_ne_zero (show fuel ≠ 0 by omega)
    have hp := parseUtf8_append xs (String.utf8EncodeChar c ++ (encode cs ++ l)) 0
    rw [Nat.add_zero, parseUtf8_encode] at hp
    have h := @ih (xs ++ String.utf8EncodeChar c) fuel (by omega)
    rw [length_append, append_assoc] at h
    have hlt : ¬ (xs ++ (String.utf8EncodeChar c ++ (encode cs ++ l))).length ≤ xs.length := by
      rw [length_append, length_append]
      omega
    rw [encode_cons, append_assoc, scan, hp, if_neg hlt]
    exact h

theorem utf8IsComplete_eq (cs : List Char) {l : List UInt8} (hl : Part l) :
    utf8IsComplete (encode cs ++ l) = decide (l = []) := by
  cases l with
  | nil =>
    rcases eq_nil_or_concat' cs with rfl | ⟨cs, c, rfl⟩
    · rfl
    · rw [append_nil, encode_append, encode_cons, encode_nil, append_nil, encode_eq]
      exact utf8IsComplete_cut _ (toNat_lt c) (append_nil _).symm
  | cons b l =>
    obtain ⟨c, r, e, hr⟩ := hl
    rw [encode_eq] at e
    obtain ⟨rfl, e'⟩ := List.cons.inj e
    rw [utf8IsComplete_cut _ (toNat_lt c) e', decide_eq_false hr]
    rfl

/-- Every code point is read back, and a text that is cut is incomplete for both readers exactly if
it is cut inside of a character. -/
theorem utf8_roundtrip : (∀ cpt ≤ 0x10ffff, ∃ bytes, cptToUtf8 cpt = .ok bytes ∧
      ∀ xs ys, parseUtf8 (xs ++ (bytes ++ ys)) xs.length = .success cpt bytes.length) ∧
    ∀ cs s, s <+: encode cs →
      (scan s s.length 0 = some .incomplete ↔ ¬ ∃ k, s = encode (cs.take k)) ∧
      (utf8IsComplete s = false ↔ ¬ ∃ k, s = encode (cs.take k)) := by
  refine ⟨fun cpt h => ⟨_, cptToUtf8_eq h, fun xs ys => ?_⟩, fun cs s hs => ?_⟩
  · rw [← Nat.add_zero xs.length, parseUtf8_append, length_cons, length_contBytes]
    exact parseUtf8_codePoint (by omega) ys
  · obtain ⟨rest, hrest⟩ := hs
    obtain ⟨as, c, l, r, hs, e, hr⟩ := BeginsText.split ⟨cs, rest, hrest⟩
    obtain rfl : s = encode as ++ l := hs
    have hl : Part l := ⟨c, r, e, hr⟩
    have hscan := scan_eq [] as hl le_rfl
    have hboundary : (∃ k, encode as ++ l = encode (cs.take k)) ↔ l = [] := by
      constructor
      · rintro ⟨k, hk⟩
        have h := utf8IsComplete_eq (cs.take k) part_nil
        rw [append_nil, ← hk, utf8IsComplete_eq as hl] at h
        simpa using h
      · rintro rfl
        have hpre : as <+: cs := prefix_of_encode part_nil ⟨rest, by simpa using hrest⟩
        exact ⟨as.length, by rw [append_nil, ← prefix_iff_eq_take.mp hpre]⟩
    constructor
    · rw [hboundary]
      refine (iff_of_eq (congrArg (· = _) hscan)).trans ?_
      by_cases h : l = [] <;> simp [h]
    · rw [hboundary]
      refine (iff_of_eq (congrArg (· = _) (utf8IsComplete_eq as hl))).trans ?_
      simp

end BeeLlama.Peg
