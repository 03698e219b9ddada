import Mathlib.Data.UInt

/-!
# Code points of a byte string (`common_parse_utf8_codepoint`)

* `parseUtf8_take`: what the bytes of a prefix say is what the whole string says, unless the prefix
  ends too early.
-/

namespace BeeLlama.Peg

/-- `utf8_parse_result`. -/
inductive Utf8Result where
  | success (codepoint bytesConsumed : Nat)
  | incomplete
  | invalid
  deriving DecidableEq, Repr

/-- A byte that continues a sequence. -/
def isContinuation (b : UInt8) : Bool := b &&& 0xc0 = 0x80

/-- `common_parse_utf8_codepoint`. -/
def parseUtf8 (input : List UInt8) (offset : Nat) : Utf8Result :=
  match input[offset]? with
  | none => .incomplete
  | some b₀ =>
    if b₀ &&& 0x80 = 0 then .success b₀.toNat 1
    else if b₀ &&& 0x40 = 0 then .invalid
    else if b₀ &&& 0x20 = 0 then
      match input[offset + 1]? with
      | none => .incomplete
      | some b₁ =>
        if !isContinuation b₁ then .invalid
        else .success (((b₀ &&& 0x1f).toNat <<< 6) ||| (b₁ &&& 0x3f).toNat) 2
    else if b₀ &&& 0x10 = 0 then
      match input[offset + 1]?, input[offset + 2]? with
      | some b₁, some b₂ =>
        if !isContinuation b₁ || !isContinuation b₂ then .invalid
        else .success (((b₀ &&& 0x0f).toNat <<< 12) ||| ((b₁ &&& 0x3f).toNat <<< 6) |||
          (b₂ &&& 0x3f).toNat) 3
      | _, _ => .incomplete
    else if b₀ &&& 0x08 = 0 then
      match input[offset + 1]?, input[offset + 2]?, input[offset + 3]? with
      | some b₁, some b₂, some b₃ =>
        if !isContinuation b₁ || !isContinuation b₂ || !isContinuation b₃ then .invalid
        else .success (((b₀ &&& 0x07).toNat <<< 18) ||| ((b₁ &&& 0x3f).toNat <<< 12) |||
          ((b₂ &&& 0x3f).toNat <<< 6) ||| (b₃ &&& 0x3f).toNat) 4
      | _, _, _ => .incomplete
    else .invalid

theorem shiftLeft_lt (b : UInt8) {n : Nat} (hn : n ≤ 24) : b.toNat <<< n < 2 ^ 32 := by
  have hb : b.toNat < 2 ^ 8 := UInt8.toNat_lt b
  calc b.toNat <<< n = b.toNat * 2 ^ n := Nat.shiftLeft_eq _ _
    _ < 2 ^ 8 * 2 ^ n := Nat.mul_lt_mul_of_pos_right hb (Nat.two_pow_pos n)
    _ = 2 ^ (8 + n) := (Nat.pow_add 2 8 n).symm
    _ ≤ 2 ^ 32 := Nat.pow_le_pow_right (by omega) (by omega)

variable {input : List UInt8}

/-- A code point is a number of 32 bits. -/
theorem parseUtf8_lt {offset c k : Nat}
    (h : parseUtf8 input offset = .success c k) : c < 2 ^ 32 := by
  have hb : ∀ b : UInt8, b.toNat < 2 ^ 32 := fun b => lt_trans (UInt8.toNat_lt b) (by decide)
  have h6 := fun b : UInt8 => shiftLeft_lt b (show 6 ≤ 24 by omega)
  have h12 := fun b : UInt8 => shiftLeft_lt b (show 12 ≤ 24 by omega)
  have h18 := fun b : UInt8 => shiftLeft_lt b (show 18 ≤ 24 by omega)
  unfold parseUtf8 at h
  split at h
  · cases h
  · split at h
    · cases h
      exact hb _
    · split at h
      · cases h
      · split at h
        · split at h
          · cases h
          · split at h
            · cases h
            · cases h
              exact Nat.or_lt_two_pow (h6 _) (hb _)
        · split at h
          · split at h
            · split at h
              · cases h
              · cases h
                exact Nat.or_lt_two_pow (Nat.or_lt_two_pow (h12 _) (h6 _)) (hb _)
            · cases h
          · split at h
            · split at h
              · split at h
                · cases h
                · cases h
                  exact Nat.or_lt_two_pow
                    (Nat.or_lt_two_pow (Nat.or_lt_two_pow (h18 _) (h12 _)) (h6 _)) (hb _)
              · cases h
            · cases h

/-- A code point consumes bytes, which the input has. -/
theorem parseUtf8_success {offset c k : Nat}
    (h : parseUtf8 input offset = .success c k) : 0 < k ∧ offset + k ≤ input.length := by
  have hlt : ∀ {i : Nat} {b : UInt8}, input[i]? = some b → i < input.length :=
    fun h => (List.getElem?_eq_some_iff.mp h).1
  unfold parseUtf8 at h
  split at h
  · cases h
  · next b0 h0 =>
    have := hlt h0
    split at h
    · cases h
      omega
    · split at h
      · cases h
      · split at h
        · split at h
          · cases h
          · next b1 h1 =>
            have := hlt h1
            split at h
            · cases h
            · cases h
              omega
        · split at h
          · split at h
            · next b1 b2 h1 h2 =>
              have := hlt h2
              split at h
              · cases h
              · cases h
                omega
            · cases h
          · split at h
            · split at h
              · next b1 b2 b3 h1 h2 h3 =>
                have := hlt h3
                split at h
                · cases h
                · cases h
                  omega
              · cases h
            · cases h

/-- Past the end of the input a code point is incomplete. -/
theorem parseUtf8_of_le {offset : Nat} (h : input.length ≤ offset) :
    parseUtf8 input offset = .incomplete := by
  simp [parseUtf8, List.getElem?_eq_none h]

/-- The bytes of a prefix say what the whole string says, unless more of them are needed. -/
theorem parseUtf8_take (input : List UInt8) (n offset : Nat) :
    parseUtf8 (input.take n) offset = .incomplete ∨
      parseUtf8 (input.take n) offset = parseUtf8 input offset := by
  have hget : ∀ i : Nat, (input.take n)[i]? = none ∨ (input.take n)[i]? = input[i]? := by
    intro i
    rw [List.getElem?_take]
    split
    · exact .inr rfl
    · exact .inl rfl
  unfold parseUtf8
  rcases hget offset with e0 | e0 <;> rw [e0]
  · exact .inl rfl
  cases input[offset]? with
  | none => exact .inl rfl
  | some b0 =>
    dsimp only
    by_cases h1 : b0 &&& 0x80 = 0
    · simp only [if_pos h1, or_true]
    by_cases h2 : b0 &&& 0x40 = 0
    · simp only [if_neg h1, if_pos h2, or_true]
    by_cases h3 : b0 &&& 0x20 = 0
    · simp only [if_neg h1, if_neg h2, if_pos h3]
      rcases hget (offset + 1) with e1 | e1 <;> simp [e1]
    by_cases h4 : b0 &&& 0x10 = 0
    · simp only [if_neg h1, if_neg h2, if_neg h3, if_pos h4]
      rcases hget (offset + 1) with e1 | e1 <;> rcases hget (offset + 2) with e2 | e2 <;>
        simp [e1, e2]
    by_cases h5 : b0 &&& 0x08 = 0
    · simp only [if_neg h1, if_neg h2, if_neg h3, if_neg h4, if_pos h5]
      rcases hget (offset + 1) with e1 | e1 <;> rcases hget (offset + 2) with e2 | e2 <;>
        rcases hget (offset + 3) with e3 | e3 <;> simp [e1, e2, e3]
    · simp only [if_neg h1, if_neg h2, if_neg h3, if_neg h4, if_neg h5, or_true]

end BeeLlama.Peg
