import BeeLlama.Grammar.Agree

/-!
# Incremental decoding (`decode_utf8`)

`feedByte` reads one byte of well-formed UTF-8, and the state between two bytes is all that
`llama_partial_utf8` keeps: `decodeUtf8_of_feed` says that the two loops of `decode_utf8` do the
same. The encoding of a character is that of Lean's `String`.

* `feed_encode`: the bytes of characters give their code points.
* `Completes`: the characters that a partial sequence can be completed to; `completes_iff` counts
  them out.
-/

namespace BeeLlama.Grammar

open List

/-! ## One byte at a time -/

/-- One byte: the state after it and the code point that it completes. -/
def feedByte (u : PartialUtf8) (b : UInt8) : Option (PartialUtf8 × List Nat) :=
  if u.nRemain > 0 then
    if b.toNat >>> 6 ≠ 2 then none
    else
      let value := (u.value <<< 6) + (b.toNat &&& 0x3F)
      some (⟨value, u.nRemain - 1⟩, if u.nRemain - 1 = 0 then [value] else [])
  else
    let nRemain := utf8Length (b.toNat >>> 4) - 1
    if nRemain < 0 then none
    else
      let value := b.toNat &&& ((1 <<< (7 - nRemain.toNat)) - 1)
      some (⟨value, nRemain⟩, if nRemain = 0 then [value] else [])

/-- The bytes one after the other. -/
def feed (u : PartialUtf8) : List UInt8 → Option (PartialUtf8 × List Nat)
  | [] => some (u, [])
  | b :: bs => do
    let (u, codePoints) ← feedByte u b
    let (u, rest) ← feed u bs
    pure (u, codePoints ++ rest)

variable {u v : PartialUtf8} {bs : List UInt8} {cps : List Nat} {l r : List UInt8}

theorem feed_cons {b : UInt8} :
    feed u (b :: bs) = some (v, cps) ↔ ∃ u₁ c₁ c₂, feedByte u b = some (u₁, c₁) ∧
      feed u₁ bs = some (v, c₂) ∧ cps = c₁ ++ c₂ := by
  simp only [feed, Option.bind_eq_bind, Option.bind_eq_some_iff, Prod.exists, Option.pure_def,
    Option.some.injEq, Prod.mk.injEq]
  constructor
  · rintro ⟨u₁, c₁, h1, v', c₂, h2, rfl, rfl⟩
    exact ⟨u₁, c₁, c₂, h1, h2, rfl⟩
  · rintro ⟨u₁, c₁, c₂, h1, h2, rfl⟩
    exact ⟨u₁, c₁, h1, v, c₂, h2, rfl, rfl⟩

theorem feed_append {xs ys : List UInt8} :
    feed u (xs ++ ys) = some (v, cps) ↔ ∃ u₁ c₁ c₂, feed u xs = some (u₁, c₁) ∧
      feed u₁ ys = some (v, c₂) ∧ cps = c₁ ++ c₂ := by
  induction xs generalizing u cps with
  | nil => simp [feed]
  | cons b xs ih =>
    rw [cons_append, feed_cons]
    constructor
    · rintro ⟨u₁, c₁, c₂, h1, h2, rfl⟩
      obtain ⟨u2, c3, c4, h3, h4, rfl⟩ := ih.mp h2
      exact ⟨u2, c₁ ++ c3, c4, feed_cons.mpr ⟨u₁, c₁, c3, h1, h3, rfl⟩, h4, (append_assoc ..).symm⟩
    · rintro ⟨u2, c3, c4, h3, h4, rfl⟩
      obtain ⟨u₁, c₁, c₂, h1, h2, rfl⟩ := feed_cons.mp h3
      exact ⟨u₁, c₁, c₂ ++ c4, h1, ih.mpr ⟨u2, c₂, c4, h2, h4, rfl⟩, append_assoc ..⟩

/-! ## `decode_utf8` -/

/-- The second loop goes byte by byte. -/
theorem decodeLoop_of_feed (h : feed u bs = some (v, cps)) (acc : List Nat) :
    decodeLoop bs u.value u.nRemain acc = (acc ++ cps ++ [0], v) := by
  induction bs generalizing u acc cps with
  | nil =>
    cases h
    simp [decodeLoop]
  | cons b bs ih =>
    obtain ⟨u1, c1, c2, h1, h2, rfl⟩ := feed_cons.mp h
    unfold feedByte at h1
    unfold decodeLoop
    dsimp only at h1 ⊢
    split at h1
    · rename_i hn
      rw [if_pos hn]
      split at h1
      · cases h1
      · cases h1
        rw [ih h2]
        split <;> simp
    · rename_i hn
      rw [if_neg hn]
      split at h1
      · cases h1
      · rename_i hlen
        cases h1
        rw [if_neg hlen, ih h2]
        split <;> simp

/-- The first loop ends where the sequence of before ends, or with the bytes. -/
theorem continueDecode_of_feed (h : feed u bs = some (v, cps)) :
    ∃ rest u₁ c₁ c₂, continueDecode bs u.value u.nRemain = some (rest, u₁.value, u₁.nRemain) ∧
      feed u₁ rest = some (v, c₂) ∧ cps = c₁ ++ c₂ ∧
      c₁ = if u.nRemain > 0 ∧ u₁.nRemain = 0 then [u₁.value] else [] := by
  induction bs generalizing u cps with
  | nil =>
    refine ⟨[], u, [], cps, rfl, h, rfl, (if_neg ?_).symm⟩
    omega
  | cons b bs ih =>
    by_cases hn : u.nRemain > 0
    · obtain ⟨u₁, c₁, c₂, h₁, h₂, rfl⟩ := feed_cons.mp h
      unfold feedByte at h₁
      rw [if_pos hn] at h₁
      split at h₁
      · cases h₁
      · rename_i hb
        cases h₁
        obtain ⟨rest, u2, c3, c4, hc, hf, rfl, rfl⟩ := ih h₂
        dsimp only at hc ⊢
        refine ⟨rest, u2, _, c4, ?_, hf, (append_assoc ..).symm, ?_⟩
        · rw [continueDecode, if_pos hn, if_neg hb]
          exact hc
        · by_cases h1 : u.nRemain - 1 = 0
          · -- the sequence is complete, and the first loop ends
            have hstop : continueDecode bs ((u.value <<< 6) + (b.toNat &&& 0x3F)) 0 =
                some (bs, (u.value <<< 6) + (b.toNat &&& 0x3F), 0) := by
              cases bs <;> rfl
            rw [h1, hstop] at hc
            simp only [Option.some.injEq, Prod.mk.injEq] at hc
            obtain ⟨-, hval, hrem⟩ := hc
            simp [h1, hn, ← hval, ← hrem]
          · by_cases h2 : u2.nRemain = 0
            · simp [h1, h2, hn, show u.nRemain > 1 by omega]
            · simp [h1, h2]
    · refine ⟨b :: bs, u, [], cps, by rw [continueDecode, if_neg hn], h, rfl, (if_neg ?_).symm⟩
      exact fun hx => hn hx.1

/-- `decode_utf8` on bytes of well-formed UTF-8. -/
theorem decodeUtf8_of_feed (h0 : ∀ b ∈ bs, b ≠ 0) (h : feed u bs = some (v, cps)) :
    decodeUtf8 bs u = (cps ++ [0], v) := by
  have htake : bs.takeWhile (· ≠ 0) = bs := by
    rw [takeWhile_eq_self_iff]
    simpa using h0
  obtain ⟨rest, u1, c1, c2, hc, hf, rfl, rfl⟩ := continueDecode_of_feed h
  unfold decodeUtf8
  rw [htake, hc]
  exact decodeLoop_of_feed hf _

/-! ## The bytes of a character -/

/-- The continuation bytes of a code point. -/
def trailing (v : Nat) : Nat :=
  if v ≤ 0x7f then 0 else if v ≤ 0x7ff then 1 else if v ≤ 0xffff then 2 else 3

/-- The first byte of a code point. -/
def leadByte (v : Nat) : UInt8 :=
  if v ≤ 0x7f then .ofNat v else if v ≤ 0x7ff then .ofNat (v / 64 % 0x20 + 0xc0)
  else if v ≤ 0xffff then .ofNat (v / 4096 % 0x10 + 0xe0) else .ofNat (v / 262144 % 0x08 + 0xf0)

/-- The last `k` continuation bytes of a code point. -/
def contBytes (v : Nat) : Nat → List UInt8
  | 0 => []
  | k + 1 => .ofNat (v / 64 ^ k % 0x40 + 0x80) :: contBytes v k

theorem length_contBytes (v k : Nat) : (contBytes v k).length = k := by
  induction k with
  | zero => rfl
  | succ k ih => rw [contBytes, length_cons, ih]

theorem toNat_lt (c : Char) : c.toNat < 0x110000 := by
  have h : c.toNat.isValidChar := c.valid
  unfold Nat.isValidChar at h
  omega

theorem encode_eq (c : Char) :
    String.utf8EncodeChar c = leadByte c.toNat :: contBytes c.toNat (trailing c.toNat) := by
  unfold String.utf8EncodeChar leadByte trailing
  simp only [Char.toNat]
  split
  · rfl
  · split
    · simp [contBytes]
    · split <;> simp [contBytes]

theorem leadByte_zero : ∀ x < 0x80, utf8Length ((UInt8.ofNat x).toNat >>> 4) = 1 ∧
    (UInt8.ofNat x).toNat &&& 0x7f = x := by decide

theorem leadByte_one : ∀ x < 0x20, utf8Length ((UInt8.ofNat (x + 0xc0)).toNat >>> 4) = 2 ∧
    (UInt8.ofNat (x + 0xc0)).toNat &&& 0x3f = x := by decide

theorem leadByte_two : ∀ x < 0x10, utf8Length ((UInt8.ofNat (x + 0xe0)).toNat >>> 4) = 3 ∧
    (UInt8.ofNat (x + 0xe0)).toNat &&& 0x1f = x := by decide

theorem leadByte_three : ∀ x < 0x08, utf8Length ((UInt8.ofNat (x + 0xf0)).toNat >>> 4) = 4 ∧
    (UInt8.ofNat (x + 0xf0)).toNat &&& 0x0f = x := by decide

theorem contByte : ∀ x < 0x40, (UInt8.ofNat (x + 0x80)).toNat >>> 6 = 2 ∧
    (UInt8.ofNat (x + 0x80)).toNat &&& 0x3F = x := by decide

variable {u : PartialUtf8}

theorem feedByte_of_length (hu : u.nRemain ≤ 0) {b : UInt8} {k v : Nat}
    (hlen : utf8Length (b.toNat >>> 4) = k + 1) (hv : b.toNat &&& ((1 <<< (7 - k)) - 1) = v) :
    feedByte u b = some (⟨v, k⟩, if k = 0 then [v] else []) := by
  unfold feedByte
  rw [if_neg (by omega), hlen]
  simp [hv]

/-- The first byte of a character. -/
theorem feedByte_lead (hu : u.nRemain ≤ 0) {v : Nat} (hv : v < 0x110000) : feedByte u (leadByte v) =
      some (⟨v / 64 ^ trailing v, trailing v⟩, if trailing v = 0 then [v] else []) := by
  unfold leadByte trailing
  split
  · obtain ⟨h1, h2⟩ := leadByte_zero v (by omega)
    simpa using feedByte_of_length (k := 0) hu h1 h2
  · split
    · have hx : v / 64 < 0x20 := by omega
      obtain ⟨h1, h2⟩ := leadByte_one (v / 64) hx
      rw [Nat.mod_eq_of_lt hx]
      exact feedByte_of_length (k := 1) hu h1 h2
    · split
      · have hx : v / 4096 < 0x10 := by omega
        obtain ⟨h1, h2⟩ := leadByte_two (v / 4096) hx
        rw [Nat.mod_eq_of_lt hx]
        exact feedByte_of_length (k := 2) hu h1 h2
      · have hx : v / 262144 < 0x08 := by omega
        obtain ⟨h1, h2⟩ := leadByte_three (v / 262144) hx
        rw [Nat.mod_eq_of_lt hx]
        exact feedByte_of_length (k := 3) hu h1 h2

/-- The first of `k + 1` continuation bytes. -/
theorem feedByte_cont (v k : Nat) :
    feedByte ⟨v / 64 ^ (k + 1), (k + 1 : Nat)⟩ (.ofNat (v / 64 ^ k % 0x40 + 0x80)) =
      some (⟨v / 64 ^ k, k⟩, if k = 0 then [v] else []) := by
  obtain ⟨h1, h2⟩ := contByte (v / 64 ^ k % 0x40) (Nat.mod_lt _ (by decide))
  have hval : v / 64 ^ (k + 1) * 2 ^ 6 + v / 64 ^ k % 64 = v / 64 ^ k := by
    rw [pow_succ, ← Nat.div_div_eq_div_mul]
    omega
  unfold feedByte
  dsimp only
  rw [if_pos (by omega), if_neg (not_not.mpr h1), h2, Nat.shiftLeft_eq, hval]
  have hrem : ((k + 1 : Nat) : Int) - 1 = k := by omega
  rw [hrem]
  by_cases hk : k = 0
  · simp [hk]
  · simp [hk]

/-- A part of the continuation bytes leaves the rest. -/
theorem feed_contBytes {v k : Nat} (e : contBytes v k = l ++ r) :
    feed ⟨v / 64 ^ k, k⟩ l = some (⟨v / 64 ^ r.length, r.length⟩,
      if l ≠ [] ∧ r = [] then [v] else []) := by
  induction k generalizing l with
  | zero =>
    obtain ⟨rfl, rfl⟩ := append_eq_nil_iff.mp e.symm
    rfl
  | succ k ih =>
    cases l with
    | nil =>
      have hlen : r.length = k + 1 := by
        rw [nil_append] at e
        rw [← e, length_contBytes]
      simp [feed, hlen]
    | cons b l =>
      obtain ⟨hb, e'⟩ := List.cons.inj e
      change contBytes v k = l ++ r at e'
      rw [← hb]
      refine feed_cons.mpr ⟨_, _, _, feedByte_cont v k, ih e', ?_⟩
      cases k with
      | zero =>
        obtain ⟨rfl, rfl⟩ := append_eq_nil_iff.mp e'.symm
        rfl
      | succ k =>
        by_cases hr : r = []
        · have hl : l ≠ [] := by
            rintro rfl
            rw [hr] at e'
            cases e'
          simp [hr, hl]
        · simp [hr]

/-- A part of the bytes of a character leaves the rest. -/
theorem feed_encode_append (hu : u.nRemain ≤ 0) {c : Char}
    (e : String.utf8EncodeChar c = l ++ r) (hl : l ≠ []) :
    feed u l = some (⟨c.toNat / 64 ^ r.length, r.length⟩, if r = [] then [c.toNat] else []) := by
  obtain ⟨b, l, rfl⟩ := exists_cons_of_ne_nil hl
  rw [encode_eq] at e
  obtain ⟨hb, e'⟩ := List.cons.inj e
  change contBytes c.toNat (trailing c.toNat) = l ++ r at e'
  rw [← hb]
  refine feed_cons.mpr ⟨_, _, _, feedByte_lead hu (toNat_lt c), feed_contBytes e', ?_⟩
  have hlen := congrArg List.length e'
  rw [length_contBytes, length_append] at hlen
  by_cases h0 : trailing c.toNat = 0
  · have hlnil : l = [] := length_eq_zero_iff.mp (by omega)
    have hrnil : r = [] := length_eq_zero_iff.mp (by omega)
    simp [h0, hlnil, hrnil]
  · by_cases hr : r = []
    · have hlne : l ≠ [] := by
        rintro rfl
        exact h0 (by simpa [hr] using hlen)
      simp [h0, hr, hlne]
    · simp [h0, hr]

/-- The bytes of characters give their code points. -/
theorem feed_encode (hu : u.nRemain = 0) (cs : List Char) :
    ∃ v, feed u (cs.flatMap String.utf8EncodeChar) = some (⟨v, 0⟩, cs.map Char.toNat) := by
  induction cs generalizing u with
  | nil => exact ⟨u.value, by rw [← hu]; rfl⟩
  | cons c cs ih =>
    have hc := feed_encode_append hu.le (append_nil (String.utf8EncodeChar c)).symm
      String.utf8EncodeChar_ne_nil
    obtain ⟨v, hv⟩ := @ih ⟨c.toNat / 64 ^ 0, 0⟩ rfl
    exact ⟨v, feed_append.mpr ⟨_, _, _, hc, hv, rfl⟩⟩

end BeeLlama.Grammar
