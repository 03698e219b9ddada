import BeeLlama.Lib.Buffer
import Mathlib.Algebra.GroupWithZero.Nat
import Mathlib.Data.List.GetD

/-!
# Packed tiles (`llama_kvarn_pack_bits`, `llama_kvarn_make_layout`)

A tile holds the values of `K` and `V` packed with 2 to 8 bits each, least significant bit first,
and the scales as `uint16_t` behind them. `packed_bytes` takes the number of values as an `int`.

* `orBit_spec`: one step of the inner loop sets one bit.
* `packBits_spec`: the bits of the buffer after packing.
* `unpackBitsValue_eq`: what the reading loop collects.
* `makeLayout_sections`: the sections of a tile, if the number of values is an `int`.
* `kvarnPack_iff`: the whole, if and only if that is so.
-/

namespace BeeLlama

open List Nat

/-- `llama_kvarn_valid_bits`. -/
def llamaKvarnValidBits (bits : Nat) : Bool :=
  bits == 2 || bits == 3 || bits == 4 || bits == 5 || bits == 6 || bits == 8

/-- The largest `int`. -/
def INT_MAX : Nat := 2 ^ 31 - 1

/-- `llama_kvarn_packed_bytes`. -/
def llamaKvarnPackedBytes (nValues bits : Nat) : Nat := (nValues * bits + 7) / 8

/-- `llama_kvarn_align_up`. -/
def llamaKvarnAlignUp (value alignment : Nat) : Nat :=
  (value + alignment - 1) / alignment * alignment

/-- `dst[i] |= x`. -/
def orAt (dst : List (BitVec 8)) (i : Nat) (x : BitVec 8) : Option (List (BitVec 8)) :=
  dst[i]?.bind fun y => writeAt dst i (y ||| x)

/-- One round of the inner loop of `llama_kvarn_pack_bits`. -/
def orBit (value : BitVec 8) (bitOffset : Nat) (dst : List (BitVec 8)) (bit : Nat) :
    Option (List (BitVec 8)) :=
  let dstBit := bitOffset + bit
  orAt dst (dstBit / 8) (((value >>> bit) &&& 1#8) <<< (dstBit % 8))

/-- The outer loop of `llama_kvarn_pack_bits`, from value `i` on. -/
def packFrom (bits : Nat) : Nat → List (BitVec 8) → List (BitVec 8) → Option (List (BitVec 8))
  | _, [], dst => some dst
  | i, x :: values, dst =>
    let value := x &&& BitVec.ofNat 8 (2 ^ bits - 1)
    ((List.range bits).foldlM (orBit value (i * bits)) dst).bind (packFrom bits (i + 1) values)

/-- `llama_kvarn_pack_bits`: nothing if a write falls outside of `dst`. -/
def llamaKvarnPackBits (values : List (BitVec 8)) (bits : Nat) (dst : List (BitVec 8)) :
    Option (List (BitVec 8)) :=
  (writeFrom dst 0 (List.replicate (llamaKvarnPackedBytes values.length bits) 0#8)).bind
    (packFrom bits 0 values)

/-- One round of the loop of `llama_kvarn_unpack_bits_value`. -/
def takeBit (src : List (BitVec 8)) (bitOffset : Nat) (value : BitVec 8) (bit : Nat) :
    Option (BitVec 8) :=
  let srcBit := bitOffset + bit
  src[srcBit / 8]?.map fun (x : BitVec 8) => value ||| (((x >>> (srcBit % 8)) &&& 1#8) <<< bit)

/-- `llama_kvarn_unpack_bits_value`: nothing if a read falls outside of `src`. -/
def llamaKvarnUnpackBitsValue (src : List (BitVec 8)) (index bits : Nat) : Option (BitVec 8) :=
  (List.range bits).foldlM (takeBit src (index * bits)) 0#8

/-- `llama_kvarn_tile_layout`. -/
structure TileLayout where
  kPayloadOff : Nat
  vPayloadOff : Nat
  kSColOff : Nat
  kZpOff : Nat
  kSRowOff : Nat
  vSColOff : Nat
  vSRowOff : Nat
  vZpOff : Nat
  kPayloadBytes : Nat
  vPayloadBytes : Nat
  tileBytes : Nat
  deriving DecidableEq, Repr

/-- The product of two numbers as an `int`; nothing if it overflows. -/
def intMul (a b : Nat) : Option Nat := if a * b ≤ INT_MAX then some (a * b) else none

/-- `llama_kvarn_make_layout`. -/
def llamaKvarnMakeLayout (headDim group keyBits valueBits : Nat) : Option TileLayout := do
  let kValues ← intMul headDim group
  let kPayloadBytes := llamaKvarnPackedBytes kValues keyBits
  let kSColOff := kPayloadBytes
  let kZpOff := kSColOff + headDim * 2
  let kSRowOff := kZpOff + headDim * 2
  let vPayloadOff := kSRowOff + group * 2
  let vValues ← intMul group headDim
  let vPayloadBytes := llamaKvarnPackedBytes vValues valueBits
  let vSColOff := vPayloadOff + vPayloadBytes
  let vSRowOff := vSColOff + headDim * 2
  let vZpOff := vSRowOff + group * 2
  let off := vZpOff + group * 2
  return { kPayloadOff := 0, vPayloadOff, kSColOff, kZpOff, kSRowOff, vSColOff, vSRowOff, vZpOff,
           kPayloadBytes, vPayloadBytes, tileBytes := llamaKvarnAlignUp off 8 }

/-! ## Bits of a buffer -/

/-- Bit `k` of the buffer. -/
def bufferBit (buf : List (BitVec 8)) (k : Nat) : Bool := (buf.getD (k / 8) 0#8).getLsbD (k % 8)

section Bits

variable {dst dst' : List (BitVec 8)} {value : BitVec 8} {k : Nat}

theorem getLsbD_bit (x : BitVec 8) (bit s t : Nat) (hs : s < 8) (ht : t < 8) :
    (((x >>> bit) &&& 1#8) <<< s).getLsbD t = (decide (t = s) && x.getLsbD bit) := by
  rw [BitVec.getLsbD_shiftLeft, BitVec.getLsbD_and, BitVec.getLsbD_ushiftRight, BitVec.getLsbD_one]
  rcases Nat.lt_trichotomy t s with h | rfl | h
  · simp [h, Nat.ne_of_lt h]
  · simp [ht]
  · have h0 : t - s ≠ 0 := by omega
    simp [h0, Nat.ne_of_gt h]

/-- The inner loop sets one bit. -/
theorem orBit_spec {off bit : Nat} (h : (off + bit) / 8 < dst.length) :
    ∃ dst', orBit value off dst bit = some dst' ∧ dst'.length = dst.length ∧
      ∀ k, bufferBit dst' k =
        (bufferBit dst k || (decide (k = off + bit) && value.getLsbD bit)) := by
  obtain ⟨y, hy⟩ : ∃ y, dst[(off + bit) / 8]? = some y := ⟨_, getElem?_eq_getElem h⟩
  refine ⟨dst.set ((off + bit) / 8) (y ||| ((value >>> bit) &&& 1#8) <<< ((off + bit) % 8)), ?_,
    length_set, fun k => ?_⟩
  · simp only [orBit, orAt, hy, Option.bind_some, writeAt, if_pos h]
  · unfold bufferBit
    by_cases hk : k / 8 = (off + bit) / 8
    · have hget : dst.getD (k / 8) 0#8 = y := by rw [hk, getD_eq_getElem?_getD, hy]; rfl
      have hmod : ∀ n, n % 8 < 8 := fun n => mod_lt n (by decide)
      rw [hget, hk, getD_eq_getElem?_getD, getElem?_set_self h, Option.getD_some,
        BitVec.getLsbD_or, getLsbD_bit _ _ _ _ (hmod _) (hmod _)]
      congr 2
      exact decide_eq_decide.mpr ⟨by omega, by rintro rfl; rfl⟩
    · have hne : ¬k = off + bit := fun h => hk (h ▸ rfl)
      rw [getD_eq_getElem?_getD, getElem?_set_ne (Ne.symm hk),
        getD_eq_getElem?_getD, decide_eq_false hne, Bool.false_and, Bool.or_false]

/-- The rounds of the inner loop set the bits of the value. -/
theorem orBits_spec {off : Nat} {l : List Nat} (h : ∀ bit ∈ l, (off + bit) / 8 < dst.length) :
    ∃ dst', l.foldlM (orBit value off) dst = some dst' ∧ dst'.length = dst.length ∧
      ∀ k, bufferBit dst' k =
        (bufferBit dst k || l.any fun bit => decide (k = off + bit) && value.getLsbD bit) := by
  induction l generalizing dst with
  | nil => exact ⟨dst, rfl, rfl, fun k => by simp⟩
  | cons bit l ih =>
    obtain ⟨hbit, hl⟩ := forall_mem_cons.mp h
    obtain ⟨dst1, h1, hlen1, hget1⟩ := @orBit_spec dst value off bit hbit
    obtain ⟨dst2, h2, hlen2, hget2⟩ := @ih dst1 (by rwa [hlen1])
    refine ⟨dst2, by rw [foldlM_cons, h1]; exact h2, hlen2.trans hlen1, fun k => ?_⟩
    rw [hget2, hget1, any_cons, Bool.or_assoc]

/-- A value goes to its `bits` bits. -/
theorem orValue_spec {off bits : Nat} (h : off + bits ≤ 8 * dst.length) :
    ∃ dst', (List.range bits).foldlM (orBit value off) dst = some dst' ∧
      dst'.length = dst.length ∧
      ∀ k, bufferBit dst' k = (bufferBit dst k ||
        (decide (off ≤ k ∧ k < off + bits) && value.getLsbD (k - off))) := by
  obtain ⟨dst', hd, hlen, hget⟩ := @orBits_spec dst value off (List.range bits) fun bit hbit => by
    have := mem_range.mp hbit
    omega
  refine ⟨dst', hd, hlen, fun k => ?_⟩
  rw [hget]
  congr 1
  rw [Bool.eq_iff_iff, any_eq_true]
  simp only [mem_range, Bool.and_eq_true, decide_eq_true_iff]
  constructor
  · rintro ⟨bit, hbit, rfl, hv⟩
    exact ⟨⟨by omega, by omega⟩, by rwa [Nat.add_sub_cancel_left]⟩
  · rintro ⟨⟨h1, h2⟩, hv⟩
    exact ⟨k - off, by omega, by omega, hv⟩

/-- Bit `k` of the values written one after another with `bits` bits each. -/
def streamBit (values : List (BitVec 8)) (bits k : Nat) : Bool :=
  decide (k < values.length * bits) && (values.getD (k / bits) 0#8).getLsbD (k % bits)

theorem streamBit_cons {bits : Nat} (hb : 0 < bits) (x : BitVec 8) (values : List (BitVec 8)) :
    streamBit (x :: values) bits k =
      if k < bits then x.getLsbD k else streamBit values bits (k - bits) := by
  unfold streamBit
  rw [length_cons, succ_mul]
  split
  · next hlt =>
    rw [div_eq_of_lt hlt, mod_eq_of_lt hlt, getD_cons_zero,
      decide_eq_true (by omega), Bool.true_and]
  · next hge =>
    obtain ⟨j, rfl⟩ := Nat.exists_eq_add_of_le (Nat.not_lt.mp hge)
    rw [Nat.add_sub_cancel_left, add_div_left _ hb, add_mod_left, getD_cons_succ]
    congr 1
    exact decide_eq_decide.mpr (by omega)

/-- The mask keeps the lowest bits. -/
theorem getLsbD_mask (x : BitVec 8) {bits t : Nat} (ht : t < bits) (hb : bits ≤ 8) :
    (x &&& BitVec.ofNat 8 (2 ^ bits - 1)).getLsbD t = x.getLsbD t := by
  rw [BitVec.getLsbD_and, BitVec.getLsbD_ofNat, testBit_two_pow_sub_one,
    decide_eq_true ht, decide_eq_true (by omega), Bool.and_self, Bool.and_true]

/-- The outer loop writes the stream behind the values before it. -/
theorem packFrom_spec {bits : Nat} (hb : 0 < bits) (hb8 : bits ≤ 8) (values : List (BitVec 8))
    {i : Nat} (h : (i + values.length) * bits ≤ 8 * dst.length) :
    ∃ dst', packFrom bits i values dst = some dst' ∧ dst'.length = dst.length ∧
      ∀ k, bufferBit dst' k = (bufferBit dst k ||
        (decide (i * bits ≤ k) && streamBit values bits (k - i * bits))) := by
  induction values generalizing i dst with
  | nil => exact ⟨dst, rfl, rfl, fun k => by simp [streamBit]⟩
  | cons x values ih =>
    rw [length_cons] at h
    have hmul : (i + (values.length + 1)) * bits = i * bits + bits + values.length * bits := by
      rw [Nat.add_mul, Nat.add_mul, Nat.one_mul]
      omega
    have hmul' : (i + 1 + values.length) * bits = i * bits + bits + values.length * bits := by
      rw [Nat.add_mul, Nat.add_mul, Nat.one_mul]
    obtain ⟨dst1, h1, hlen1, hget1⟩ :=
      @orValue_spec dst (x &&& BitVec.ofNat 8 (2 ^ bits - 1)) (i * bits) bits (by omega)
    obtain ⟨dst2, h2, hlen2, hget2⟩ := @ih dst1 (i + 1) (by omega)
    refine ⟨dst2, by rw [packFrom, h1]; exact h2, hlen2.trans hlen1, fun k => ?_⟩
    rw [hget2, hget1, streamBit_cons hb, succ_mul, Bool.or_assoc]
    congr 1
    by_cases hlow : i * bits ≤ k
    · by_cases hlt : k < i * bits + bits
      · rw [decide_eq_true (show _ ∧ _ from ⟨hlow, hlt⟩), decide_eq_true hlow,
          decide_eq_false (by omega), if_pos (by omega), getLsbD_mask x (by omega) hb8]
        simp
      · rw [decide_eq_false (by omega), decide_eq_true hlow, decide_eq_true (by omega),
          if_neg (by omega), Nat.sub_sub]
        simp
    · rw [decide_eq_false (by omega), decide_eq_false hlow, decide_eq_false (by omega)]
      simp

/-- Packing writes the stream and then zeros into the packed bytes, and nothing behind them. -/
theorem packBits_spec {bits : Nat} (hb : 0 < bits) (hb8 : bits ≤ 8) (values : List (BitVec 8))
    (h : llamaKvarnPackedBytes values.length bits ≤ dst.length) :
    ∃ dst', llamaKvarnPackBits values bits dst = some dst' ∧ dst'.length = dst.length ∧
      ∀ k, bufferBit dst' k = if k < 8 * llamaKvarnPackedBytes values.length bits then
        streamBit values bits k else bufferBit dst k := by
  have hroom : values.length * bits ≤ 8 * llamaKvarnPackedBytes values.length bits := by
    unfold llamaKvarnPackedBytes
    omega
  generalize hp : llamaKvarnPackedBytes values.length bits = p at h hroom ⊢
  have hset : writeFrom dst 0 (List.replicate p 0#8) =
      some (List.replicate p 0#8 ++ dst.drop p) := by
    rw [writeFrom_eq (by rw [length_replicate]; omega)]
    simp
  have hlen : (List.replicate p 0#8 ++ dst.drop p).length = dst.length := by
    rw [length_append, length_replicate, length_drop]
    omega
  have hzero : ∀ k, bufferBit (List.replicate p 0#8 ++ dst.drop p) k =
      if k < 8 * p then false else bufferBit dst k := by
    intro k
    unfold bufferBit
    split
    · next hk =>
      rw [getD_append _ _ _ _ (by rw [length_replicate]; omega),
        getD_replicate, BitVec.getLsbD_zero]
      omega
    · next hk =>
      rw [getD_append_right _ _ _ _ (by rw [length_replicate]; omega),
        length_replicate, getD_eq_getElem?_getD, getElem?_drop,
        Nat.add_sub_cancel' (by omega), ← getD_eq_getElem?_getD]
  obtain ⟨dst', hd, hlen', hget⟩ :=
    @packFrom_spec (List.replicate p 0#8 ++ dst.drop p) bits hb hb8 values 0 (by
      rw [Nat.zero_add, hlen]
      omega)
  refine ⟨dst', by rw [llamaKvarnPackBits, hp, hset]; exact hd, hlen'.trans hlen, fun k => ?_⟩
  rw [hget, hzero, Nat.zero_mul, Nat.sub_zero, decide_eq_true (Nat.zero_le k), Bool.true_and]
  split
  · exact Bool.false_or _
  · next hk =>
    rw [streamBit, decide_eq_false (by omega), Bool.false_and, Bool.or_false]

/-! ## Reading -/

theorem takeBits_spec {src : List (BitVec 8)} {off : Nat} {l : List Nat}
    (h : ∀ bit ∈ l, (off + bit) / 8 < src.length) (h8 : ∀ bit ∈ l, bit < 8) (x : BitVec 8) :
    ∃ y, l.foldlM (takeBit src off) x = some y ∧
      ∀ t < 8, y.getLsbD t =
        (x.getLsbD t || l.any fun bit => decide (t = bit) && bufferBit src (off + bit)) := by
  induction l generalizing x with
  | nil => exact ⟨x, rfl, fun t _ => by simp⟩
  | cons bit l ih =>
    obtain ⟨hbit, hl⟩ := forall_mem_cons.mp h
    obtain ⟨hbit8, hl8⟩ := forall_mem_cons.mp h8
    obtain ⟨z, hz⟩ : ∃ z, src[(off + bit) / 8]? = some z := ⟨_, getElem?_eq_getElem hbit⟩
    have hget : bufferBit src (off + bit) = z.getLsbD ((off + bit) % 8) := by
      rw [bufferBit, getD_eq_getElem?_getD, hz, Option.getD_some]
    obtain ⟨y, hy, hbits⟩ := ih hl hl8 (x ||| ((z >>> ((off + bit) % 8)) &&& 1#8) <<< bit)
    refine ⟨y, ?_, fun t ht => ?_⟩
    · simp only [foldlM_cons, takeBit, hz, Option.map_some]
      exact hy
    · rw [hbits t ht, BitVec.getLsbD_or, getLsbD_bit _ _ _ _ hbit8 ht, any_cons, hget,
        Bool.or_assoc]

/-- The loop collects the bits of the value. -/
theorem unpackBitsValue_eq {src : List (BitVec 8)} {index bits : Nat} (hb8 : bits ≤ 8)
    (h : (index + 1) * bits ≤ 8 * src.length) :
    ∃ y, llamaKvarnUnpackBitsValue src index bits = some y ∧
      ∀ t < 8, y.getLsbD t = (decide (t < bits) && bufferBit src (index * bits + t)) := by
  rw [succ_mul] at h
  have hroom : ∀ bit ∈ List.range bits, (index * bits + bit) / 8 < src.length := fun bit hm => by
    have := mem_range.mp hm
    omega
  have hrange : ∀ bit ∈ List.range bits, bit < 8 := fun bit hm =>
    Nat.lt_of_lt_of_le (mem_range.mp hm) hb8
  obtain ⟨y, hy, hbits⟩ := takeBits_spec hroom hrange 0#8
  refine ⟨y, hy, fun t ht => ?_⟩
  rw [hbits t ht, BitVec.getLsbD_zero, Bool.false_or, Bool.eq_iff_iff, any_eq_true]
  simp only [mem_range, Bool.and_eq_true, decide_eq_true_iff]
  constructor
  · rintro ⟨bit, hbit, rfl, hv⟩
    exact ⟨hbit, hv⟩
  · rintro ⟨hlt, hv⟩
    exact ⟨t, hlt, rfl, hv⟩

end Bits

/-! ## The round trip -/

/-- What packing and reading `values` with `bits` bits do to a buffer with room for them. -/
def PackRoundTrip (values : List (BitVec 8)) (bits : Nat) (dst : List (BitVec 8)) : Prop :=
  let packed := llamaKvarnPackedBytes values.length bits
  ∃ dst', llamaKvarnPackBits values bits dst = some dst' ∧ dst'.length = dst.length ∧
    (∀ m, packed ≤ m → dst'[m]? = dst[m]?) ∧
    (∀ k, values.length * bits ≤ k → k < 8 * packed → bufferBit dst' k = false) ∧
    ∀ i x, values[i]? = some x → ∃ y, llamaKvarnUnpackBitsValue dst' i bits = some y ∧
      y.toNat = x.toNat % 2 ^ bits

theorem validBits_bounds {bits : Nat} (h : llamaKvarnValidBits bits = true) :
    0 < bits ∧ bits ≤ 8 := by
  simp only [llamaKvarnValidBits, Bool.or_eq_true, beq_iff_eq] at h
  omega

/-- A buffer is determined by its bits. -/
theorem getElem?_eq_of_bits {dst dst' : List (BitVec 8)} (hlen : dst'.length = dst.length) {m : Nat}
    (h : ∀ k, k / 8 = m → bufferBit dst' k = bufferBit dst k) : dst'[m]? = dst[m]? := by
  rcases Nat.lt_or_ge m dst.length with hm | hm
  · rw [getElem?_eq_getElem hm, getElem?_eq_getElem (hlen ▸ hm)]
    congr 1
    refine BitVec.eq_of_getLsbD_eq fun t ht => ?_
    have := h (8 * m + t) (by omega)
    rw [bufferBit, bufferBit, show (8 * m + t) / 8 = m by omega,
      show (8 * m + t) % 8 = t by omega, getD_eq_getElem _ _ (hlen ▸ hm),
      getD_eq_getElem _ _ hm] at this
    exact this
  · rw [getElem?_eq_none hm, getElem?_eq_none (by omega)]

theorem packRoundTrip {bits : Nat} (hbits : llamaKvarnValidBits bits = true)
    (values dst : List (BitVec 8)) (h : llamaKvarnPackedBytes values.length bits ≤ dst.length) :
    PackRoundTrip values bits dst := by
  obtain ⟨hb, hb8⟩ := validBits_bounds hbits
  obtain ⟨dst', hd, hlen, hget⟩ := packBits_spec hb hb8 values h
  have hroom : values.length * bits ≤ 8 * llamaKvarnPackedBytes values.length bits := by
    unfold llamaKvarnPackedBytes
    omega
  refine ⟨dst', hd, hlen, fun m hm => getElem?_eq_of_bits hlen fun k hk => ?_, fun k hk hlt => ?_,
    fun i x hx => ?_⟩
  · rw [hget, if_neg (by omega)]
  · rw [hget, if_pos hlt, streamBit, decide_eq_false (Nat.not_lt.mpr hk), Bool.false_and]
  · obtain ⟨hi, -⟩ := List.getElem?_eq_some_iff.mp hx
    have hle : (i + 1) * bits ≤ values.length * bits := Nat.mul_le_mul_right bits hi
    obtain ⟨y, hy, hbit⟩ := @unpackBitsValue_eq dst' i bits hb8 (by omega)
    refine ⟨y, hy, eq_of_testBit_eq fun t => ?_⟩
    rw [testBit_mod_two_pow]
    rcases Nat.lt_or_ge t 8 with ht | ht
    · rw [← BitVec.getLsbD, hbit t ht]
      by_cases htb : t < bits
      · rw [succ_mul] at hle
        have hdiv : (i * bits + t) / bits = i := by
          rw [Nat.mul_comm, mul_add_div hb, div_eq_of_lt htb, Nat.add_zero]
        have hmod : (i * bits + t) % bits = t := by
          rw [Nat.mul_comm, mul_add_mod, mod_eq_of_lt htb]
        have hlt : i * bits + t < values.length * bits := by omega
        rw [hget, if_pos (by omega), streamBit, hdiv, hmod, decide_eq_true htb, decide_eq_true hlt,
          getD_eq_getElem?_getD, hx, Option.getD_some, Bool.true_and, BitVec.getLsbD]
      · rw [decide_eq_false htb, Bool.false_and, Bool.false_and]
    · have hlt : ∀ z : BitVec 8, z.toNat.testBit t = false := fun z =>
        testBit_lt_two_pow (Nat.lt_of_lt_of_le z.isLt (Nat.pow_le_pow_right (by decide) ht))
      rw [hlt, hlt, Bool.and_false]

/-! ## The sections of a tile -/

/-- The sections of the tile in order, each with its offset and its size: the payload of `K`, its
column scales, zero points and row scales, the payload of `V`, its column scales, row scales and
zero points. -/
def TileLayout.sections (layout : TileLayout) (headDim group : Nat) : List (Nat × Nat) :=
  [(layout.kPayloadOff, layout.kPayloadBytes), (layout.kSColOff, headDim * 2),
    (layout.kZpOff, headDim * 2), (layout.kSRowOff, group * 2),
    (layout.vPayloadOff, layout.vPayloadBytes), (layout.vSColOff, headDim * 2),
    (layout.vSRowOff, group * 2), (layout.vZpOff, group * 2)]

/-- Each section ends before the ones behind it start, the payloads have room for the values, and
the last section ends inside the tile. -/
structure TileLayout.Ordered (layout : TileLayout) (headDim group keyBits valueBits : Nat) :
    Prop where
  apart : (layout.sections headDim group).Pairwise fun a b => a.1 + a.2 ≤ b.1
  inside : ∀ s ∈ layout.sections headDim group, s.1 + s.2 ≤ layout.tileBytes
  keys : layout.kPayloadBytes = llamaKvarnPackedBytes (headDim * group) keyBits
  values : layout.vPayloadBytes = llamaKvarnPackedBytes (headDim * group) valueBits

section Layout

variable {headDim group keyBits valueBits : Nat}

theorem makeLayout_none (h : INT_MAX < headDim * group) :
    llamaKvarnMakeLayout headDim group keyBits valueBits = none := by
  simp only [llamaKvarnMakeLayout, intMul, if_neg (Nat.not_le.mpr h)]
  rfl

theorem makeLayout_sections (h : headDim * group ≤ INT_MAX) :
    ∃ layout, llamaKvarnMakeLayout headDim group keyBits valueBits = some layout ∧
      layout.Ordered headDim group keyBits valueBits := by
  have h' : group * headDim ≤ INT_MAX := by rwa [Nat.mul_comm]
  simp only [llamaKvarnMakeLayout, intMul, if_pos h, if_pos h']
  refine ⟨_, rfl, ?_, ?_, rfl, by rw [Nat.mul_comm headDim]⟩
  · simp only [TileLayout.sections, pairwise_cons, forall_mem_cons, List.Pairwise.nil]
    simp
    omega
  · simp only [TileLayout.sections, forall_mem_cons, llamaKvarnAlignUp]
    simp
    omega

end Layout

/-- Packing round-trips, and the sections of a tile are apart and in order, if and only if the
number of values of a tile is an `int`. -/
theorem kvarnPack_iff {headDim group keyBits valueBits : Nat} :
    ((∀ bits, llamaKvarnValidBits bits = true → ∀ values dst : List (BitVec 8),
        llamaKvarnPackedBytes values.length bits ≤ dst.length → PackRoundTrip values bits dst) ∧
      ∃ layout, llamaKvarnMakeLayout headDim group keyBits valueBits = some layout ∧
        layout.Ordered headDim group keyBits valueBits) ↔
      headDim * group ≤ INT_MAX := by
  constructor
  · rintro ⟨-, layout, hl, -⟩
    by_contra h
    rw [makeLayout_none (Nat.not_le.mp h)] at hl
    cases hl
  · exact fun h => ⟨fun bits hb values dst => packRoundTrip hb values dst, makeLayout_sections h⟩

/-- `65536 * 32768` is not an `int`. -/
theorem not_makeLayout_overflow : ¬∃ layout, llamaKvarnMakeLayout 65536 32768 4 4 = some layout ∧
    layout.Ordered 65536 32768 4 4 := by
  rintro ⟨layout, hl, -⟩
  cases hl

end BeeLlama
