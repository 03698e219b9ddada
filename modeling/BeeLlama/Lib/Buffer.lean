import Mathlib.Data.List.Basic

/-!
# Writes into a buffer of fixed length

* `writeAt`: one write, which has no result outside the buffer.
* `writeFrom_eq`: items written one after another replace just their places.
* `writeFrom_none`: if they do not fit, some write falls outside.
* `slot_writeFrom`: a buffer of slots of one length, of which one is written.
-/

namespace BeeLlama

open List

variable {α : Type}

/-- One write; nothing if the place is outside the buffer. -/
def writeAt (buf : List α) (i : Nat) (x : α) : Option (List α) :=
  if i < buf.length then some (buf.set i x) else none

/-- The items go to the places from `i` on, one after another. -/
def writeFrom (buf : List α) (i : Nat) : List α → Option (List α)
  | [] => some buf
  | x :: xs => (writeAt buf i x).bind fun buf => writeFrom buf (i + 1) xs

@[simp] theorem writeFrom_nil (buf : List α) (i : Nat) : writeFrom buf i [] = some buf := rfl

theorem writeFrom_cons {buf : List α} {i : Nat} (h : i < buf.length) (x : α) (xs : List α) :
    writeFrom buf i (x :: xs) = writeFrom (buf.set i x) (i + 1) xs := by
  rw [writeFrom, writeAt, if_pos h, Option.bind_some]

/-- Items that fit replace their places and leave the rest. -/
theorem writeFrom_append (pre old post : List α) {xs : List α} (h : old.length = xs.length) :
    writeFrom (pre ++ old ++ post) pre.length xs = some (pre ++ xs ++ post) := by
  induction xs generalizing pre old with
  | nil => rw [length_eq_zero_iff.mp h, writeFrom_nil]
  | cons x xs ih =>
    obtain ⟨y, old, rfl⟩ := exists_cons_of_length_eq_add_one h
    have hlt : pre.length < (pre ++ y :: old ++ post).length := by
      simp only [length_append, length_cons]
      omega
    have hset : (pre ++ y :: old ++ post).set pre.length x = (pre ++ [x]) ++ old ++ post := by
      simp
    rw [writeFrom_cons hlt, hset, show pre.length + 1 = (pre ++ [x]).length by simp,
      ih (pre ++ [x]) old (Nat.succ.inj h)]
    simp

theorem writeFrom_eq {buf xs : List α} {i : Nat} (h : i + xs.length ≤ buf.length) :
    writeFrom buf i xs = some (buf.take i ++ xs ++ buf.drop (i + xs.length)) := by
  have hsplit : buf.take i ++ (buf.drop i).take xs.length ++ buf.drop (i + xs.length) = buf := by
    rw [← drop_drop, append_assoc, take_append_drop, take_append_drop]
  have hlen : (buf.take i).length = i := by
    rw [length_take]
    omega
  have hold : ((buf.drop i).take xs.length).length = xs.length := by
    rw [length_take, length_drop]
    omega
  have := writeFrom_append (buf.take i) _ (buf.drop (i + xs.length)) hold
  rwa [hsplit, hlen] at this

/-- Items that do not fit have no place. -/
theorem writeFrom_none {buf xs : List α} {i : Nat} (hx : xs ≠ [])
    (h : buf.length < i + xs.length) : writeFrom buf i xs = none := by
  induction xs generalizing buf i with
  | nil => exact absurd rfl hx
  | cons x xs ih =>
    by_cases hi : i < buf.length
    · rw [writeFrom_cons hi]
      rw [length_cons] at h
      refine ih (fun hxs => ?_) (by rw [length_set]; omega)
      rw [hxs, length_nil] at h
      omega
    · rw [writeFrom, writeAt, if_neg hi, Option.bind_none]

/-! ## Slots -/

/-- Slot `i` of a buffer of slots of `len` items. -/
def slot (buf : List α) (len i : Nat) : List α := (buf.drop (i * len)).take len

section Slots

variable {buf xs : List α} {len i : Nat}

theorem slot_length (h : (i + 1) * len ≤ buf.length) : (slot buf len i).length = len := by
  rw [Nat.succ_mul] at h
  rw [slot, length_take, length_drop]
  omega

theorem slot_replicate (x : α) {n : Nat} (h : (i + 1) * len ≤ n) :
    slot (List.replicate n x) len i = List.replicate len x := by
  rw [Nat.succ_mul] at h
  rw [slot, drop_replicate, take_replicate, Nat.min_eq_left (by omega)]

/-- A slot is written, the others stay. -/
theorem slot_writeFrom (hx : xs.length = len) (h : (i + 1) * len ≤ buf.length) :
    ∃ buf', writeFrom buf (i * len) xs = some buf' ∧ buf'.length = buf.length ∧
      slot buf' len i = xs ∧ ∀ j, j ≠ i → slot buf' len j = slot buf len j := by
  rw [Nat.succ_mul] at h
  refine ⟨_, writeFrom_eq (by omega), ?_, ?_, fun j hj => ?_⟩
  · simp only [length_append, length_take, length_drop]
    omega
  · have htake : (buf.take (i * len)).length = i * len := by
      rw [length_take]
      omega
    rw [slot, append_assoc, drop_append_of_le_length (by omega),
      drop_of_length_le (by omega), nil_append,
      take_append_of_le_length (by omega), take_of_length_le (by omega)]
  · refine ext_getElem? fun r => ?_
    rcases Nat.lt_or_ge r len with hr | hr
    · have hne : j * len + r < i * len ∨ i * len + len ≤ j * len + r := by
        rcases Nat.lt_or_gt_of_ne hj with hlt | hgt
        · have := Nat.mul_le_mul_right len hlt
          rw [Nat.succ_mul] at this
          omega
        · have := Nat.mul_le_mul_right len hgt
          rw [Nat.succ_mul] at this
          omega
      rw [slot, slot, getElem?_take_of_lt hr, getElem?_take_of_lt hr, getElem?_drop, getElem?_drop]
      rcases hne with hlt | hge
      · rw [append_assoc,
          getElem?_append_left (by rw [length_take]; omega), getElem?_take_of_lt hlt]
      · have hlen : (buf.take (i * len) ++ xs).length = i * len + len := by
          rw [length_append, length_take]
          omega
        rw [getElem?_append_right (by omega), getElem?_drop, hlen, hx]
        congr 1
        omega
    · rw [getElem?_eq_none (by rw [slot, length_take]; omega),
        getElem?_eq_none (by rw [slot, length_take]; omega)]

end Slots

end BeeLlama
