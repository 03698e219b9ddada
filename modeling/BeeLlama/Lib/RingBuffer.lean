import Mathlib.Data.List.DropRight
import Mathlib.Data.List.OfFn

/-!
# Ring buffers

`RingBuffer α cap` keeps the last `cap` items that were pushed. Its items are in `data` from the
place `first` on, and go on at place `0` after the last one.

* `toList_pushBack`: an item goes to the end, and the oldest one is dropped if the buffer is full.
* `front_eq`, `rat_eq`: the oldest item, and the items from the newest one on.
* `rtake_concat`: so the items of a buffer are the last ones that were pushed.
-/

namespace BeeLlama

/-- A buffer of at most `cap` items. -/
structure RingBuffer (α : Type) (cap : Nat) where
  sz : Nat
  first : Nat
  pos : Nat
  data : Vector α cap
  sz_le : sz ≤ cap
  first_le : first < cap ∨ cap = 0
  pos_eq : pos = (first + sz) % cap

namespace RingBuffer

variable {α : Type} {cap : Nat} {b b' : RingBuffer α cap} {x : α}

/-- The constructor. -/
def new (cap : Nat) (x : α) : RingBuffer α cap where
  sz := 0
  first := 0
  pos := 0
  data := Vector.replicate cap x
  sz_le := Nat.zero_le cap
  first_le := (Nat.eq_zero_or_pos cap).symm
  pos_eq := (Nat.zero_mod cap).symm

/-- `clear`, which only resets the status of the buffer. -/
def clear (b : RingBuffer α cap) : RingBuffer α cap where
  sz := 0
  first := 0
  pos := 0
  data := b.data
  sz_le := Nat.zero_le cap
  first_le := (Nat.eq_zero_or_pos cap).symm
  pos_eq := (Nat.zero_mod cap).symm

/-- `front`. -/
def front (b : RingBuffer α cap) : Except String α :=
  if h : b.sz = 0 then .error "ring buffer is empty"
  else
    have : b.first < cap := by have := b.sz_le; have := b.first_le; omega
    .ok b.data[b.first]

/-- `rat`: item `i` from the newest one on. -/
def rat (b : RingBuffer α cap) (i : Nat) : Except String α :=
  if h : b.sz ≤ i then .error "ring buffer: index out of bounds"
  else
    have : (b.first + b.sz - i - 1) % cap < cap := Nat.mod_lt _ (by have := b.sz_le; omega)
    .ok b.data[(b.first + b.sz - i - 1) % cap]

/-- The next place. -/
theorem pos_succ (b : RingBuffer α cap) : (b.pos + 1) % cap =
      ((if b.sz = cap then (b.first + 1) % cap else b.first) +
        (if b.sz = cap then b.sz else b.sz + 1)) % cap := by
  rw [b.pos_eq, Nat.mod_add_mod]
  split
  · rw [Nat.mod_add_mod]
    congr 1
    omega
  · rfl

/-- `push_back`. -/
def pushBack (b : RingBuffer α cap) (x : α) : Except String (RingBuffer α cap) :=
  if h : cap = 0 then .error "ring buffer: capacity is zero"
  else .ok
    { sz := if b.sz = cap then b.sz else b.sz + 1
      first := if b.sz = cap then (b.first + 1) % cap else b.first
      pos := (b.pos + 1) % cap
      data := b.data.set b.pos x (by rw [b.pos_eq]; exact Nat.mod_lt _ (Nat.pos_of_ne_zero h))
      sz_le := by have := b.sz_le; split <;> omega
      first_le := by
        have := b.first_le
        split
        · exact .inl (Nat.mod_lt _ (Nat.pos_of_ne_zero h))
        · exact this
      pos_eq := b.pos_succ }

/-- Item `i` from the oldest one on. -/
def item (b : RingBuffer α cap) (i : Fin b.sz) : α :=
  have : (b.first + i) % cap < cap := Nat.mod_lt _ (by have := b.sz_le; have := i.isLt; omega)
  b.data[(b.first + i) % cap]

/-- `to_vector`: the items from the oldest one on. -/
def toList (b : RingBuffer α cap) : List α := List.ofFn b.item

@[simp] theorem length_toList (b : RingBuffer α cap) : b.toList.length = b.sz := by
  simp [toList]

@[simp] theorem toList_new (cap : Nat) (x : α) : (new cap x).toList = [] := rfl

@[simp] theorem toList_clear (b : RingBuffer α cap) : b.clear.toList = [] := rfl

theorem getElem?_toList (b : RingBuffer α cap) {i : Nat} (h : i < b.sz) :
    b.toList[i]? = some (b.item ⟨i, h⟩) := by
  simp [toList, h]

/-! ## The items -/

/-- A place that is counted from the first one. -/
theorem wrap_eq {f i : Nat} (hf : f < cap) (hi : i ≤ cap) :
    f + i < cap ∧ (f + i) % cap = f + i ∨ cap ≤ f + i ∧ (f + i) % cap + cap = f + i := by
  rcases Nat.lt_or_ge (f + i) cap with h | h
  · exact .inl ⟨h, Nat.mod_eq_of_lt h⟩
  · refine .inr ⟨h, ?_⟩
    rw [Nat.mod_eq_sub_mod h, Nat.mod_eq_of_lt (by omega)]
    omega

theorem front_eq (h : b.sz ≠ 0) : ∃ y, b.front = .ok y ∧ b.toList.head? = some y := by
  have hlt := b.first_le
  have hle := b.sz_le
  refine ⟨b.item ⟨0, Nat.pos_of_ne_zero h⟩, ?_, ?_⟩
  · have hmod : (b.first + 0) % cap = b.first := Nat.mod_eq_of_lt (by omega)
    simp only [front, dif_neg h, item, hmod]
  · rw [List.head?_eq_getElem?, b.getElem?_toList (Nat.pos_of_ne_zero h)]

/-- Item `i` from the newest one on. -/
theorem rat_eq {i : Nat} (h : i < b.sz) : ∃ y, b.rat i = .ok y ∧ b.toList.reverse[i]? = some y := by
  have hlt : b.sz - 1 - i < b.sz := by omega
  refine ⟨b.item ⟨b.sz - 1 - i, hlt⟩, ?_, ?_⟩
  · have hsum : b.first + b.sz - i - 1 = b.first + (b.sz - 1 - i) := by omega
    simp only [rat, dif_neg (not_le.mpr h), item, hsum]
  · rw [List.getElem?_reverse (by rwa [length_toList]), length_toList, b.getElem?_toList hlt]

/-- The item at a place other than the written one. -/
theorem item_pushBack (hp : b.pushBack x = .ok b') {i : Fin b'.sz} {j : Fin b.sz}
    (hne : (b'.first + i) % cap = (b.first + j) % cap) (hpos : (b.first + j) % cap ≠ b.pos) :
    b'.item i = b.item j := by
  unfold pushBack at hp
  split at hp
  · cases hp
  · cases hp
    simp only [item] at hne ⊢
    simp [hne, Vector.getElem_set_ne, Ne.symm hpos]

/-- The written item. -/
theorem item_pushBack_pos (hp : b.pushBack x = .ok b') {i : Fin b'.sz}
    (he : (b'.first + i) % cap = b.pos) : b'.item i = x := by
  unfold pushBack at hp
  split at hp
  · cases hp
  · cases hp
    simp only [item] at he ⊢
    simp [he]

/-- An item goes to the end, and the oldest one is dropped if there is no more room. -/
theorem toList_pushBack (h : cap ≠ 0) (x : α) :
    ∃ b', b.pushBack x = .ok b' ∧ b'.toList = (b.toList ++ [x]).rtake cap := by
  obtain ⟨b', hp⟩ : ∃ b', b.pushBack x = .ok b' := ⟨_, dif_neg h⟩
  refine ⟨b', hp, ?_⟩
  have hle := b.sz_le
  have hf := b.first_le
  have hpos := b.pos_eq
  have hdata := hp
  unfold pushBack at hdata
  rw [dif_neg h] at hdata
  have hsz : b'.sz = if b.sz = cap then b.sz else b.sz + 1 := by rw [← Except.ok.inj hdata]
  have hfirst : b'.first = if b.sz = cap then (b.first + 1) % cap else b.first := by
    rw [← Except.ok.inj hdata]
  clear hdata
  have hlast := wrap_eq (show b.first < cap by omega) hle
  refine List.ext_getElem? fun i => ?_
  by_cases hfull : b.sz = cap
  · rw [if_pos hfull] at hsz hfirst
    have hnext := wrap_eq (show b.first < cap by omega) (show 1 ≤ cap by omega)
    have hdrop : (b.toList ++ [x]).rtake cap = (b.toList ++ [x]).drop 1 := by
      simp [List.rtake, hfull]
    rw [hdrop, List.getElem?_drop]
    by_cases hi : i < cap
    · rw [b'.getElem?_toList (by omega)]
      have hwrap := wrap_eq (show b'.first < cap by omega) (show i ≤ cap by omega)
      by_cases hlast' : 1 + i < b.sz
      · have hold := wrap_eq (show b.first < cap by omega) (show 1 + i ≤ cap by omega)
        rw [List.getElem?_append_left (by simpa using hlast'), b.getElem?_toList hlast',
          item_pushBack hp (j := ⟨1 + i, hlast'⟩)]
        · show (b'.first + i) % cap = (b.first + (1 + i)) % cap
          omega
        · show (b.first + (1 + i)) % cap ≠ b.pos
          omega
      · rw [item_pushBack_pos hp (by show (b'.first + i) % cap = b.pos; omega),
          List.getElem?_append_right (by simp; omega)]
        simp [show 1 + i - b.sz = 0 by omega]
    · rw [List.getElem?_eq_none (by simp; omega), List.getElem?_eq_none (by simp; omega)]
  · rw [if_neg hfull] at hsz hfirst
    have hall : (b.toList ++ [x]).rtake cap = b.toList ++ [x] := by
      rw [List.rtake, List.length_append, length_toList, List.length_singleton,
        Nat.sub_eq_zero_of_le (by omega), List.drop_zero]
    rw [hall]
    rcases Nat.lt_trichotomy i b.sz with hi | rfl | hi
    · have hwrap := wrap_eq (show b.first < cap by omega) (show i ≤ cap by omega)
      rw [List.getElem?_append_left (by simpa using hi), b'.getElem?_toList (by omega),
        b.getElem?_toList hi, item_pushBack hp (j := ⟨i, hi⟩)]
      · show (b'.first + i) % cap = (b.first + i) % cap
        rw [hfirst]
      · show (b.first + i) % cap ≠ b.pos
        omega
    · rw [b'.getElem?_toList (by omega),
        item_pushBack_pos hp (by show (b'.first + b.sz) % cap = b.pos; rw [hfirst, hpos]),
        List.getElem?_append_right (by simp)]
      simp
    · rw [List.getElem?_eq_none (by simp; omega), List.getElem?_eq_none (by simp; omega)]

/-- The last `n` of the last `n` items and one more. -/
theorem rtake_concat (l : List α) (x : α) (n : Nat) :
    (l.rtake n ++ [x]).rtake n = (l ++ [x]).rtake n := by
  cases n with
  | zero => simp
  | succ n =>
    rw [List.rtake_concat_succ, List.rtake_concat_succ]
    congr 1
    rw [List.rtake, List.rtake, List.rtake, List.drop_drop, List.length_drop]
    congr 1
    omega

end RingBuffer
end BeeLlama
