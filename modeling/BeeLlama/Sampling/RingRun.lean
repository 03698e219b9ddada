import BeeLlama.Lib.RingBuffer

/-!
# Runs of the sampler's `ring_buffer`

`ring_agrees` compares a buffer after any calls with the list of its elements: the only difference
is `back`, which reads the place that is written next.
-/

namespace BeeLlama.RingBuffer

open List

variable {α : Type} {cap : Nat} {b : RingBuffer α cap}

/-- `back`. -/
def back (b : RingBuffer α cap) : Except String α :=
  if h : b.sz = 0 then .error "ring buffer is empty"
  else
    have : b.pos < cap := by
      rw [b.pos_eq]
      exact Nat.mod_lt _ (by have := b.sz_le; omega)
    .ok b.data[b.pos]

/-- `pop_front`: the oldest element and the buffer without it. -/
def popFront (b : RingBuffer α cap) : Except String (α × RingBuffer α cap) :=
  if h : b.sz = 0 then .error "ring buffer is empty"
  else
    have hcap : 0 < cap := by have := b.sz_le; omega
    have : b.first < cap := b.first_le.resolve_right hcap.ne'
    .ok (b.data[b.first], { b with
        sz := b.sz - 1
        first := (b.first + 1) % cap
        sz_le := (Nat.sub_le _ _).trans b.sz_le
        first_le := .inl (Nat.mod_lt _ hcap)
        pos_eq := by
          rw [b.pos_eq, Nat.mod_add_mod]
          congr 1
          omega })

/-- A call that changes the buffer. -/
inductive Op (α : Type) where
  | pushBack (value : α)
  | popFront
  | clear

/-- The buffer after a call; an exception leaves it as it is. -/
def call (b : RingBuffer α cap) : Op α → RingBuffer α cap
  | .pushBack value => ((b.pushBack value).toOption).getD b
  | .popFront => ((b.popFront).toOption.map Prod.snd).getD b
  | .clear => b.clear

/-- The list after a call. -/
def listCall (cap : Nat) (l : List α) : Op α → List α
  | .pushBack value => (l ++ [value]).rtake cap
  | .popFront => l.tail
  | .clear => []

/-- What an access gives that the list answers so. -/
def answer (what : String) (x : Option α) : Except String α := x.elim (.error what) .ok

/-- The buffer gives what the list gives. -/
structure Agrees (b : RingBuffer α cap) (l : List α) : Prop where
  toVector : b.toList = l
  size : b.sz = l.length
  empty : b.sz = 0 ↔ l = []
  front : b.front = answer "ring buffer is empty" l.head?
  back : b.back = answer "ring buffer is empty" l.getLast?
  rat : ∀ i, b.rat i = answer "ring buffer: index out of bounds" l.reverse[i]?
  popFront : b.popFront.map Prod.fst = answer "ring buffer is empty" l.head?

/-- The place that is written next has the value of the place before it. -/
def BackOk (b : RingBuffer α cap) : Prop :=
  b.sz ≠ 0 → b.data[b.pos]? = b.data[(b.pos + cap - 1) % cap]?

theorem toList_popFront (h : b.sz ≠ 0) :
    ∃ y b', b.popFront = .ok (y, b') ∧ b.toList = y :: b'.toList := by
  have hle := b.sz_le
  have hf := b.first_le
  refine ⟨_, _, dif_neg h, ext_getElem? fun i => ?_⟩
  cases i with
  | zero =>
    have hmod : (b.first + 0) % cap = b.first := Nat.mod_eq_of_lt (by omega)
    rw [b.getElem?_toList (Nat.pos_of_ne_zero h)]
    simp only [item, hmod, getElem?_cons_zero]
  | succ i =>
    rw [getElem?_cons_succ]
    by_cases hi : i + 1 < b.sz
    · have hmod : ((b.first + 1) % cap + i) % cap = (b.first + (i + 1)) % cap := by
        rw [Nat.mod_add_mod]
        congr 1
        omega
      rw [b.getElem?_toList hi, getElem?_toList _ (show i < b.sz - 1 by omega)]
      simp only [item, hmod]
    · rw [getElem?_eq_none (by rw [length_toList]; omega),
        getElem?_eq_none (by rw [length_toList]; dsimp only; omega)]

/-- What `back` reads is the newest element if the two places are equal. -/
theorem back_iff (hcap : cap ≠ 0) :
    b.back = answer "ring buffer is empty" b.toList.getLast? ↔ b.BackOk := by
  have hle := b.sz_le
  have hf := b.first_le
  by_cases h : b.sz = 0
  · have hnil : b.toList = [] := length_eq_zero_iff.mp (by rw [length_toList, h])
    rw [back, dif_pos h, hnil]
    exact iff_of_true rfl fun h' => absurd h h'
  · have hpos : b.pos < cap := by
      rw [b.pos_eq]
      exact Nat.mod_lt _ (by omega)
    have hplace : (b.first + (b.sz - 1)) % cap = (b.pos + cap - 1) % cap := by
      rcases wrap_eq (show b.first < cap by omega) hle with ⟨-, e⟩ | ⟨-, e⟩ <;> rw [← b.pos_eq] at e
      · rw [show b.pos + cap - 1 = b.first + (b.sz - 1) + cap by omega, Nat.add_mod_right]
      · rw [show b.pos + cap - 1 = b.first + (b.sz - 1) by omega]
    have hlast : b.toList.getLast? = b.data[(b.pos + cap - 1) % cap]? := by
      rw [getLast?_eq_getElem?, length_toList, b.getElem?_toList (by omega), item,
        ← Vector.getElem?_eq_getElem]
      simp only [hplace]
    rw [back, dif_neg h, hlast, BackOk, Vector.getElem?_eq_getElem hpos,
      Vector.getElem?_eq_getElem (Nat.mod_lt _ (by omega))]
    simp [answer, h]

/-- The accesses but for `back`. -/
theorem agrees_iff (hcap : cap ≠ 0) : b.Agrees b.toList ↔ b.BackOk := by
  refine ⟨fun h => (back_iff hcap).mp h.back, fun h => ?_⟩
  have hnil : b.sz = 0 → b.toList = [] := fun h =>
    length_eq_zero_iff.mp (by rw [length_toList, h])
  refine ⟨rfl, (length_toList b).symm, ⟨hnil, fun h => by rw [← length_toList, h]; rfl⟩, ?_,
    (back_iff hcap).mpr h, fun i => ?_, ?_⟩
  · by_cases h : b.sz = 0
    · rw [hnil h, front, dif_pos h]
      rfl
    · obtain ⟨y, e, ey⟩ := front_eq h
      rw [e, ey]
      rfl
  · by_cases hi : b.sz ≤ i
    · rw [rat, dif_pos hi, getElem?_eq_none (by simpa using hi)]
      rfl
    · obtain ⟨y, e, ey⟩ := rat_eq (Nat.lt_of_not_le hi)
      rw [e, ey]
      rfl
  · by_cases h : b.sz = 0
    · rw [hnil h, popFront, dif_pos h]
      rfl
    · obtain ⟨y, b', e, el⟩ := toList_popFront h
      rw [e, el]
      rfl

/-- A call changes the elements as it changes the list. -/
theorem toList_call (hcap : cap ≠ 0) (op : Op α) :
    (b.call op).toList = listCall cap b.toList op := by
  cases op with
  | pushBack value =>
    obtain ⟨b', e, el⟩ := toList_pushBack hcap value (b := b)
    rw [call, e]
    exact el
  | popFront =>
    by_cases h : b.sz = 0
    · have hnil : b.toList = [] := length_eq_zero_iff.mp (by rw [length_toList, h])
      rw [call, popFront, dif_pos h, listCall, hnil]
      exact hnil
    · obtain ⟨y, b', e, el⟩ := toList_popFront h
      rw [call, e, listCall, el]
      rfl
  | clear => exact toList_clear b

/-- After any calls all accesses give what the list gives, exactly if `back` does. -/
theorem ring_agrees (cap : Nat) (hcap : cap ≠ 0) (x : α) (ops : List (Op α)) :
    (ops.foldl call (new cap x)).Agrees (ops.foldl (listCall cap) []) ↔
      (ops.foldl call (new cap x)).BackOk := by
  have h : ∀ b : RingBuffer α cap,
      ops.foldl (listCall cap) b.toList = (ops.foldl call b).toList := by
    induction ops with
    | nil => exact fun b => rfl
    | cons op ops ih =>
      intro b
      rw [foldl_cons, foldl_cons, ← toList_call hcap]
      exact ih _
  rw [← toList_new cap x, h]
  exact agrees_iff hcap

theorem ring_agrees_one : ((new 1 0).call (.pushBack 5)).Agrees [5] :=
  (ring_agrees 1 (by decide) 0 [.pushBack 5]).mpr fun _ => rfl

/-- A buffer with room for two elements, after one: `back` gives what it was built with. -/
theorem back_two : ¬ ((new 2 0).call (.pushBack 5)).Agrees (listCall 2 [] (.pushBack 5)) :=
  fun h => absurd h.back (by decide)

end BeeLlama.RingBuffer
