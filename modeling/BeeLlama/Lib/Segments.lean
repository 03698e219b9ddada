import BeeLlama.Lib.Buffer

/-!
# A buffer of segments that fill up

The buffer has one segment for each class of items, one behind the other. A segment has the items
that are there (`filled`) and as many places as are still free (`free`), and a pointer stands at
its first free place.

* `Segment.write`: an item that is written at the pointer of a segment goes into that segment.
* `scatter_spec`: a segment with as many free places as there are items for it ends up with them in
  their order, and no place is left.
-/

namespace BeeLlama

open List

variable {α : Type}

/-- The items of a class, and what stands in the free places behind them. -/
structure Segment (α : Type) where
  filled : List α
  free : List α

namespace Segment

/-- The buffer. -/
def layout (segs : List (Segment α)) : List α := segs.flatMap fun s => s.filled ++ s.free

/-- The pointers, from `off` on. -/
def pointers : Nat → List (Segment α) → List Nat
  | _, [] => []
  | off, s :: segs =>
    (off + s.filled.length) :: pointers (off + s.filled.length + s.free.length) segs

/-- An item goes to the first free place. -/
def push (s : Segment α) (x : α) : Segment α := ⟨s.filled ++ [x], s.free.tail⟩

/-- An item that is written at the pointer of a segment with a free place. -/
theorem write {segs : List (Segment α)} {k : Nat} {s : Segment α} (hk : segs[k]? = some s)
    (hfree : s.free ≠ []) (pre : List α) (x : α) :
    ∃ ptr, (pointers pre.length segs)[k]? = some ptr ∧
      writeAt (pre ++ layout segs) ptr x = some (pre ++ layout (segs.set k (s.push x))) ∧
      (pointers pre.length segs).set k (ptr + 1) = pointers pre.length (segs.set k (s.push x)) := by
  induction segs generalizing pre k with
  | nil => cases hk
  | cons t segs ih =>
    cases k with
    | zero =>
      obtain rfl : t = s := Option.some.inj hk
      obtain ⟨y, free, hy⟩ := exists_cons_of_ne_nil hfree
      refine ⟨pre.length + t.filled.length, rfl, ?_, ?_⟩
      · rw [writeAt, if_pos (by simp [layout, hy])]
        simp [layout, push, hy]
      · have hnext : pre.length + (t.filled.length + 1) + free.length =
            pre.length + t.filled.length + (free.length + 1) := by omega
        simp [pointers, push, hy, hnext, Nat.add_assoc]
    | succ k =>
      obtain ⟨ptr, hptr, hwrite, hset⟩ := ih hk (pre ++ (t.filled ++ t.free))
      have hlen : (pre ++ (t.filled ++ t.free)).length =
          pre.length + t.filled.length + t.free.length := by simp [Nat.add_assoc]
      rw [hlen] at hptr hset
      refine ⟨ptr, hptr, ?_, ?_⟩
      · simpa [layout] using hwrite
      · simp only [pointers, set_cons_succ, hset]

/-- The segment of class `k` when all items are there. -/
def complete (cls : α → Option Nat) (xs : List α) (k : Nat) (s : Segment α) : Segment α :=
  ⟨s.filled ++ xs.filter (fun x => cls x = some k), []⟩

end Segment

open Segment

/-- Every item that has a class goes to the pointer of its class, which moves on. -/
def scatter (cls : α → Option Nat) : List α → List Nat → List α → Option (List Nat × List α)
  | [], ptrs, buf => some (ptrs, buf)
  | x :: xs, ptrs, buf =>
    match cls x with
    | none => scatter cls xs ptrs buf
    | some k => do
      let ptr ← ptrs[k]?
      let buf ← writeAt buf ptr x
      scatter cls xs (ptrs.set k (ptr + 1)) buf

/-- If each segment has as many free places as there are items of its class, no write is outside
and the segments end up full. -/
theorem scatter_spec (cls : α → Option Nat) (xs : List α) : ∀ {segs : List (Segment α)},
    (∀ x ∈ xs, ∀ k, cls x = some k → k < segs.length) →
    (∀ k s, segs[k]? = some s → s.free.length = (xs.filter fun x => cls x = some k).length) →
    ∃ ptrs, scatter cls xs (pointers 0 segs) (layout segs) =
      some (ptrs, layout (segs.mapIdx (complete cls xs))) := by
  induction xs with
  | nil =>
    intro segs _ hfree
    refine ⟨pointers 0 segs, congrArg some (Prod.ext rfl (congrArg layout ?_))⟩
    refine (ext_getElem? fun k => ?_)
    rw [getElem?_mapIdx]
    cases e : segs[k]? with
    | none => rfl
    | some s =>
      obtain ⟨filled, free⟩ := s
      obtain rfl : free = [] := length_eq_zero_iff.mp (hfree k _ e)
      simp [complete]
  | cons x xs ih =>
    intro segs hcls hfree
    have hrest : ∀ y ∈ xs, ∀ k, cls y = some k → k < segs.length := fun y hy =>
      hcls y (mem_cons_of_mem x hy)
    unfold scatter
    cases hx : cls x with
    | none =>
      obtain ⟨ptrs, e⟩ := ih hrest fun k s hk => by simpa [hx] using hfree k s hk
      have hsame : complete cls (x :: xs) = complete cls xs := by
        funext k s
        simp [complete, hx]
      exact ⟨ptrs, hsame ▸ e⟩
    | some k =>
      obtain ⟨s, hk⟩ : ∃ s, segs[k]? = some s :=
        ⟨_, getElem?_eq_getElem (hcls x mem_cons_self k hx)⟩
      have hlen := hfree k s hk
      rw [filter_cons_of_pos (by simpa using hx), length_cons] at hlen
      obtain ⟨ptr, hptr, hwrite, hset⟩ := write hk (ne_nil_of_length_eq_add_one hlen) [] x
      obtain ⟨ptrs, e⟩ := @ih (segs.set k (s.push x)) (by simpa using hrest) fun j t hj => by
        by_cases hjk : j = k
        · subst hjk
          rw [List.getElem?_set_self (List.getElem?_eq_some_iff.mp hk).1] at hj
          cases hj
          simp [push, hlen]
        · rw [getElem?_set_ne (Ne.symm hjk)] at hj
          rw [hfree j t hj, filter_cons_of_neg (by simp [hx, Ne.symm hjk])]
      refine ⟨ptrs, ?_⟩
      rw [length_nil] at hptr hset
      simp only [nil_append] at hwrite
      simp only [hptr, hwrite, hset, Option.bind_eq_bind, Option.bind_some, e]
      refine congrArg some (Prod.ext rfl (congrArg layout (ext_getElem? fun j => ?_)))
      rw [getElem?_mapIdx, getElem?_mapIdx]
      by_cases hjk : j = k
      · subst hjk
        rw [List.getElem?_set_self (List.getElem?_eq_some_iff.mp hk).1, hk]
        simp [complete, push, hx]
      · have hsame : complete cls (x :: xs) j = complete cls xs j := by
          funext s
          simp [complete, hx, Ne.symm hjk]
        rw [getElem?_set_ne (Ne.symm hjk), hsame]

end BeeLlama
