import BeeLlama.Lib.Pieces
import Mathlib.Data.List.TakeWhile

/-!
# Saving the state into a host buffer

`llama_io_write_host`: `write` copies at once, `write_tensor` records a slice. The destructor sorts
the slices and reads them from the tensors, the regularly strided ones by one copy of rows.

* `planRows_perm`: the rows that the destructor asks for are the recorded slices, each once.
* `exec_outcome`: an issued copy puts its slices at their places, or fails if one of them leaves
  its tensor.
* `destroy_eq_plain`: the bytes are those of copying each slice at its call.

Offsets and places are exact: the next slice of a group does not lie below the last one, so a
sum that wraps is no slice's.
-/

namespace BeeLlama

open List

/-- `write_info`. A tensor is its address, and `ptr` is counted from the start of the buffer. -/
structure WriteInfo where
  tensor : Nat
  ptr : Nat
  size : Nat
  offset : Nat
  deriving DecidableEq, Repr

/-- A call of the interface. -/
inductive WriteCall where
  | write (src : List UInt8)
  | writeTensor (tensor offset size : Nat)
  deriving DecidableEq, Repr

/-- `llama_io_write_host`; `buf` is the whole buffer, of which `bufSize` bytes are left. -/
structure WriteHost where
  buf : List UInt8
  ptr : Nat
  bufSize : Nat
  sizeWritten : Nat
  winfos : List WriteInfo
  deriving DecidableEq, Repr

/-- `get_tensor_2d` of a buffer type: the tensor's bytes, the buffer, and then `data`, `offset`,
`size`, `n_copies`, `stride_tensor` and `stride_data`. -/
abbrev GetTensor2d := List UInt8 → List UInt8 → Nat → Nat → Nat → Nat → Nat → Nat → List UInt8

/-- The tensors' bytes, and the copy of rows of their buffer types where there is one. -/
structure TensorStore where
  data : Nat → List UInt8
  getTensor2d : Nat → Option GetTensor2d

namespace WriteHost

/-- The constructor. -/
def init (buf : List UInt8) : WriteHost := ⟨buf, 0, buf.length, 0, []⟩

/-- `write`; `none` stands for an exception. -/
def write (h : WriteHost) (src : List UInt8) : Option WriteHost :=
  if h.bufSize < src.length then none
  else (writeFrom h.buf h.ptr src).map fun buf =>
    { h with
      buf
      ptr := h.ptr + src.length
      sizeWritten := h.sizeWritten + src.length
      bufSize := h.bufSize - src.length }

/-- `write_tensor`. -/
def writeTensor (h : WriteHost) (tensor offset size : Nat) : Option WriteHost :=
  if h.bufSize < size then none
  else some
    { h with
      winfos := h.winfos ++ [⟨tensor, h.ptr, size, offset⟩]
      ptr := h.ptr + size
      sizeWritten := h.sizeWritten + size
      bufSize := h.bufSize - size }

def call (h : WriteHost) : WriteCall → Option WriteHost
  | .write src => h.write src
  | .writeTensor tensor offset size => h.writeTensor tensor offset size

/-- The calls of one save, of which none throws. -/
def calls (h : WriteHost) : List WriteCall → Option WriteHost
  | [] => some h
  | c :: cs => (h.call c).bind fun h => h.calls cs

end WriteHost

/-! ## The backend -/

namespace TensorStore

/-- `ggml_backend_tensor_get`; `none` stands for a failed assertion. -/
def get (st : TensorStore) (w : WriteInfo) (buf : List UInt8) : Option (List UInt8) :=
  if w.size = 0 then some buf
  else if w.offset + w.size ≤ (st.data w.tensor).length then
    writeFrom buf w.ptr (((st.data w.tensor).drop w.offset).take w.size)
  else none

end TensorStore

/-- Row `i` of a copy of rows that starts with `first`. -/
def WriteInfo.row (first : WriteInfo) (strideTensor strideData i : Nat) : WriteInfo :=
  { first with ptr := first.ptr + i * strideData, offset := first.offset + i * strideTensor }

namespace TensorStore

/-- The loop of `ggml_backend_tensor_get_2d` over the rows. -/
def getRows (st : TensorStore) (first : WriteInfo) (strideTensor strideData : Nat) :
    List Nat → List UInt8 → Option (List UInt8)
  | [], buf => some buf
  | i :: is, buf => (st.get (first.row strideTensor strideData i) buf).bind
      (st.getRows first strideTensor strideData is)

/-- `ggml_backend_tensor_get_2d`. -/
def get2d (st : TensorStore) (first : WriteInfo) (nCopies strideTensor strideData : Nat)
    (buf : List UInt8) : Option (List UInt8) :=
  match st.getTensor2d first.tensor with
  | some getTensor2d =>
    if nCopies ≤ 1 then st.getRows first strideTensor strideData (List.range nCopies) buf
    else if first.size = 0 then some buf
    else if first.offset + (nCopies - 1) * strideTensor + first.size ≤
        (st.data first.tensor).length then
      some (getTensor2d (st.data first.tensor) buf first.ptr first.offset first.size nCopies
        strideTensor strideData)
    else none
  | none => st.getRows first strideTensor strideData (List.range nCopies) buf

/-- The bytes of a slice and their place. -/
def piece (st : TensorStore) (w : WriteInfo) : Piece UInt8 :=
  ⟨w.ptr, ((st.data w.tensor).drop w.offset).take w.size⟩

/-- The buffer types' copies put row after row at its place if the rows do not overlap and lie
in the tensor and the buffer. -/
def CopiesRows (st : TensorStore) : Prop :=
  ∀ (first : WriteInfo) getTensor2d, st.getTensor2d first.tensor = some getTensor2d →
    ∀ buf n strideTensor strideData, 1 < n → 0 < first.size →
      first.size ≤ strideTensor → first.size ≤ strideData →
      first.offset + (n - 1) * strideTensor + first.size ≤ (st.data first.tensor).length →
      first.ptr + (n - 1) * strideData + first.size ≤ buf.length →
      Overlaid ((List.range n).map fun i => st.piece (first.row strideTensor strideData i)) buf
        (getTensor2d (st.data first.tensor) buf first.ptr first.offset first.size n
          strideTensor strideData)

end TensorStore

/-! ## The destructor -/

/-- The order of the sort. -/
def WriteInfo.le (a b : WriteInfo) : Bool :=
  if a.tensor ≠ b.tensor then decide (a.tensor < b.tensor)
  else if a.size ≠ b.size then decide (a.size < b.size)
  else if a.offset ≠ b.offset then decide (a.offset < b.offset)
  else decide (a.ptr ≤ b.ptr)

/-- The copies that the destructor asks for. -/
inductive Transfer where
  | get (w : WriteInfo)
  | get2d (first : WriteInfo) (run sourceStride destinationStride : Nat)
  deriving DecidableEq, Repr

/-- The loop that makes a run longer. -/
def extendRun (first : WriteInfo) (sourceStride destinationStride run : Nat) :
    List WriteInfo → Nat
  | [] => run
  | next :: rest =>
    if next.offset = first.offset + run * sourceStride ∧
        next.ptr = first.ptr + run * destinationStride then
      extendRun first sourceStride destinationStride (run + 1) rest
    else run

/-- The run that starts with `first`, and its strides. -/
def findRun (first : WriteInfo) : List WriteInfo → Nat × Nat × Nat
  | [] => (1, 0, 0)
  | next :: rest =>
    if first.offset < next.offset ∧ first.ptr < next.ptr then
      let sourceStride := next.offset - first.offset
      let destinationStride := next.ptr - first.ptr
      if first.size ≤ sourceStride ∧ first.size ≤ destinationStride then
        (extendRun first sourceStride destinationStride 2 rest, sourceStride, destinationStride)
      else (1, sourceStride, destinationStride)
    else (1, 0, 0)

/-- The inner loop, over one group. -/
def planGroup : List WriteInfo → List Transfer
  | [] => []
  | first :: rest =>
    let r := findRun first rest
    (if 1 < r.1 then .get2d first r.1 r.2.1 r.2.2 else .get first) ::
      planGroup (rest.drop (r.1 - 1))
  termination_by l => l.length

/-- The test that ends a group. -/
def WriteInfo.sameGroup (first w : WriteInfo) : Bool :=
  decide (w.tensor = first.tensor ∧ w.size = first.size)

/-- The outer loop, over the groups. -/
def planCopies : List WriteInfo → List Transfer
  | [] => []
  | first :: rest =>
    planGroup (first :: rest.takeWhile first.sameGroup) ++
      planCopies (rest.dropWhile first.sameGroup)
  termination_by l => l.length
  decreasing_by exact Nat.lt_succ_of_le (List.dropWhile_sublist _).length_le

namespace Transfer

/-- The slices of a transfer. -/
def rows : Transfer → List WriteInfo
  | get w => [w]
  | get2d first run sourceStride destinationStride =>
    (List.range run).map (first.row sourceStride destinationStride)

def exec (st : TensorStore) : Transfer → List UInt8 → Option (List UInt8)
  | get w => st.get w
  | get2d first run sourceStride destinationStride =>
    st.get2d first run sourceStride destinationStride

end Transfer

def execAll (st : TensorStore) : List Transfer → List UInt8 → Option (List UInt8)
  | [], buf => some buf
  | t :: ts, buf => (t.exec st buf).bind (execAll st ts)

/-- The destructor; `none` stands for a failed assertion of the backend. -/
def WriteHost.destroy (st : TensorStore) (h : WriteHost) : Option (List UInt8) :=
  execAll st (planCopies (h.winfos.mergeSort WriteInfo.le)) h.buf

/-! ## The plan -/

section Plan

variable {first : WriteInfo}

@[simp] theorem WriteInfo.row_zero (w : WriteInfo) (s d : Nat) : w.row s d 0 = w := by
  simp [WriteInfo.row]

/-- The slices that make the run longer are its rows. -/
theorem take_extendRun (first : WriteInfo) (sourceStride destinationStride run : Nat)
    {rest : List WriteInfo}
    (hsame : ∀ w ∈ rest, w.tensor = first.tensor ∧ w.size = first.size) :
    ∃ k, extendRun first sourceStride destinationStride run rest = run + k ∧
      rest.take k = (List.range' run k).map (first.row sourceStride destinationStride) := by
  induction rest generalizing run with
  | nil => exact ⟨0, rfl, rfl⟩
  | cons next rest ih =>
    rw [extendRun]
    split
    next h =>
      obtain ⟨k, hk, htake⟩ := ih (run + 1) fun w hw => hsame w (mem_cons_of_mem _ hw)
      have hnext : next = first.row sourceStride destinationStride run := by
        obtain ⟨ht, hs⟩ := hsame next mem_cons_self
        obtain ⟨tensor, ptr, size, offset⟩ := next
        simp only [WriteInfo.row, WriteInfo.mk.injEq]
        exact ⟨ht, h.2, hs, h.1⟩
      refine ⟨k + 1, by omega, ?_⟩
      rw [take_succ_cons, htake, range'_succ, map_cons, ← hnext]
    next => exact ⟨0, rfl, rfl⟩

/-- A run of several slices has them as its rows, and these do not overlap. -/
theorem findRun_spec {rest : List WriteInfo}
    (hsame : ∀ w ∈ rest, w.tensor = first.tensor ∧ w.size = first.size) :
    ∃ k s d, findRun first rest = (k + 1, s, d) ∧
      first :: rest.take k = (List.range (k + 1)).map (first.row s d) ∧
      (0 < k → first.size ≤ s ∧ first.size ≤ d) := by
  have hone : ∀ s d, first :: rest.take 0 = (List.range (0 + 1)).map (first.row s d) := by
    simp
  cases rest with
  | nil => exact ⟨0, 0, 0, rfl, hone 0 0, fun h => absurd h (Nat.lt_irrefl 0)⟩
  | cons next rest =>
    rw [findRun]
    split
    next h =>
      obtain ⟨ho, hp⟩ := h
      dsimp only
      split
      next hs =>
        obtain ⟨k, hk, htake⟩ := take_extendRun first (next.offset - first.offset)
          (next.ptr - first.ptr) 2 fun w hw => hsame w (mem_cons_of_mem _ hw)
        have hnext : next = first.row (next.offset - first.offset) (next.ptr - first.ptr) 1 := by
          obtain ⟨ht, hz⟩ := hsame next mem_cons_self
          obtain ⟨tensor, ptr, size, offset⟩ := next
          simp only [WriteInfo.row, WriteInfo.mk.injEq] at ho hp ht hz ⊢
          exact ⟨ht, by omega, hz, by omega⟩
        refine ⟨k + 1, _, _, by rw [hk]; congr 1; omega, ?_, fun _ => hs⟩
        rw [take_succ_cons, htake, range_eq_range', range'_succ, range'_succ,
          map_cons, map_cons, ← hnext, WriteInfo.row_zero]
      next => exact ⟨0, _, _, rfl, hone _ _, fun h => absurd h (Nat.lt_irrefl 0)⟩
    next => exact ⟨0, 0, 0, rfl, hone 0 0, fun h => absurd h (Nat.lt_irrefl 0)⟩

/-- The rows of a copy of rows do not overlap. -/
def Transfer.Regular : Transfer → Prop
  | get _ => True
  | get2d first run sourceStride destinationStride =>
    1 < run ∧ first.size ≤ sourceStride ∧ first.size ≤ destinationStride

theorem planGroup_spec {tensor size : Nat} (l : List WriteInfo)
    (hsame : ∀ w ∈ l, w.tensor = tensor ∧ w.size = size) :
    (planGroup l).flatMap Transfer.rows = l ∧ ∀ t ∈ planGroup l, t.Regular := by
  induction l using planGroup.induct with
  | case1 => simp [planGroup]
  | case2 first rest r ih =>
    have hfirst := hsame first mem_cons_self
    have hrest : ∀ w ∈ rest, w.tensor = first.tensor ∧ w.size = first.size := fun w hw => by
      have := hsame w (mem_cons_of_mem _ hw)
      exact ⟨this.1.trans hfirst.1.symm, this.2.trans hfirst.2.symm⟩
    obtain ⟨k, s, d, hrun, hrows, hreg⟩ := findRun_spec hrest
    have hr : r = (k + 1, s, d) := hrun
    rw [hr, Nat.add_sub_cancel] at ih
    obtain ⟨ihrows, ihreg⟩ := ih fun w hw =>
      hsame w (mem_cons_of_mem _ (mem_of_mem_drop hw))
    have hplan : planGroup (first :: rest) =
        (if 1 < k + 1 then .get2d first (k + 1) s d else .get first) ::
          planGroup (rest.drop k) := by
      rw [planGroup, hrun]
      simp
    rw [hplan]
    constructor
    · rw [flatMap_cons, ihrows]
      cases k with
      | zero => simp [Transfer.rows]
      | succ k =>
        rw [if_pos (by omega), Transfer.rows, ← hrows, cons_append, take_append_drop]
    · intro t ht
      rcases mem_cons.mp ht with rfl | ht
      · split
        next hk => exact ⟨hk, hreg (by omega)⟩
        next => trivial
      · exact ihreg t ht

/-- The transfers are of the slices, each once and in their order. -/
theorem planCopies_spec (l : List WriteInfo) :
    (planCopies l).flatMap Transfer.rows = l ∧ ∀ t ∈ planCopies l, t.Regular := by
  induction l using planCopies.induct with
  | case1 => simp [planCopies]
  | case2 first rest ih =>
    have hgroup : ∀ w ∈ first :: rest.takeWhile first.sameGroup,
        w.tensor = first.tensor ∧ w.size = first.size := by
      intro w hw
      rcases mem_cons.mp hw with rfl | hw
      · exact ⟨rfl, rfl⟩
      · simpa [WriteInfo.sameGroup] using mem_takeWhile_imp hw
    obtain ⟨hrows, hreg⟩ := planGroup_spec _ hgroup
    rw [planCopies]
    constructor
    · rw [flatMap_append, hrows, ih.1, cons_append, takeWhile_append_dropWhile]
    · intro t ht
      rcases mem_append.mp ht with ht | ht
      · exact hreg t ht
      · exact ih.2 t ht

end Plan

/-- The rows of the issued transfers are the recorded slices, each once. -/
theorem planRows_perm (l : List WriteInfo) :
    ((planCopies (l.mergeSort WriteInfo.le)).flatMap Transfer.rows).Perm l := by
  rw [(planCopies_spec _).1]
  exact mergeSort_perm l _

/-! ## What a transfer does -/

namespace TensorStore

variable {st : TensorStore} {buf : List UInt8}

/-- A slice that can be read. -/
def InTensor (st : TensorStore) (w : WriteInfo) : Prop :=
  w.size = 0 ∨ w.offset + w.size ≤ (st.data w.tensor).length

/-- The bytes of the slices have different places. -/
def ApartIn (st : TensorStore) (a b : WriteInfo) : Prop := (st.piece a).Apart (st.piece b)

theorem length_piece_le (st : TensorStore) (w : WriteInfo) :
    (st.piece w).items.length ≤ w.size := by
  simp only [piece, length_take]
  omega

theorem apartIn_of_le {a b : WriteInfo} (h : a.ptr + a.size ≤ b.ptr) : st.ApartIn a b := by
  rintro j ⟨-, hlt⟩ ⟨hge, -⟩
  have := st.length_piece_le a
  simp only [piece] at *
  omega

theorem apartIn_symm {a b : WriteInfo} (h : st.ApartIn a b) : st.ApartIn b a :=
  fun j hb ha => h j ha hb

theorem piece_items_eq_nil {w : WriteInfo} (h : w.size = 0) : (st.piece w).items = [] := by
  simp [piece, h]

theorem get_outcome {w : WriteInfo} (hfit : w.ptr + w.size ≤ buf.length) :
    Outcome (st.InTensor w) [st.piece w] buf (st.get w buf) := by
  rw [get]
  split
  next h0 => exact ⟨.inl h0, Overlaid.of_empty (by simp [piece_items_eq_nil h0])⟩
  next h0 =>
    split
    next hin =>
      obtain ⟨out, hout, hplaced⟩ := Overlaid.of_writeFrom buf
        (((st.data w.tensor).drop w.offset).take w.size) w.ptr
        (le_trans (Nat.add_le_add_left (st.length_piece_le w) _) hfit)
      rw [hout]
      exact ⟨.inr hin, hplaced⟩
    next hin => exact fun h => h.elim h0 hin

section Rows

variable {first : WriteInfo} {s d : Nat}

/-- Different rows have different places. -/
theorem rows_apart (hd : first.size ≤ d) {i j : Nat} (h : i < j) :
    st.ApartIn (first.row s d i) (first.row s d j) := by
  apply apartIn_of_le
  have := Nat.mul_le_mul_right d (Nat.succ_le_of_lt h)
  rw [Nat.succ_mul] at this
  simp only [WriteInfo.row]
  omega

theorem getRows_outcome (st : TensorStore) (first : WriteInfo) (s : Nat)
    (hd : first.size ≤ d) (is : List Nat) (hlt : is.Pairwise (· < ·))
    (hfit : ∀ i ∈ is, first.ptr + i * d + first.size ≤ buf.length) :
    Outcome (∀ i ∈ is, st.InTensor (first.row s d i))
      (is.map fun i => st.piece (first.row s d i)) buf (st.getRows first s d is buf) := by
  induction is generalizing buf with
  | nil => exact ⟨by simp, Overlaid.nil⟩
  | cons i is ih =>
    have ⟨hi, his⟩ := pairwise_cons.mp hlt
    rw [getRows]
    refine ((get_outcome (hfit i mem_cons_self)).bind
      (fun mid hlen => ih his fun j hj => ?_) ?_).congr ?_ ?_
    · rw [hlen]
      exact hfit j (mem_cons_of_mem _ hj)
    · intro p hp q hq
      obtain rfl := mem_singleton.mp hp
      obtain ⟨j, hj, rfl⟩ := mem_map.mp hq
      exact rows_apart hd (hi j hj)
    · simp
    · simp

/-- The last row decides whether all of them lie in the tensor. -/
theorem inTensor_rows_iff {n : Nat} (hn : 1 < n) (hsize : first.size ≠ 0) :
    (∀ i ∈ List.range n, st.InTensor (first.row s d i)) ↔
      first.offset + (n - 1) * s + first.size ≤ (st.data first.tensor).length := by
  simp only [mem_range, InTensor, WriteInfo.row, hsize, false_or]
  constructor
  · exact fun h => h (n - 1) (by omega)
  · intro h i hi
    have := Nat.mul_le_mul_right s (show i ≤ n - 1 by omega)
    omega

theorem get2d_outcome (hst : st.CopiesRows) {n : Nat} (hn : 1 < n) (hs : first.size ≤ s)
    (hd : first.size ≤ d)
    (hfit : ∀ i ∈ List.range n, first.ptr + i * d + first.size ≤ buf.length) :
    Outcome (∀ i ∈ List.range n, st.InTensor (first.row s d i))
      ((List.range n).map fun i => st.piece (first.row s d i)) buf (st.get2d first n s d buf) := by
  have hrows := getRows_outcome st first s hd (List.range n) pairwise_lt_range hfit
  rw [get2d]
  split
  next getTensor2d hget =>
    rw [if_neg (by omega)]
    split
    next h0 =>
      refine ⟨fun _ _ => .inl h0, Overlaid.of_empty fun p hp => ?_⟩
      obtain ⟨i, -, rfl⟩ := mem_map.mp hp
      exact piece_items_eq_nil h0
    next h0 =>
      split
      next hin =>
        exact ⟨(inTensor_rows_iff hn h0).mpr hin, hst first getTensor2d hget buf n s d hn
          (Nat.pos_of_ne_zero h0) hs hd hin (hfit (n - 1) (by simp; omega))⟩
      next hin => exact fun h => hin ((inTensor_rows_iff hn h0).mp h)
  next => exact hrows

end Rows

theorem exec_outcome (hst : st.CopiesRows) {t : Transfer} (ht : t.Regular)
    (hfit : ∀ w ∈ t.rows, w.ptr + w.size ≤ buf.length) :
    Outcome (∀ w ∈ t.rows, st.InTensor w) (t.rows.map st.piece) buf (t.exec st buf) := by
  cases t with
  | get w =>
    refine (get_outcome (hfit w mem_cons_self)).congr ?_ fun p => ?_
    · simp [Transfer.rows]
    · simp [Transfer.rows]
  | get2d first n s d =>
    obtain ⟨hn, hs, hd⟩ := ht
    refine (get2d_outcome hst hn hs hd fun i hi => ?_).congr ?_ fun p => ?_
    · exact hfit _ (mem_map.mpr ⟨i, hi, rfl⟩)
    · simp [Transfer.rows]
    · simp [Transfer.rows]

/-- The transfers one after another, when no two of their slices share a place. -/
theorem execAll_outcome (hst : st.CopiesRows) (ts : List Transfer)
    (hreg : ∀ t ∈ ts, t.Regular) (hapart : (ts.flatMap Transfer.rows).Pairwise st.ApartIn)
    (hfit : ∀ w ∈ ts.flatMap Transfer.rows, w.ptr + w.size ≤ buf.length) :
    Outcome (∀ w ∈ ts.flatMap Transfer.rows, st.InTensor w)
      ((ts.flatMap Transfer.rows).map st.piece) buf (execAll st ts buf) := by
  induction ts generalizing buf with
  | nil => exact ⟨by simp, Overlaid.nil⟩
  | cons t ts ih =>
    rw [flatMap_cons] at hapart hfit ⊢
    obtain ⟨-, hts, hcross⟩ := pairwise_append.mp hapart
    rw [execAll, map_append]
    refine ((exec_outcome hst (hreg t mem_cons_self)
      fun w hw => hfit w (mem_append_left _ hw)).bind
      (fun mid hlen => ih (fun t ht => hreg t (mem_cons_of_mem _ ht)) hts
        fun w hw => ?_) ?_).congr ?_ fun p => Iff.rfl
    · rw [hlen]
      exact hfit w (mem_append_right _ hw)
    · intro p hp q hq
      obtain ⟨a, ha, rfl⟩ := mem_map.mp hp
      obtain ⟨b, hb, rfl⟩ := mem_map.mp hq
      exact hcross a ha b hb
    · simp only [mem_append, or_imp, forall_and]

end TensorStore

/-! ## Copying at the call -/

/-- The slices that the calls record. -/
def slices (ptr : Nat) : List WriteCall → List WriteInfo
  | [] => []
  | .write src :: cs => slices (ptr + src.length) cs
  | .writeTensor tensor offset size :: cs => ⟨tensor, ptr, size, offset⟩ :: slices (ptr + size) cs

/-- The bytes that the calls copy at once. -/
def writes (ptr : Nat) : List WriteCall → List (Piece UInt8)
  | [] => []
  | .write src :: cs => ⟨ptr, src⟩ :: writes (ptr + src.length) cs
  | .writeTensor _ _ size :: cs => writes (ptr + size) cs

/-- The length of the saved state. -/
def savedSize : List WriteCall → Nat
  | [] => 0
  | .write src :: cs => src.length + savedSize cs
  | .writeTensor _ _ size :: cs => size + savedSize cs

/-- The purpose: every call copies its bytes to the next place. -/
def copyCalls (st : TensorStore) (ptr : Nat) : List WriteCall → List UInt8 → Option (List UInt8)
  | [], buf => some buf
  | .write src :: cs, buf =>
    (writeFrom buf ptr src).bind (copyCalls st (ptr + src.length) cs)
  | .writeTensor tensor offset size :: cs, buf =>
    (st.get ⟨tensor, ptr, size, offset⟩ buf).bind (copyCalls st (ptr + size) cs)

section Calls

variable {ptr : Nat} {cs : List WriteCall}

theorem slices_bounds {w : WriteInfo} (h : w ∈ slices ptr cs) :
    ptr ≤ w.ptr ∧ w.ptr + w.size ≤ ptr + savedSize cs := by
  induction cs generalizing ptr with
  | nil => simp [slices] at h
  | cons c cs ih =>
    cases c with
    | write src =>
      have := ih h
      simp only [savedSize]
      omega
    | writeTensor tensor offset size =>
      simp only [savedSize]
      rcases mem_cons.mp h with rfl | h
      · dsimp only
        omega
      · have := ih h
        omega

theorem le_start_of_mem_writes {p : Piece UInt8} (h : p ∈ writes ptr cs) : ptr ≤ p.start := by
  induction cs generalizing ptr with
  | nil => simp [writes] at h
  | cons c cs ih =>
    cases c with
    | write src =>
      rcases mem_cons.mp h with rfl | h
      · exact Nat.le_refl _
      · have := ih h
        omega
    | writeTensor tensor offset size =>
      have := ih h
      omega

/-- A piece that ends where the later calls begin is apart from theirs. -/
theorem apart_of_le {p q : Piece UInt8} (h : p.start + p.items.length ≤ q.start) : p.Apart q := by
  rintro j ⟨-, hlt⟩ ⟨hge, -⟩
  omega

theorem slices_apart (st : TensorStore) : (slices ptr cs).Pairwise st.ApartIn := by
  induction cs generalizing ptr with
  | nil => exact List.Pairwise.nil
  | cons c cs ih =>
    cases c with
    | write src => exact ih
    | writeTensor tensor offset size =>
      exact pairwise_cons.mpr ⟨fun w hw => TensorStore.apartIn_of_le (slices_bounds hw).1, ih⟩

theorem writes_apart_slices (st : TensorStore) {p : Piece UInt8} {w : WriteInfo}
    (hp : p ∈ writes ptr cs) (hw : w ∈ slices ptr cs) : p.Apart (st.piece w) := by
  induction cs generalizing ptr with
  | nil => simp [writes] at hp
  | cons c cs ih =>
    cases c with
    | write src =>
      have hw : w ∈ slices (ptr + src.length) cs := hw
      rcases mem_cons.mp hp with rfl | hp
      · exact apart_of_le (slices_bounds hw).1
      · exact ih hp hw
    | writeTensor tensor offset size =>
      have hp : p ∈ writes (ptr + size) cs := hp
      rcases mem_cons.mp hw with rfl | hw
      · have hle := le_start_of_mem_writes hp
        have hlen := st.length_piece_le ⟨tensor, ptr, size, offset⟩
        rintro j ⟨hge, -⟩ ⟨-, hlt⟩
        simp only [TensorStore.piece] at hlt hlen
        omega
      · exact ih hp hw

/-- Copying at the call puts all pieces at their places. -/
theorem copyCalls_outcome (st : TensorStore) {buf : List UInt8}
    (hfit : ptr + savedSize cs ≤ buf.length) :
    Outcome (∀ w ∈ slices ptr cs, st.InTensor w)
      (writes ptr cs ++ (slices ptr cs).map st.piece) buf (copyCalls st ptr cs buf) := by
  induction cs generalizing ptr buf with
  | nil => exact ⟨by simp [slices], Overlaid.nil⟩
  | cons c cs ih =>
    cases c with
    | write src =>
      simp only [savedSize] at hfit
      obtain ⟨mid, hmid, hplaced⟩ :=
        Overlaid.of_writeFrom buf src ptr (by omega)
      have hfirst : Outcome True [⟨ptr, src⟩] buf (writeFrom buf ptr src) := by
        rw [hmid]
        exact ⟨trivial, hplaced⟩
      rw [copyCalls]
      refine (hfirst.bind (fun mid hlen => ih (by omega)) ?_).congr ?_ fun p => ?_
      · intro p hp q hq
        obtain rfl := mem_singleton.mp hp
        rcases mem_append.mp hq with hq | hq
        · exact apart_of_le (le_start_of_mem_writes hq)
        · obtain ⟨w, hw, rfl⟩ := mem_map.mp hq
          exact apart_of_le (slices_bounds hw).1
      · simp [slices]
      · simp [writes, slices]
    | writeTensor tensor offset size =>
      simp only [savedSize] at hfit
      rw [copyCalls]
      refine ((TensorStore.get_outcome (w := ⟨tensor, ptr, size, offset⟩)
        (by dsimp only; omega)).bind (fun mid hlen => ih (by omega)) ?_).congr ?_ fun p => ?_
      · intro p hp q hq
        obtain rfl := mem_singleton.mp hp
        have hlen := st.length_piece_le ⟨tensor, ptr, size, offset⟩
        apply apart_of_le
        rcases mem_append.mp hq with hq | hq
        · have := le_start_of_mem_writes hq
          simp only [TensorStore.piece] at hlen ⊢
          omega
        · obtain ⟨w, hw, rfl⟩ := mem_map.mp hq
          have := (slices_bounds hw).1
          simp only [TensorStore.piece] at hlen ⊢
          omega
      · simp [slices]
      · simp only [writes, slices, map_cons, mem_append, mem_cons]
        tauto

end Calls

namespace WriteHost

/-- What calls that do not throw leave. -/
theorem calls_spec {h h' : WriteHost} {cs : List WriteCall}
    (hsize : h.ptr + h.bufSize = h.buf.length) (hcalls : h.calls cs = some h') :
    h'.winfos = h.winfos ++ slices h.ptr cs ∧ Overlaid (writes h.ptr cs) h.buf h'.buf ∧
      h.ptr + savedSize cs ≤ h.buf.length := by
  induction cs generalizing h with
  | nil =>
    cases hcalls
    exact ⟨by simp [slices], Overlaid.nil, by simp only [savedSize]; omega⟩
  | cons c cs ih =>
    obtain ⟨m, hm, hrest⟩ := Option.bind_eq_some_iff.mp hcalls
    cases c with
    | write src =>
      simp only [call, write] at hm
      split at hm
      next => cases hm
      next hle =>
        obtain ⟨mid, hmid, hplaced⟩ :=
          Overlaid.of_writeFrom h.buf src h.ptr (by omega)
        rw [hmid, Option.map_some, Option.some.injEq] at hm
        subst hm
        have hlen := hplaced.length
        obtain ⟨hw, ho, hb⟩ := ih (by dsimp only; omega) hrest
        dsimp only at hw ho hb
        refine ⟨hw, hplaced.append ho fun p hp q hq => ?_, by simp only [savedSize]; omega⟩
        obtain rfl := mem_singleton.mp hp
        exact apart_of_le (le_start_of_mem_writes hq)
    | writeTensor tensor offset size =>
      simp only [call, writeTensor] at hm
      split at hm
      next => cases hm
      next hle =>
        rw [Option.some.injEq] at hm
        subst hm
        obtain ⟨hw, ho, hb⟩ := ih (by dsimp only; omega) hrest
        dsimp only at hw ho hb
        exact ⟨by rw [hw, append_assoc]; rfl, ho, by simp only [savedSize]; omega⟩

/-- What the calls of one save leave. -/
theorem init_calls_spec {buf : List UInt8} {cs : List WriteCall} {h : WriteHost}
    (hcalls : (init buf).calls cs = some h) :
    h.winfos = slices 0 cs ∧ Overlaid (writes 0 cs) buf h.buf ∧ 0 + savedSize cs ≤ buf.length :=
  calls_spec (Nat.zero_add _) hcalls

variable {st : TensorStore} {buf : List UInt8} {cs : List WriteCall} {h : WriteHost}

/-- The destructor puts the slices at their places in the buffer that the calls left. -/
theorem destroy_outcome (hst : st.CopiesRows) (hcalls : (init buf).calls cs = some h) :
    Outcome (∀ w ∈ h.winfos, st.InTensor w) (h.winfos.map st.piece) h.buf (h.destroy st) := by
  obtain ⟨hw, hbuf, hfit⟩ := init_calls_spec hcalls
  have hperm := planRows_perm h.winfos
  have hall : Outcome _ _ h.buf _ := TensorStore.execAll_outcome hst
    (planCopies (h.winfos.mergeSort WriteInfo.le)) (planCopies_spec _).2 ?_ fun w hmem => ?_
  · refine hall.congr ?_ fun p => (hperm.map _).mem_iff
    simp only [hperm.mem_iff]
  · refine (hperm.pairwise_iff TensorStore.apartIn_symm).mpr ?_
    rw [hw]
    exact slices_apart st
  · have hmem := hperm.mem_iff.mp hmem
    rw [hw] at hmem
    have := (slices_bounds hmem).2
    rw [hbuf.length]
    omega

/-- The bytes after the destructor are those of copying every slice at its call. -/
theorem destroy_eq_plain (hst : st.CopiesRows) (hcalls : (init buf).calls cs = some h) :
    h.destroy st = copyCalls st 0 cs buf := by
  obtain ⟨hw, hbuf, hfit⟩ := init_calls_spec hcalls
  have hdestroy := destroy_outcome hst hcalls
  rw [hw] at hdestroy
  -- the calls copy the writes first and the slices last, the other side as they come
  refine (hdestroy.after hbuf fun p hp q hq => ?_).unique (copyCalls_outcome st hfit)
  obtain ⟨w, hmem, rfl⟩ := mem_map.mp hq
  exact writes_apart_slices st hp hmem

/-- A slice of a tensor is at its place. -/
theorem slice_overlaid {l : List (Piece UInt8)} {out : List UInt8} {w : WriteInfo}
    (ho : Overlaid l buf out) (hmem : st.piece w ∈ l)
    (hin : w.offset + w.size ≤ (st.data w.tensor).length) :
    (out.drop w.ptr).take w.size = ((st.data w.tensor).drop w.offset).take w.size := by
  have hlen : (st.piece w).items.length = w.size := by
    simp only [TensorStore.piece, length_take, length_drop]
    omega
  refine ext_getElem? fun k => ?_
  rcases Nat.lt_or_ge k w.size with hk | hk
  · rw [getElem?_take_of_lt hk, getElem?_drop]
    exact ho.items _ hmem k (by omega)
  · rw [getElem?_eq_none (by rw [length_take]; omega),
      getElem?_eq_none (by rw [length_take]; omega)]

/-- Slices that lie in their tensors come to their places, and the destructor changes nothing
outside them. -/
theorem destroy_spec (hst : st.CopiesRows) (hcalls : (init buf).calls cs = some h)
    (hin : ∀ w ∈ h.winfos, w.offset + w.size ≤ (st.data w.tensor).length) :
    ∃ out, h.destroy st = some out ∧ out.length = buf.length ∧
      (∀ w ∈ h.winfos, (out.drop w.ptr).take w.size =
        ((st.data w.tensor).drop w.offset).take w.size) ∧
      ∀ j, (∀ w ∈ h.winfos, ¬(w.ptr ≤ j ∧ j < w.ptr + w.size)) → out[j]? = h.buf[j]? := by
  obtain ⟨-, hbuf, -⟩ := init_calls_spec hcalls
  have hdestroy := destroy_outcome hst hcalls
  cases hout : h.destroy st with
  | none =>
    rw [hout] at hdestroy
    exact absurd (fun w hmem => .inr (hin w hmem)) hdestroy
  | some out =>
    rw [hout] at hdestroy
    obtain ⟨-, ho⟩ := hdestroy
    refine ⟨out, rfl, ho.length.trans hbuf.length, fun w hmem => ?_, fun j hj => ?_⟩
    · exact slice_overlaid ho (mem_map_of_mem hmem) (hin w hmem)
    · refine ho.rest j fun p hp hc => ?_
      obtain ⟨w, hmem, rfl⟩ := mem_map.mp hp
      exact hj w hmem ⟨hc.1, lt_of_lt_of_le hc.2 (Nat.add_le_add_left (st.length_piece_le w) _)⟩

/-- The bytes after the destructor are those of copying every slice at its call. The issued
transfers have each slice once. Slices of their tensors are at their places, and outside the
slices the destructor changes nothing. -/
theorem destroy_refines (hst : st.CopiesRows) (hcalls : (init buf).calls cs = some h) :
    h.destroy st = copyCalls st 0 cs buf ∧
    ((planCopies (h.winfos.mergeSort WriteInfo.le)).flatMap Transfer.rows).Perm h.winfos ∧
    ((∀ w ∈ h.winfos, w.offset + w.size ≤ (st.data w.tensor).length) →
      ∃ out, h.destroy st = some out ∧ out.length = buf.length ∧
        (∀ w ∈ h.winfos, (out.drop w.ptr).take w.size =
          ((st.data w.tensor).drop w.offset).take w.size) ∧
        ∀ j, (∀ w ∈ h.winfos, ¬(w.ptr ≤ j ∧ j < w.ptr + w.size)) → out[j]? = h.buf[j]?) :=
  ⟨destroy_eq_plain hst hcalls, planRows_perm _, destroy_spec hst hcalls⟩

/-- A buffer type's copy that goes row by row. -/
def rowByRow : GetTensor2d := fun src buf ptr offset size n strideTensor strideData =>
  let st : TensorStore := ⟨fun _ => src, fun _ => none⟩
  (st.getRows ⟨0, ptr, size, offset⟩ strideTensor strideData (List.range n) buf).getD buf

theorem copiesRows_rowByRow (data : Nat → List UInt8) :
    TensorStore.CopiesRows ⟨data, fun _ => some rowByRow⟩ := by
  intro first g hg buf n s d hn hsize hs hd hin hfit
  cases hg
  have hrows : Outcome _ _ buf _ := TensorStore.getRows_outcome
    ⟨fun _ => data first.tensor, fun _ => none⟩ ⟨0, first.ptr, first.size, first.offset⟩ s hd
    (List.range n) pairwise_lt_range fun i hi => ?_
  · rw [rowByRow]
    generalize hr : TensorStore.getRows ⟨fun _ => data first.tensor, fun _ => none⟩
      ⟨0, first.ptr, first.size, first.offset⟩ s d (List.range n) buf = r at hrows
    cases r with
    | none =>
      have hall : ∀ i ∈ List.range n,
          TensorStore.InTensor ⟨data, fun _ => some rowByRow⟩ (first.row s d i) :=
        (TensorStore.inTensor_rows_iff hn (Nat.pos_iff_ne_zero.mp hsize)).mpr hin
      exact absurd hall hrows
    | some out => exact hrows.2
  · have := Nat.mul_le_mul_right d (show i ≤ n - 1 by have := mem_range.mp hi; omega)
    dsimp only
    omega

/-- Two slices of one tensor between written bytes, read by one copy of rows. -/
theorem destroy_refines_strided :
    (WriteHost.mk [9, 0, 0, 7, 0, 0] 6 0 6 [⟨1, 1, 2, 0⟩, ⟨1, 4, 2, 3⟩]).destroy
        ⟨fun _ => [1, 2, 3, 4, 5], fun _ => some rowByRow⟩ =
      copyCalls ⟨fun _ => [1, 2, 3, 4, 5], fun _ => some rowByRow⟩ 0
        [.write [9], .writeTensor 1 0 2, .write [7], .writeTensor 1 3 2] [0, 0, 0, 0, 0, 0] :=
  (destroy_refines (copiesRows_rowByRow fun _ => [1, 2, 3, 4, 5])
    (show (init [0, 0, 0, 0, 0, 0]).calls
      [.write [9], .writeTensor 1 0 2, .write [7], .writeTensor 1 3 2] = some _ from rfl)).1

end WriteHost

end BeeLlama
