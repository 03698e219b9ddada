import BeeLlama.Kv.CellsInv

/-!
# The cells one by one

`KvCells.cell c i` is what the four vectors hold for cell `i`. Each operation changes one cell
(`rm_cell`, `seqRm_cell`, ...), and with the invariant the cells determine the object
(`Inv.eq_of_cell`).

`CellsOk n` is the invariant that the cache keeps for each of its streams: the indexes of `Inv`,
no negative position but `-1`, and no pending shift on an empty cell.
-/

namespace BeeLlama

open List

/-- The contents of one cell. -/
structure Cell where
  pos : Int
  ext : CellExt
  shift : Int
  seq : Finset Nat

/-- A free cell. -/
def Cell.free : Cell := ⟨-1, {}, 0, ∅⟩

/-- No negative position but the mark of an empty cell, which has no pending shift. -/
structure Cell.Ok (k : Cell) : Prop where
  nonneg : k.pos ≠ -1 → 0 ≤ k.pos
  shift : k.pos = -1 → k.shift = 0

theorem Cell.free_ok : Cell.free.Ok := ⟨fun h => absurd rfl h, fun _ => rfl⟩

namespace KvCells

/-- The contents of cell `i`. -/
def cell (c : KvCells) (i : Nat) : Cell := ⟨c.pos i, c.ext i, c.shift i, c.seq i⟩

section Pointwise

variable (c : KvCells) (i j s : Nat)

@[simp] theorem cell_pos : (c.cell i).pos = c.pos i := rfl
@[simp] theorem cell_ext : (c.cell i).ext = c.ext i := rfl
@[simp] theorem cell_shift : (c.cell i).shift = c.shift i := rfl
@[simp] theorem cell_seq : (c.cell i).seq = c.seq i := rfl

theorem rm_cell : (c.rm i).cell j = if j = i then Cell.free else c.cell j := by
  by_cases e : j = i
  · subst e; simp [cell, rm, freeCell, setSeq, Cell.free]
  · simp [cell, rm, freeCell, setSeq, e]

@[simp] theorem rm_size : (c.rm i).size = c.size := by simp [rm, freeCell, setSeq]
@[simp] theorem rm_hasShift : (c.rm i).hasShift = c.hasShift := by simp [rm, freeCell, setSeq]

theorem seqRm_cell : (c.seqRm i s).1.cell j = if j = i then
      if (c.seq i).erase s = ∅ then Cell.free else { c.cell i with seq := (c.seq i).erase s }
    else c.cell j := by
  unfold seqRm
  by_cases e : j = i
  · subst e
    by_cases h : (c.seq j).erase s = ∅ <;>
      simp [cell, setSeq, seqPosDec, freeCell, h, Cell.free]
  · by_cases h : (c.seq i).erase s = ∅ <;> simp [cell, setSeq, seqPosDec, freeCell, h, e]

theorem seqRm_size : (c.seqRm i s).1.size = c.size := by
  unfold seqRm; simp only; split <;> rfl

theorem seqRm_hasShift : (c.seqRm i s).1.hasShift = c.hasShift := by
  unfold seqRm; simp only; split <;> rfl

theorem seqRmCell_cell : (c.seqRmCell i s).1.cell j = if j = i ∧ c.pos i ≠ -1 ∧ s ∈ c.seq i then
      if (c.seq i).erase s = ∅ then Cell.free else { c.cell i with seq := (c.seq i).erase s }
    else c.cell j := by
  unfold seqRmCell
  by_cases h : c.pos i = -1 ∨ s ∉ c.seq i
  · rw [if_pos h, if_neg fun ⟨_, hp, hs⟩ => h.elim hp fun hn => hn hs]
  · rw [if_neg h, seqRm_cell]
    simp only [not_or, not_not] at h
    by_cases e : j = i <;> simp [e, h]

theorem seqKeep_cell : (c.seqKeep i s).1.cell j = if j = i then
      if s ∈ c.seq i then { c.cell i with seq := {s} }
      else if c.seq i = ∅ then c.cell i else Cell.free
    else c.cell j := by
  unfold seqKeep
  by_cases hs : s ∈ c.seq i
  · by_cases e : j = i <;> simp [cell, setSeq, seqPosInc, hs, e]
  · by_cases hn : c.seq i = ∅
    · by_cases e : j = i <;> simp [cell, hn, e]
    · have hne : (c.seq i).Nonempty := Finset.nonempty_iff_ne_empty.mpr hn
      by_cases e : j = i <;> simp [cell, setSeq, freeCell, hs, hn, hne, e, Cell.free]

theorem seqKeep_size : (c.seqKeep i s).1.size = c.size := by
  unfold seqKeep
  split
  · simp [setSeq, seqPosInc]
  · split <;> simp [setSeq, freeCell]

theorem seqAdd_cell : (c.seqAdd i s).cell j =
    if j = i then { c.cell i with seq := insert s (c.seq i) } else c.cell j := by
  by_cases e : j = i
  · subst e; simp [cell, seqAdd, setSeq, seqPosInc]
  · simp [cell, seqAdd, setSeq, seqPosInc, e]

theorem posSet_cell (p : Int) : (c.posSet i p).cell j =
    if j = i then { c.cell i with pos := p } else c.cell j := by
  by_cases e : j = i
  · subst e; simp [cell, posSet]
  · simp [cell, posSet, e]

theorem extSet_cell (x : CellExt) : (c.extSet i x).cell j =
    if j = i then { c.cell i with ext := x } else c.cell j := by
  by_cases e : j = i
  · subst e; simp [cell, extSet]
  · simp [cell, extSet, e]

theorem posAdd_cell (d : Int) : (c.posAdd i d).1.cell j = if j = i then
      if c.pos i + d < 0 then { Cell.free with ext := c.ext i }
      else { c.cell i with pos := c.pos i + d, shift := c.shift i + d }
    else c.cell j := by
  unfold posAdd
  by_cases e : j = i
  · subst e
    by_cases h : c.pos j + d < 0 <;> simp [cell, movePos, dropCell, h, Cell.free]
  · by_cases h : c.pos i + d < 0 <;> simp [cell, movePos, dropCell, h, e]

theorem posAdd_size (d : Int) : (c.posAdd i d).1.size = c.size := by
  unfold posAdd; simp only; split <;> simp [movePos, dropCell]

theorem posDiv_cell (d : Int) : (c.posDiv i d).cell j = if j = i then
      { c.cell i with
        pos := (c.pos i).tdiv d
        shift := c.shift i + (c.pos i - (c.pos i).tdiv d) }
    else c.cell j := by
  by_cases e : j = i
  · subst e; simp [cell, posDiv, movePos]
  · simp [cell, posDiv, movePos, e]

theorem posDiv_size (d : Int) : (c.posDiv i d).size = c.size := by simp [posDiv, movePos]

theorem setCell_cell (o : KvCells) (k : Nat) : (c.setCell i o k).cell j =
    if j = i then ⟨o.pos k, o.ext k, c.shift i, o.seq k⟩ else c.cell j := by
  unfold setCell
  by_cases e : j = i
  · subst e
    by_cases h1 : c.pos j ≠ -1 <;> by_cases h2 : o.pos k ≠ -1 <;>
      simp [cell, assign, h1, h2]
  · by_cases h1 : c.pos i ≠ -1 <;> by_cases h2 : o.pos k ≠ -1 <;>
      simp [cell, assign, h1, h2, e]

theorem setCell_hasShift (o : KvCells) (k : Nat) : (c.setCell i o k).hasShift = c.hasShift := by
  unfold setCell
  by_cases h1 : c.pos i ≠ -1 <;> by_cases h2 : o.pos k ≠ -1 <;> simp [assign, h1, h2]

end Pointwise

/-! ## The cells determine the object -/

theorem Inv.eq_of_cell {c c' : KvCells} (h : c.Inv) (h' : c'.Inv) (hsize : c'.size = c.size)
    (hshift : c'.hasShift = c.hasShift) (hcell : ∀ i, c'.cell i = c.cell i) : c' = c := by
  have hpos : c'.pos = c.pos := funext fun i => congrArg Cell.pos (hcell i)
  have hext : c'.ext = c.ext := funext fun i => congrArg Cell.ext (hcell i)
  have hsh : c'.shift = c.shift := funext fun i => congrArg Cell.shift (hcell i)
  have hseq : c'.seq = c.seq := funext fun i => congrArg Cell.seq (hcell i)
  have hused : c'.used = c.used := by
    ext i
    rw [h'.used, h.used, hsize, hpos]
  have hsp : c'.seqPos = c.seqPos := funext fun s => by
    have e := h'.seqPos s
    rw [hsize, hseq, hpos] at e
    exact e.ext (h.seqPos s)
  have hsu : c'.seqUsed = c.seqUsed := funext fun s => by
    have e := h'.seqUsed s
    rw [hsize, hseq] at e
    rw [e, h.seqUsed s]
  obtain ⟨⟩ := c
  obtain ⟨⟩ := c'
  simp_all

/-- What the cache keeps of the cells of a stream. -/
structure CellsOk (n : Nat) (c : KvCells) : Prop extends Inv c where
  size : c.size = n
  ok : ∀ i, (c.cell i).Ok
  /-- There is nothing behind the last cell. -/
  out : ∀ i, n ≤ i → c.pos i = -1

theorem CellsOk.reset {n : Nat} {c : KvCells} (h : c.size = n) : c.reset.CellsOk n :=
  ⟨reset_inv c, h, fun _ => Cell.free_ok, fun _ _ => rfl⟩

theorem CellsOk.resetShift {n : Nat} {c : KvCells} (h : c.CellsOk n) : c.resetShift.CellsOk n :=
  ⟨h.toInv.resetShift, h.size, fun i => ⟨(h.ok i).nonneg, fun _ => rfl⟩, h.out⟩

/-- A cell with a sequence is occupied. -/
theorem Inv.pos_ne_of_mem {c : KvCells} (h : c.Inv) {i s : Nat} (hs : s ∈ c.seq i) :
    c.pos i ≠ -1 := by
  intro hp
  rw [h.empty i hp] at hs
  exact Finset.notMem_empty s hs

theorem CellsOk.lt_of_mem {n i s : Nat} {c : KvCells} (h : c.CellsOk n) (hs : s ∈ c.seq i) :
    i < n := by
  by_contra hi
  exact h.toInv.pos_ne_of_mem hs (h.out i (by omega))

/-- One cell changes. -/
theorem CellsOk.update {n i : Nat} {c c' : KvCells} {k : Cell} (h : c.CellsOk n) (hi : i < n)
    (hinv : c'.Inv) (hsize : c'.size = c.size)
    (hcell : ∀ j, c'.cell j = if j = i then k else c.cell j) (hk : k.Ok) : c'.CellsOk n := by
  refine ⟨hinv, hsize.trans h.size, fun j => ?_, fun j hj => ?_⟩
  · rw [hcell j]
    split
    · exact hk
    · exact h.ok j
  · have := congrArg Cell.pos (hcell j)
    rw [if_neg (by omega)] at this
    exact this.trans (h.out j hj)

/-! ## Restored cells -/

section Restore

variable (c b : KvCells) (idxs : List Nat)

theorem setIdxs_size (o : KvCells) : (c.setIdxs idxs o).size = c.size := by
  unfold setIdxs
  induction List.range o.size generalizing c with
  | nil => rfl
  | cons k l ih => rw [foldl_cons, ih, setCell_size]

theorem setIdxs_hasShift (o : KvCells) : (c.setIdxs idxs o).hasShift = c.hasShift := by
  unfold setIdxs
  induction List.range o.size generalizing c with
  | nil => rfl
  | cons k l ih => rw [foldl_cons, ih, setCell_hasShift]

/-- The cells of the list come back as they were in `b`, but for the shifts. -/
theorem setIdxs_cpIdxs_cell (j : Nat) : (c.setIdxs idxs (b.cpIdxs idxs)).cell j =
    if j ∈ idxs then { b.cell j with shift := c.shift j } else c.cell j := by
  have key : ∀ l : List Nat, (∀ k ∈ l, k < idxs.length) → ∀ c : KvCells,
      (l.foldl (fun c k => c.setCell (idxs.getD k 0) (b.cpIdxs idxs) k) c).cell j =
        if j ∈ l.map fun k => idxs.getD k 0 then { b.cell j with shift := c.shift j }
        else c.cell j := by
    intro l
    induction l with
    | nil => intro _ c; simp
    | cons k l ih =>
      intro hl c
      have hk : k < idxs.length := hl k (by simp)
      have hg : idxs[k]? = some (idxs.getD k 0) := by simp [List.getD, hk]
      have hc : (c.setCell (idxs.getD k 0) (b.cpIdxs idxs) k).cell j =
          if j = idxs.getD k 0 then { b.cell j with shift := c.shift j } else c.cell j := by
        rw [setCell_cell]
        split
        · next e =>
          rw [← e] at hg ⊢
          simp only [cpIdxs, hg, Option.map_some, Option.getD_some, cell]
        · rfl
      rw [foldl_cons, ih (fun m hm => hl m (by simp [hm]))]
      have hs : (c.setCell (idxs.getD k 0) (b.cpIdxs idxs) k).shift j = c.shift j := by
        have := congrArg Cell.shift hc
        rw [cell_shift] at this
        rw [this]
        split <;> rfl
      rw [hs, hc]
      by_cases e : j = idxs.getD k 0 <;> by_cases e' : j ∈ l.map fun k => idxs.getD k 0 <;>
        simp only [map_cons, mem_cons, e, e', true_or, or_true, if_true, if_false,
          or_false, ite_self]
  have hmap : (List.range idxs.length).map (fun k => idxs.getD k 0) = idxs := by
    refine ext_getElem (by simp) fun k h1 h2 => ?_
    simp [List.getD, h2]
  have := key (List.range idxs.length) (fun k hk => mem_range.mp hk) c
  rw [hmap] at this
  exact this

/-- A copy of all cells in fresh ones: only the shifts are lost. -/
theorem set_cp_cell (n j : Nat) : ((empty.resize n).set 0 (c.cp 0 n)).cell j =
    if j < n then { c.cell j with shift := 0 } else Cell.free := by
  have key : ∀ k, k ≤ n → ((List.range k).foldl
      (fun c' i => c'.setCell (0 + i) (c.cp 0 n) i) (empty.resize n)).cell j =
        if j < k then { c.cell j with shift := 0 } else Cell.free := by
    intro k
    induction k with
    | zero => exact fun _ => rfl
    | succ k ih =>
      intro hk
      have ih := ih (by omega)
      rw [range_succ, foldl_append, foldl_cons, foldl_nil, setCell_cell, Nat.zero_add]
      by_cases e : j = k
      · subst e
        rw [if_neg (Nat.lt_irrefl j)] at ih
        rw [if_pos rfl, if_pos (by omega)]
        have hs := congrArg Cell.shift ih
        rw [cell_shift] at hs
        have hj : j < n := by omega
        rw [hs]
        simp only [cp, hj, if_true, Nat.zero_add]
        rfl
      · rw [if_neg e, ih]
        by_cases e' : j < k
        · rw [if_pos e', if_pos (by omega)]
        · rw [if_neg e', if_neg (by omega)]
  exact key n (Nat.le_refl n)

/-- Such a copy is well formed. -/
theorem CellsOk.set_cp {n : Nat} {c : KvCells} (h : c.CellsOk n) :
    ((empty.resize n).set 0 (c.cp 0 n)).CellsOk n := by
  have hsize : ∀ (l : List Nat) (c' : KvCells),
      (l.foldl (fun c' i => c'.setCell (0 + i) (c.cp 0 n) i) c').size = c'.size := by
    intro l
    induction l with
    | nil => exact fun _ => rfl
    | cons k l ih => exact fun c' => (ih _).trans (setCell_size _ _ _ _)
  refine ⟨(reset_inv _).set (h.toInv.cp 0 n) (Nat.le_of_eq (Nat.zero_add n)), hsize _ _,
    fun i => ?_, fun i hi => ?_⟩
  · rw [set_cp_cell]
    split
    · exact ⟨(h.ok i).nonneg, fun _ => rfl⟩
    · exact Cell.free_ok
  · have := congrArg Cell.pos (set_cp_cell c n i)
    rw [if_neg (by omega)] at this
    exact this

end Restore

end KvCells
end BeeLlama
