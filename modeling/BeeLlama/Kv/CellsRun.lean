import BeeLlama.Kv.CellsInv
import BeeLlama.Lib.Run

/-!
# Runs of the KV cells

`KvCells.Op` is a call of one mutator and `Op.Asserts` what the mutator asserts. `KvCells.sys` is
the object with these calls, from `resize(n)` on; the cells that a call of `set` restores come
from a `cp` of a reachable object.

* `inv_inductive`: if every call meets `Op.KeepsUsed`, `KvCells.Inv` is an inductive invariant.
* `Inv.readers`: then the readers (`seqPosMin`, `seqSize`, `usedMin`, ...) are exact.
-/

namespace BeeLlama.KvCells

/-! ## The readers -/

/-- The readers say what the cells say. -/
structure Readers (c : KvCells) : Prop where
  /-- `seq_pos_min` is the least position of the cells with `s`, `-1` if there is none. -/
  seqPosMin : ∀ s, (∃ i, i < c.size ∧ s ∈ c.seq i) →
    IsLeast { p | ∃ i, i < c.size ∧ s ∈ c.seq i ∧ c.pos i = p } (c.seqPosMin s)
  seqPosMin_none : ∀ s, (¬ ∃ i, i < c.size ∧ s ∈ c.seq i) → c.seqPosMin s = -1
  /-- `seq_pos_max` is the greatest position of the cells with `s`, `-1` if there is none. -/
  seqPosMax : ∀ s, (∃ i, i < c.size ∧ s ∈ c.seq i) →
    IsGreatest { p | ∃ i, i < c.size ∧ s ∈ c.seq i ∧ c.pos i = p } (c.seqPosMax s)
  seqPosMax_none : ∀ s, (¬ ∃ i, i < c.size ∧ s ∈ c.seq i) → c.seqPosMax s = -1
  /-- `seq_size` is the number of the cells with `s`. -/
  seqSize : ∀ s, c.seqSize s = ((Finset.range c.size).filter fun i => s ∈ c.seq i).card
  /-- `used_min` and `used_max_p1` bound the occupied cells. -/
  usedMin : (∃ i, i < c.size ∧ c.pos i ≠ -1) → IsLeast { i | i < c.size ∧ c.pos i ≠ -1 } c.usedMin
  usedMaxP1 : (∃ i, i < c.size ∧ c.pos i ≠ -1) →
    ∃ m, IsGreatest { i | i < c.size ∧ c.pos i ≠ -1 } m ∧ c.usedMaxP1 = m + 1
  used_none : (¬ ∃ i, i < c.size ∧ c.pos i ≠ -1) → c.usedMin = 0 ∧ c.usedMaxP1 = 0

section Readers

variable {c : KvCells} {s : Nat}

theorem Inv.coe_used (h : c.Inv) : (c.used : Set Nat) = { i | i < c.size ∧ c.pos i ≠ -1 } := by
  ext i; exact h.used i

theorem Inv.posCount_set (_ : c.Inv) : { p | 0 < posCount c.size c.seq c.pos s p } =
    { p | ∃ i, i < c.size ∧ s ∈ c.seq i ∧ c.pos i = p } := by
  ext p; exact posCount_pos_iff

theorem Inv.posCount_zero (hn : ¬ ∃ i, i < c.size ∧ s ∈ c.seq i) (p : Int) :
    posCount c.size c.seq c.pos s p = 0 := by
  by_contra h
  obtain ⟨i, hi, hs, -⟩ := posCount_pos_iff.mp (Nat.pos_of_ne_zero h)
  exact hn ⟨i, hi, hs⟩

/-- Exact indexes make exact readers. -/
theorem Inv.readers (h : c.Inv) : c.Readers where
  seqPosMin s := by
    rintro ⟨i, hi, hs⟩
    rw [← h.posCount_set]
    exact (h.seqPos s).minKey (posCount_pos_iff.mpr ⟨i, hi, hs, rfl⟩)
  seqPosMin_none s hn := (h.seqPos s).minKey_of_zero (Inv.posCount_zero hn)
  seqPosMax s := by
    rintro ⟨i, hi, hs⟩
    rw [← h.posCount_set]
    exact (h.seqPos s).maxKey (posCount_pos_iff.mpr ⟨i, hi, hs, rfl⟩)
  seqPosMax_none s hn := (h.seqPos s).maxKey_of_zero (Inv.posCount_zero hn)
  seqSize s := h.seqUsed s
  usedMin := by
    rintro ⟨i, hi⟩
    have hne : c.used.Nonempty := ⟨i, (h.used i).mpr hi⟩
    rw [← h.coe_used, KvCells.usedMin, dif_pos hne]
    exact c.used.isLeast_min' hne
  usedMaxP1 := by
    rintro ⟨i, hi⟩
    have hne : c.used.Nonempty := ⟨i, (h.used i).mpr hi⟩
    refine ⟨c.used.max' hne, ?_, by rw [KvCells.usedMaxP1, dif_pos hne]⟩
    rw [← h.coe_used]
    exact c.used.isGreatest_max' hne
  used_none hn := by
    have hne : ¬ c.used.Nonempty := fun ⟨i, hi⟩ => hn ⟨i, (h.used i).mp hi⟩
    exact ⟨dif_neg hne, dif_neg hne⟩

end Readers

/-! ## Calls -/

/-- The argument of `cp`: a range of cells, or a list of cells. -/
inductive Sel where
  | range (i n : Nat)
  | idxs (l : List Nat)

/-- The cells that `cp` copies. -/
def Sel.cells : Sel → List Nat
  | .range i n => (List.range n).map (i + ·)
  | .idxs l => l

/-- `c.cp(sel)`. -/
def Sel.of : Sel → KvCells → KvCells
  | .range i n, c => c.cp i n
  | .idxs l, c => c.cpIdxs l

/-- A call of a mutator. -/
inductive Op where
  | posSet (i : Nat) (p : Int)
  | extSet (i : Nat) (e : CellExt)
  | seqAdd (i s : Nat)
  | seqRm (i s : Nat)
  | seqRmCell (i s : Nat)
  | seqKeep (i s : Nat)
  | rm (i : Nat)
  | posAdd (i : Nat) (d : Int)
  | posDiv (i : Nat) (d : Int)
  /-- `set(i, o.cp(sel))`. -/
  | set (i : Nat) (o : KvCells) (sel : Sel)
  /-- `set(idxs, o.cp(sel))`. -/
  | setIdxs (idxs : List Nat) (o : KvCells) (sel : Sel)
  | resetShift
  | reset

/-- The object after the call. -/
def Op.apply (c : KvCells) : Op → KvCells
  | .posSet i p => c.posSet i p
  | .extSet i e => c.extSet i e
  | .seqAdd i s => c.seqAdd i s
  | .seqRm i s => (c.seqRm i s).1
  | .seqRmCell i s => (c.seqRmCell i s).1
  | .seqKeep i s => (c.seqKeep i s).1
  | .rm i => c.rm i
  | .posAdd i d => (c.posAdd i d).1
  | .posDiv i d => c.posDiv i d
  | .set i o sel => c.set i (sel.of o)
  | .setIdxs idxs o sel => c.setIdxs idxs (sel.of o)
  | .resetShift => c.resetShift
  | .reset => c.reset

/-- `cp(sel)` asserts that the copied cells have no pending shift; a cell index is in range. -/
def Sel.Asserts (c : KvCells) (sel : Sel) : Prop := ∀ i ∈ sel.cells, i < c.size ∧ c.shift i = 0

/-- What the call asserts. A bitset access has a sequence id below `LLAMA_MAX_SEQ`, an access to
the cells an index below `size`, and a divisor is not `0`. -/
def Op.Asserts (c : KvCells) : Op → Prop
  | .posSet i _ => i < c.size ∧ c.pos i = -1 ∧ c.seq i = ∅
  | .extSet i _ => i < c.size
  | .seqAdd i s => i < c.size ∧ c.pos i ≠ -1 ∧ s ∉ c.seq i ∧ s < LLAMA_MAX_SEQ
  | .seqRm i s => i < c.size ∧ s ∈ c.seq i ∧ c.pos i ≠ -1
  | .seqRmCell i _ => i < c.size
  | .seqKeep i s => i < c.size ∧ s < LLAMA_MAX_SEQ ∧ (c.seq i = ∅ → c.pos i = -1)
  | .rm i => i < c.size ∧ c.pos i ≠ -1
  | .posAdd i _ => i < c.size ∧ c.pos i ≠ -1
  | .posDiv i d => i < c.size ∧ c.pos i ≠ -1 ∧ d ≠ 0
  | .set i o sel => sel.Asserts o ∧ i + (sel.of o).size ≤ c.size ∧
      ∀ j < (sel.of o).size, c.shift (i + j) = 0
  | .setIdxs idxs o sel => sel.Asserts o ∧ idxs.length = (sel.of o).size ∧
      ∀ i ∈ idxs, i < c.size ∧ c.shift i = 0
  | .resetShift => True
  | .reset => True

/-- The object whose cells a call restores. -/
def Op.source : Op → Option KvCells
  | .set _ o _ => some o
  | .setIdxs _ o _ => some o
  | _ => none

/-- The call gives no used cell the position `-1`, the mark of an empty cell. `pos_set` stores
the position it is given and `pos_div` the quotient, without a check. -/
def Op.KeepsUsed (c : KvCells) : Op → Prop
  | .posSet _ p => p ≠ -1
  | .posDiv i d => (c.pos i).tdiv d ≠ -1
  | _ => True

/-- The object with its calls, from `resize(n)` on. -/
def sys : Sys KvCells Op where
  init c := ∃ n, c = KvCells.empty.resize n
  step c op c' := op.Asserts c ∧ c' = op.apply c
  sources op := { o | op.source = some o }

theorem sys_call {ok : KvCells → Op → Prop} {c : KvCells} (h : sys.Reach ok c) (op : Op)
    (hs : ∀ o, op.source = some o → sys.Reach ok o) (ha : op.Asserts c) (hk : ok c op) :
    sys.Reach ok (op.apply c) :=
  h.step hs ⟨ha, rfl⟩ hk

theorem Inv.of_sel {c : KvCells} (h : c.Inv) : ∀ sel : Sel, (sel.of c).WellFormed
  | .range i n => h.cp i n
  | .idxs l => h.cpIdxs l

/-- The step lemma: a call keeps the invariant. -/
theorem Inv.apply {c : KvCells} (h : c.Inv) {op : Op} (ho : ∀ o, op.source = some o → o.Inv)
    (ha : op.Asserts c) (hk : op.KeepsUsed c) : (op.apply c).Inv := by
  cases op with
  | posSet i p => exact h.posSet ha.1 ha.2.1 hk
  | extSet i e => exact h.extSet
  | seqAdd i s => exact h.seqAdd ha.1 ha.2.1 ha.2.2.1 ha.2.2.2
  | seqRm i s => exact h.seqRm ha.1 ha.2.1
  | seqRmCell i s => exact h.seqRmCell ha
  | seqKeep i s => exact h.seqKeep ha.1
  | rm i => exact h.rm ha.1
  | posAdd i d => exact h.posAdd ha.1 ha.2
  | posDiv i d => exact h.posDiv ha.1 ha.2.1 hk
  | set i o sel => exact h.set ((ho o rfl).of_sel sel) ha.2.1
  | setIdxs idxs o sel =>
    exact h.setIdxs ((ho o rfl).of_sel sel) ha.2.1 fun i hi => (ha.2.2 i hi).1
  | resetShift => exact h.resetShift
  | reset => exact reset_inv c

theorem inv_inductive : sys.Inductive (fun c op => op.KeepsUsed c) Inv where
  init _ := by
    rintro ⟨n, rfl⟩
    exact reset_inv _
  step _ _ _ h ho := by
    rintro ⟨ha, rfl⟩ hk
    exact h.apply ho ha hk

/-- Every run that stores no position `-1` keeps the indexes and the readers exact. -/
theorem reach_exact {c : KvCells} (h : sys.Reach (fun c op => op.KeepsUsed c) c) :
    c.Inv ∧ c.Readers :=
  ⟨h.inv inv_inductive, (h.inv inv_inductive).readers⟩

/-- A run of two calls: cell `0` gets position `5` and sequence `3`. -/
theorem reach_exact_seqAdd :
    sys.Reach (fun c op => op.KeepsUsed c) (((KvCells.empty.resize 2).posSet 0 5).seqAdd 0 3) ∧
      (((KvCells.empty.resize 2).posSet 0 5).seqAdd 0 3).Inv ∧
      (((KvCells.empty.resize 2).posSet 0 5).seqAdd 0 3).Readers := by
  have h0 : sys.Reach (fun c op => op.KeepsUsed c) (KvCells.empty.resize 2) := .init ⟨2, rfl⟩
  have h1 := sys_call h0 (.posSet 0 5) (by simp [Op.source])
    ⟨by decide, rfl, rfl⟩ (by simp [Op.KeepsUsed])
  have h2 := sys_call h1 (.seqAdd 0 3) (by simp [Op.source])
    ⟨by decide, by decide, by decide, by decide⟩ trivial
  exact ⟨h2, reach_exact h2⟩

/-- `pos_set(0, -1)` meets its asserts and leaves an empty cell in the used set. -/
theorem reach_not_exact : ¬ ∀ c, sys.Reach (fun _ _ => True) c → c.Inv ∧ c.Readers := by
  intro h
  have h0 : sys.Reach (fun _ _ => True) (KvCells.empty.resize 1) := .init ⟨1, rfl⟩
  have h1 := sys_call h0 (.posSet 0 (-1)) (by simp [Op.source]) ⟨by decide, rfl, rfl⟩ trivial
  have hu := ((h _ h1).1.used 0).mp (by decide)
  exact hu.2 rfl

end BeeLlama.KvCells
