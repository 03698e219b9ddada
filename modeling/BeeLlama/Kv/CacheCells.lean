import BeeLlama.Kv.CellsLocal
import BeeLlama.Kv.Cache

/-!
# The loops of the cache, cell by cell

A loop of the cache over the cells of a stream changes each cell on its own (`sweep_spec`). For
each loop there is a function of one cell and a lemma: the loop keeps `CellsOk` and maps every
cell by the function.
-/

namespace BeeLlama

open Finset Cell

/-! ## What the loops do to one cell -/

namespace Cell

/-- The cell holds sequence `s` at a position in `[p0, p1)`. -/
def Holds (k : Cell) (s : Nat) (p0 p1 : Int) : Prop := p0 ≤ k.pos ∧ k.pos < p1 ∧ s ∈ k.seq

instance (k : Cell) (s : Nat) (p0 p1 : Int) : Decidable (k.Holds s p0 p1) :=
  inferInstanceAs (Decidable (_ ∧ _ ∧ _))

/-- Sequence `s` leaves the cell. -/
def erase (s : Nat) (k : Cell) : Cell :=
  if k.seq.erase s = ∅ then free else { k with seq := k.seq.erase s }

/-- `seq_rm` of a sequence. -/
def rmSeq (s : Nat) (p0 p1 : Int) (k : Cell) : Cell := if k.Holds s p0 p1 then k.erase s else k

/-- `seq_rm` of all sequences. -/
def rmAny (p0 p1 : Int) (k : Cell) : Cell := if p0 ≤ k.pos ∧ k.pos < p1 then free else k

/-- `seq_cp` in one stream. -/
def cpSeq (src dst : Nat) (p0 p1 : Int) (k : Cell) : Cell :=
  if k.Holds src p0 p1 then { k with seq := insert dst k.seq } else k

/-- `seq_keep`. -/
def keep (s : Nat) (k : Cell) : Cell :=
  if s ∈ k.seq then { k with seq := {s} } else if k.seq = ∅ then k else free

/-- `pos_add`. -/
def shiftBy (d : Int) (k : Cell) : Cell :=
  if k.pos + d < 0 then { free with ext := k.ext }
  else { k with pos := k.pos + d, shift := k.shift + d }

/-- `seq_add`. -/
def addSeq (s : Nat) (p0 p1 d : Int) (k : Cell) : Cell :=
  if k.Holds s p0 p1 then k.shiftBy d else k

/-- `pos_div`. -/
def divBy (d : Int) (k : Cell) : Cell :=
  { k with pos := k.pos.tdiv d, shift := k.shift + (k.pos - k.pos.tdiv d) }

/-- `seq_div`. -/
def divSeq (s : Nat) (p0 p1 d : Int) (k : Cell) : Cell :=
  if k.Holds s p0 p1 then k.divBy d else k

theorem Ok.erase {k : Cell} (h : k.Ok) (s : Nat) : (k.erase s).Ok := by
  unfold Cell.erase
  split
  · exact free_ok
  · exact ⟨h.nonneg, h.shift⟩

theorem Ok.keep {k : Cell} (h : k.Ok) (s : Nat) : (k.keep s).Ok := by
  unfold Cell.keep
  split
  · exact ⟨h.nonneg, h.shift⟩
  · split
    · exact h
    · exact free_ok

theorem Ok.shiftBy {k : Cell} (d : Int) : (k.shiftBy d).Ok := by
  unfold Cell.shiftBy
  split
  · exact ⟨free_ok.nonneg, free_ok.shift⟩
  · next hd => exact ⟨fun _ => by simpa using hd, fun hp => by simp only at hp; omega⟩

section Seq

variable (k : Cell) (s : Nat) (p0 p1 d : Int)

theorem erase_seq_subset : (k.erase s).seq ⊆ k.seq := by
  unfold erase
  split
  · exact empty_subset _
  · exact Finset.erase_subset s k.seq

theorem rmSeq_seq_subset : (k.rmSeq s p0 p1).seq ⊆ k.seq := by
  unfold rmSeq
  split
  · exact k.erase_seq_subset s
  · exact Finset.Subset.refl _

theorem rmAny_seq_subset : (k.rmAny p0 p1).seq ⊆ k.seq := by
  unfold rmAny
  split
  · exact empty_subset _
  · exact Finset.Subset.refl _

theorem cpSeq_seq_subset (dst : Nat) : (k.cpSeq s dst p0 p1).seq ⊆ insert dst k.seq := by
  unfold cpSeq
  split
  · exact Finset.Subset.refl _
  · exact Finset.subset_insert dst k.seq

theorem keep_seq_subset : (k.keep s).seq ⊆ k.seq := by
  unfold keep
  split
  · next h => exact singleton_subset_iff.mpr h
  · split
    · exact Finset.Subset.refl _
    · exact empty_subset _

theorem addSeq_seq_subset : (k.addSeq s p0 p1 d).seq ⊆ k.seq := by
  unfold addSeq shiftBy
  split
  · split
    · exact empty_subset _
    · exact Finset.Subset.refl _
  · exact Finset.Subset.refl _

theorem divSeq_seq_subset : (k.divSeq s p0 p1 d).seq ⊆ k.seq := by
  unfold divSeq divBy
  split <;> exact Finset.Subset.refl _

end Seq

end Cell

namespace KvCache

open KvCells

/-! ## Loops -/

section Sweep

variable {f : KvCells → Nat → KvCells × Bool} {g : Nat → Cell → Cell} {P : KvCells → Prop}
  {c : KvCells}

/-- The cells before `k` are done, the others as they were. -/
private theorem sweep_upto
    (hstep : ∀ c' i, i < c.size → P c' → c'.cell i = c.cell i →
      P (f c' i).1 ∧ ∀ j, (f c' i).1.cell j = if j = i then g i (c.cell i) else c'.cell j)
    (h : P c) (k : Nat) (hk : k ≤ c.size) :
    P ((List.range k).foldl (fun (a : KvCells × Nat) i =>
        ((f a.1 i).1, if (f a.1 i).2 && a.2 == c.size then i else a.2)) (c, c.size)).1 ∧
    ∀ j, ((List.range k).foldl (fun (a : KvCells × Nat) i =>
        ((f a.1 i).1, if (f a.1 i).2 && a.2 == c.size then i else a.2)) (c, c.size)).1.cell j =
      if j < k then g j (c.cell j) else c.cell j := by
  induction k with
  | zero => exact ⟨h, fun j => by simp⟩
  | succ k ih =>
    obtain ⟨hP, hcell⟩ := ih (by omega)
    rw [List.range_succ, List.foldl_append, List.foldl_cons, List.foldl_nil]
    generalize (List.range k).foldl _ (c, c.size) = a at hP hcell
    obtain ⟨hP', hcell'⟩ := hstep a.1 k (by omega) hP (by rw [hcell k]; simp)
    refine ⟨hP', fun j => ?_⟩
    rw [hcell' j, hcell j]
    by_cases e : j = k
    · subst e; simp
    · have : j < k + 1 ↔ j < k := by omega
      simp [e, this]

/-- A loop maps every cell on its own. -/
theorem sweep_spec (hstep : ∀ c' i, i < c.size → P c' → c'.cell i = c.cell i →
      P (f c' i).1 ∧ ∀ j, (f c' i).1.cell j = if j = i then g i (c.cell i) else c'.cell j)
    (h : P c) :
    P (sweep f c).1 ∧
    ∀ j, (sweep f c).1.cell j = if j < c.size then g j (c.cell j) else c.cell j :=
  sweep_upto hstep h c.size (Nat.le_refl _)

end Sweep

section Loops

variable {n : Nat} {c : KvCells}

theorem posIn_iff {i : Nat} {p0 p1 : Int} :
    c.posIn i p0 p1 = true ↔ p0 ≤ (c.cell i).pos ∧ (c.cell i).pos < p1 := by
  simp [posIn]

theorem holds_iff {i s : Nat} {p0 p1 : Int} :
    (c.posIn i p0 p1 && c.seqHas i s) = true ↔ (c.cell i).Holds s p0 p1 := by
  simp [posIn, seqHas, Cell.Holds, and_assoc]

/-- What the body of a loop does at cell `i`: nothing, or it makes the cell `k`. -/
def Changes (c' r : KvCells) (i : Nat) (k : Cell) : Prop :=
  (r = c' ∧ k = c'.cell i) ∨
    (r.Inv ∧ r.size = c'.size ∧ (∀ j, r.cell j = if j = i then k else c'.cell j) ∧ k.Ok)

/-- A loop whose body makes cell `i` the cell `g (c.cell i)`. -/
theorem sweep_cells {f : KvCells → Nat → KvCells × Bool} {g : Cell → Cell} (h : c.CellsOk n)
    (hf : ∀ c' i, i < c'.size → c'.CellsOk n → c'.cell i = c.cell i →
      Changes c' (f c' i).1 i (g (c'.cell i))) :
    (sweep f c).1.CellsOk n ∧
    ∀ j, (sweep f c).1.cell j = if j < c.size then g (c.cell j) else c.cell j := by
  refine sweep_spec (g := fun _ => g) (fun c' i hi hc' e => ?_) h
  have hi' : i < c'.size := by rw [hc'.size, ← h.size]; exact hi
  rw [← e]
  rcases hf c' i hi' hc' e with ⟨hr, hk⟩ | ⟨hinv, hsize, hcell, hk⟩
  · rw [hr, hk]
    refine ⟨hc', fun j => ?_⟩
    split
    · next ej => rw [ej]
    · rfl
  · exact ⟨hc'.update (by rwa [hc'.size] at hi') hinv hsize hcell hk, hcell⟩

theorem rmSeq_sweep (h : c.CellsOk n) (s : Nat) (p0 p1 : Int) :
    (sweep (rmCell s p0 p1) c).1.CellsOk n ∧
    ∀ j, (sweep (rmCell s p0 p1) c).1.cell j =
      if j < c.size then (c.cell j).rmSeq s p0 p1 else c.cell j := by
  refine sweep_cells h fun c' i hi hc' _ => ?_
  unfold rmCell rmSeq
  simp only [holds_iff]
  split
  · next hh =>
    exact .inr ⟨hc'.toInv.seqRm hi hh.2.2, seqRm_size c' i s, fun j => seqRm_cell c' i j s,
      (hc'.ok i).erase s⟩
  · exact .inl ⟨rfl, rfl⟩

/-- A loop whose body keeps the flag of the pending shifts. -/
theorem sweep_hasShift {f : KvCells → Nat → KvCells × Bool}
    (hf : ∀ c' i, (f c' i).1.hasShift = c'.hasShift) : (sweep f c).1.hasShift = c.hasShift := by
  unfold sweep
  generalize c.size = m
  suffices ∀ (l : List Nat) (a : KvCells × Nat), (l.foldl (fun (a : KvCells × Nat) i =>
      ((f a.1 i).1, if (f a.1 i).2 && a.2 == m then i else a.2)) a).1.hasShift = a.1.hasShift from
    this _ (c, m)
  intro l
  induction l with
  | nil => exact fun _ => rfl
  | cons i l ih => exact fun a => (ih _).trans (hf a.1 i)

theorem rmCell_hasShift (s : Nat) (p0 p1 : Int) (c' : KvCells) (i : Nat) :
    (rmCell s p0 p1 c' i).1.hasShift = c'.hasShift := by
  unfold rmCell
  split
  · exact seqRm_hasShift c' i s
  · rfl

theorem rmAny_sweep (h : c.CellsOk n) (p0 p1 : Int) : (sweep (rmAnyCell p0 p1) c).1.CellsOk n ∧
    ∀ j, (sweep (rmAnyCell p0 p1) c).1.cell j =
      if j < c.size then (c.cell j).rmAny p0 p1 else c.cell j := by
  refine sweep_cells h fun c' i hi hc' _ => ?_
  unfold rmAnyCell rmAny
  simp only [posIn_iff]
  split
  · exact .inr ⟨hc'.toInv.rm hi, rm_size c' i, rm_cell c' i, free_ok⟩
  · exact .inl ⟨rfl, rfl⟩

/-- `seq_add` asserts that the cell does not have the sequence yet. -/
theorem cpSeq_sweep (h : c.CellsOk n) {src dst : Nat} {p0 p1 : Int}
    (hdst : ∀ i, (c.cell i).Holds src p0 p1 → dst ∉ c.seq i) (hlt : dst < LLAMA_MAX_SEQ) :
    (sweep (cpCell src dst p0 p1) c).1.CellsOk n ∧
    ∀ j, (sweep (cpCell src dst p0 p1) c).1.cell j =
      if j < c.size then (c.cell j).cpSeq src dst p0 p1 else c.cell j := by
  refine sweep_cells h fun c' i hi hc' e => ?_
  unfold cpCell cpSeq
  simp only [holds_iff]
  split
  · next hh =>
    have hn : dst ∉ c'.seq i := by
      have := hdst i (by rw [← e]; exact hh)
      rwa [← cell_seq, ← e] at this
    exact .inr ⟨hc'.toInv.seqAdd hi (hc'.toInv.pos_ne_of_mem hh.2.2) hn hlt, rfl,
      fun j => seqAdd_cell c' i j dst, (hc'.ok i).nonneg, (hc'.ok i).shift⟩
  · exact .inl ⟨rfl, rfl⟩

theorem keep_sweep (h : c.CellsOk n) (s : Nat) : (sweep (fun c i => c.seqKeep i s) c).1.CellsOk n ∧
    ∀ j, (sweep (fun c i => c.seqKeep i s) c).1.cell j =
      if j < c.size then (c.cell j).keep s else c.cell j :=
  sweep_cells h fun c' i hi hc' _ =>
    .inr ⟨hc'.toInv.seqKeep hi, seqKeep_size c' i s, fun j => seqKeep_cell c' i j s,
      (hc'.ok i).keep s⟩

theorem addSeq_sweep (h : c.CellsOk n) (s : Nat) (p0 p1 d : Int) :
    (sweep (addCell s p0 p1 d) c).1.CellsOk n ∧
    ∀ j, (sweep (addCell s p0 p1 d) c).1.cell j =
      if j < c.size then (c.cell j).addSeq s p0 p1 d else c.cell j := by
  refine sweep_cells h fun c' i hi hc' _ => ?_
  unfold addCell addSeq
  simp only [holds_iff]
  split
  · next hh =>
    exact .inr ⟨hc'.toInv.posAdd hi (hc'.toInv.pos_ne_of_mem hh.2.2), posAdd_size c' i d,
      fun j => posAdd_cell c' i j d, Cell.Ok.shiftBy d⟩
  · exact .inl ⟨rfl, rfl⟩

theorem divSeq_sweep (h : c.CellsOk n) (s : Nat) (p0 p1 : Int) {d : Int} (hd : 0 < d) :
    (sweep (divCell s p0 p1 d) c).1.CellsOk n ∧
    ∀ j, (sweep (divCell s p0 p1 d) c).1.cell j =
      if j < c.size then (c.cell j).divSeq s p0 p1 d else c.cell j := by
  refine sweep_cells h fun c' i hi hc' _ => ?_
  unfold divCell divSeq
  simp only [holds_iff]
  split
  · next hh =>
    have hp := hc'.toInv.pos_ne_of_mem hh.2.2
    have hq : 0 ≤ (c'.pos i).tdiv d := Int.tdiv_nonneg ((hc'.ok i).nonneg hp) hd.le
    have hok : ((c'.cell i).divBy d).Ok := ⟨fun _ => hq, fun e => by
      have e' : (c'.pos i).tdiv d = -1 := e
      omega⟩
    have hinv : (c'.posDiv i d).Inv := hc'.toInv.posDiv hi hp (by omega)
    dsimp only
    exact .inr ⟨hinv, posDiv_size c' i d, fun j => posDiv_cell c' i j d, hok⟩
  · exact .inl ⟨rfl, rfl⟩

/-- A loop that frees no cell. -/
private theorem foldl_eq_sweep (g : KvCells → Nat → KvCells) (m : Nat) (l : List Nat)
    (a : KvCells × Nat) :
    (l.foldl (fun (a : KvCells × Nat) i =>
      (g a.1 i, if false && a.2 == m then i else a.2)) a).1 = l.foldl g a.1 := by
  induction l generalizing a with
  | nil => rfl
  | cons i l ih => rw [List.foldl_cons, ih]; rfl

/-- `seq_cp` copies cell `i` with its position and shift; it goes through the position before the
shift. -/
theorem copyCell_spec {source c' : KvCells} (hs : source.CellsOk n) (hc' : c'.CellsOk n)
    {src dst i : Nat} (hi : i < n) (hfree : c'.cell i = Cell.free) (hmem : src ∈ source.seq i)
    (hpos : source.pos i - source.shift i ≠ -1) (hlt : dst < LLAMA_MAX_SEQ) :
    (copyCell source dst c' i).CellsOk n ∧ ∀ j, (copyCell source dst c' i).cell j =
      if j = i then ⟨source.pos i, source.ext i, source.shift i, {dst}⟩ else c'.cell j := by
  have hp : 0 ≤ source.pos i := (hs.ok i).nonneg (hs.toInv.pos_ne_of_mem hmem)
  have he : c'.pos i = -1 := congrArg Cell.pos hfree
  have hseq : c'.seq i = ∅ := congrArg Cell.seq hfree
  have hshift : c'.shift i = 0 := congrArg Cell.shift hfree
  have hi' : i < c'.size := by rw [hc'.size]; exact hi
  have h1 := (hc'.toInv.posSet hi' he hpos).seqAdd (s := dst) hi' (by simpa [posSet] using hpos)
    (by simp [posSet, hseq]) hlt
  have hcell1 : ∀ j, ((c'.posSet i (source.pos i - source.shift i)).seqAdd i dst).cell j =
      if j = i then ⟨source.pos i - source.shift i, c'.ext i, 0, {dst}⟩ else c'.cell j := by
    intro j
    rw [seqAdd_cell, posSet_cell, posSet_cell]
    by_cases e : j = i <;> simp [e, posSet, hseq, hshift]
  have key : ∀ c2 : KvCells, c2.Inv → c2.size = c'.size → (∀ j, c2.cell j =
      if j = i then ⟨source.pos i, c'.ext i, source.shift i, {dst}⟩ else c'.cell j) →
      (c2.extSet i (source.ext i)).CellsOk n ∧ ∀ j, (c2.extSet i (source.ext i)).cell j =
        if j = i then ⟨source.pos i, source.ext i, source.shift i, {dst}⟩ else c'.cell j := by
    intro c2 hinv hsize hcell
    have hcell' : ∀ j, (c2.extSet i (source.ext i)).cell j =
        if j = i then ⟨source.pos i, source.ext i, source.shift i, {dst}⟩ else c'.cell j := by
      intro j
      rw [extSet_cell, hcell, hcell]
      by_cases e : j = i <;> simp [e]
    refine ⟨hc'.update hi hinv.extSet hsize hcell' ⟨fun _ => hp, fun e => ?_⟩, hcell'⟩
    simp only at e
    omega
  unfold copyCell
  dsimp only
  split
  · refine key _ (h1.posAdd hi' ?_) (posAdd_size _ _ _) fun j => ?_
    · have := congrArg Cell.pos (hcell1 i)
      simp only [cell_pos, if_true] at this
      rwa [this]
    · have hp1 := congrArg Cell.pos (hcell1 i)
      have hs1 := congrArg Cell.shift (hcell1 i)
      simp only [cell_pos, cell_shift, if_true] at hp1 hs1
      have hn : ¬ source.pos i - source.shift i + source.shift i < 0 := by omega
      rw [posAdd_cell, hp1, hs1, hcell1 j, hcell1 i, if_neg hn]
      by_cases e : j = i <;> simp [e]
  · next hz =>
    refine key _ h1 rfl fun j => ?_
    rw [hcell1]
    have : source.shift i = 0 := by simpa using hz
    rw [this]
    by_cases e : j = i <;> simp [e]

theorem copyCells_spec {source dest : KvCells} (hs : source.CellsOk n) (hd : dest.size = n)
    {src dst : Nat} (hlt : dst < LLAMA_MAX_SEQ)
    (hpos : ∀ i, src ∈ source.seq i → source.pos i - source.shift i ≠ -1) :
    (copyCells source dest src dst).CellsOk n ∧
    ∀ j, (copyCells source dest src dst).cell j =
      if src ∈ source.seq j then ⟨source.pos j, source.ext j, source.shift j, {dst}⟩
      else Cell.free := by
  have hr : dest.reset.CellsOk n := CellsOk.reset hd
  have hsize : source.size = dest.reset.size := by rw [hs.size, hr.size]
  have heq : copyCells source dest src dst = (sweep (fun c i =>
      (if source.seqHas i src then copyCell source dst c i else c, false)) dest.reset).1 := by
    unfold copyCells sweep
    rw [hsize]
    exact (foldl_eq_sweep (fun c i => if source.seqHas i src then copyCell source dst c i else c)
      _ _ (dest.reset, dest.reset.size)).symm
  obtain ⟨hok, hcell⟩ := sweep_spec (P := fun c => c.CellsOk n) (c := dest.reset)
    (f := fun c i => (if source.seqHas i src then copyCell source dst c i else c, false))
    (g := fun i k => if src ∈ source.seq i then
      ⟨source.pos i, source.ext i, source.shift i, {dst}⟩ else k)
    (fun c' i hi hc' e => by
      dsimp only
      simp only [seqHas, decide_eq_true_eq]
      split
      · next hmem =>
        exact copyCell_spec hs hc' (by rwa [hr.size] at hi) (e.trans rfl) hmem (hpos i hmem) hlt
      · refine ⟨hc', fun j => ?_⟩
        split
        · next ej => rw [ej, e]
        · rfl) hr
  rw [heq]
  refine ⟨hok, fun j => ?_⟩
  rw [hcell j]
  split
  · rfl
  · next hj =>
    rw [if_neg fun hm => hj ?_]
    · rfl
    · rw [← hsize, hs.size]
      exact hs.lt_of_mem hm

end Loops
end KvCache
end BeeLlama
