import BeeLlama.Kv.CacheRun

/-!
# What `seq_keep` and `seq_cp` do to the cells

Both walk the cells of one stream.

* `reach_seqKeep_iff`: when `seq_keep` leaves nothing but the cells of the sequence.
* `reach_seqCp_iff`: when a copy in one stream keeps the counts of the positions exact, and when a
  second one changes nothing.
-/

namespace BeeLlama

open Function Finset KvCells Cell

/-! ## One cell -/

namespace Cell

variable (s : Nat) (k : Cell)

theorem keep_seq : (k.keep s).seq = k.seq ∩ {s} := by
  unfold keep
  split
  · next h => simp [h]
  · next h =>
    split
    · next he => simp [he]
    · simp [free, h]

/-- A cell that `seq_keep` leaves occupied carries the sequence alone. -/
theorem keep_of_pos {s : Nat} {k : Cell} (h : (k.keep s).pos ≠ -1) (hk : k.seq ≠ ∅) :
    (k.keep s).seq = {s} := by
  unfold keep at h ⊢
  split
  · rfl
  · next hs => simp [hs, hk, free] at h

/-- After a copy the cells of `dst` are its own and the copied ones. -/
theorem mem_cpSeq {src dst : Nat} {p0 p1 : Int} {k : Cell} :
    dst ∈ (k.cpSeq src dst p0 p1).seq ↔ dst ∈ k.seq ∨ k.Holds src p0 p1 := by
  unfold cpSeq
  split
  · next h => simp [h]
  · next h => simp [h]

/-- A copy leaves what it copies from. -/
theorem holds_cpSeq {src dst : Nat} {p0 p1 : Int} {k : Cell} :
    (k.cpSeq src dst p0 p1).Holds src p0 p1 ↔ k.Holds src p0 p1 := by
  by_cases h : k.Holds src p0 p1
  · exact ⟨fun _ => h, fun _ => by
      rw [cpSeq, if_pos h]
      exact ⟨h.1, h.2.1, Finset.mem_insert_of_mem h.2.2⟩⟩
  · rw [cpSeq, if_neg h]

/-- A second copy changes nothing. -/
theorem cpSeq_cpSeq (src dst : Nat) (p0 p1 : Int) (k : Cell) :
    (k.cpSeq src dst p0 p1).cpSeq src dst p0 p1 = k.cpSeq src dst p0 p1 := by
  by_cases h : k.Holds src p0 p1
  · simp [cpSeq, h]
  · simp [cpSeq, h]

end Cell

namespace KvCache

open KvCells

/-! ## Keeping one sequence -/

section Keep

variable {st st' : KvCache} {s : Nat}

/-- The cells of `s` are left as they were, and nothing else. -/
structure Kept (st st' : KvCache) (s : Nat) : Prop where
  others : ∀ o < st.cfg.seqToStreamSize, o ≠ s → (∀ x i, o ∉ (st'.cells x).seq i) ∧
    (st'.cells (st.cfg.seqToStream o)).seqPosMax o = -1
  own : ∀ x i, (s ∈ (st'.cells x).seq i ↔ s ∈ (st.cells x).seq i) ∧
    (s ∈ (st.cells x).seq i → (st'.cells x).pos i = (st.cells x).pos i)
  only : ∀ x i, (st'.cells x).isEmpty i = false → (st'.cells x).seq i = {s}

theorem seqKeep_cells (e : st.seqKeep s = (st', .ok ())) :
    st'.cells = Function.update st.cells (st.cfg.seqToStream s)
      (sweep (fun c i => c.seqKeep i s) (st.cells (st.cfg.seqToStream s))).1 := by
  obtain ⟨st1, u1, e1, e⟩ := andThen_ok e
  obtain ⟨tail1, sc, rows, rfl, -⟩ := materializePendingCopies_eq e1
  split at e
  · obtain ⟨st2, u2, e2, e⟩ := andThen_ok e
    obtain ⟨tail2, rfl, -⟩ := onTail_eq e2
    cases e
    obtain ⟨heads, eh⟩ := rebuildAllocationHeads_eq (KvCache.sweepStream
      { st with tail := tail2, scInfo := sc, rows := rows } (st.cfg.seqToStream s)
      fun c i => c.seqKeep i s)
    rw [eh]
    rfl
  · cases e

/-- In a stream all cells of which are empty, a sequence has no position. -/
theorem Inv.seqPosMax_of_not_mem (h : st.Inv) {x o : Nat} (hn : ∀ i, o ∉ (st.cells x).seq i) :
    (st.cells x).seqPosMax o = -1 :=
  (h.cells x).toInv.readers.seqPosMax_none o fun ⟨i, _, hi⟩ => hn i hi

/-- What `seq_keep` leaves of every cell. -/
theorem Inv.seqKeep_cell (h : st.Inv) (e : st.seqKeep s = (st', .ok ())) (x i : Nat) :
    (st'.cells x).cell i =
      if x = st.cfg.seqToStream s then ((st.cells x).cell i).keep s else (st.cells x).cell i := by
  rw [seqKeep_cells e]
  by_cases hx : x = st.cfg.seqToStream s
  · subst hx
    have hc := (h.cells (st.cfg.seqToStream s)).toCellsOk
    rw [if_pos rfl, update_self, (keep_sweep hc s).2 i]
    split
    · rfl
    · next hi =>
      have hseq : (st.cells (st.cfg.seqToStream s)).seq i = ∅ :=
        hc.empty i (hc.out i (hc.size ▸ Nat.le_of_not_lt hi))
      simp [keep, hseq]
  · rw [if_neg hx, update_of_ne hx]

/-- `seq_keep` keeps one sequence if and only if the occupied cells are all in its stream, and each
of them belongs to a sequence. -/
theorem Inv.seqKeep_iff (h : st.Inv) (e : st.seqKeep s = (st', .ok ())) :
    Kept st st' s ↔ ∀ x i, (st.cells x).isEmpty i = false →
      x = st.cfg.seqToStream s ∧ ((st.cells x).seq i).Nonempty := by
  have hcell := h.seqKeep_cell e
  have hinv := (h.seqKeep e).1
  have hocc : ∀ (c : KvCells) (i : Nat), c.isEmpty i = false ↔ c.pos i ≠ -1 := fun c i => by
    simp [isEmpty]
  constructor
  · intro hk x i hi
    have hsame : (st'.cells x).cell i = (st.cells x).cell i →
        (st.cells x).seq i = {s} := fun hc => by
      have hpos := congrArg Cell.pos hc
      have hseq := congrArg Cell.seq hc
      simp only [cell_pos, cell_seq] at hpos hseq
      rw [← hseq]
      exact hk.only x i ((hocc _ i).mpr (hpos ▸ (hocc _ i).mp hi))
    by_cases hx : x = st.cfg.seqToStream s
    · refine ⟨hx, nonempty_iff_ne_empty.mpr fun hempty => ?_⟩
      have hc := hcell x i
      rw [if_pos hx] at hc
      simp only [keep, cell_seq, hempty, notMem_empty, if_false, if_true] at hc
      rw [hsame hc] at hempty
      exact singleton_ne_empty s hempty
    · have hc := hcell x i
      rw [if_neg hx] at hc
      have hs : s ∈ (st.cells x).seq i := hsame hc ▸ Finset.mem_singleton_self s
      exact absurd ((h.cells x).stream i s hs).symm hx
  · intro hocc'
    have hfar : ∀ x i, x ≠ st.cfg.seqToStream s → (st.cells x).pos i = -1 := fun x i hx => by
      by_contra hi
      exact hx (hocc' x i ((hocc _ i).mpr hi)).1
    have hseq : ∀ x i, (st'.cells x).seq i = (st.cells x).seq i ∩ {s} := fun x i => by
      rw [← cell_seq, hcell x i]
      split
      · exact keep_seq s _
      · next hx => simp [(h.cells x).toInv.empty i (hfar x i hx)]
    refine ⟨fun o _ ho => ?_, fun x i => ⟨?_, fun hs => ?_⟩, fun x i hi => ?_⟩
    · have hno : ∀ x i, o ∉ (st'.cells x).seq i := fun x i => by simp [hseq, ho]
      exact ⟨hno, hinv.seqPosMax_of_not_mem (hno _)⟩
    · simp [hseq]
    · have hx : x = st.cfg.seqToStream s := by
        by_contra hx
        exact absurd hs (by simp [(h.cells x).toInv.empty i (hfar x i hx)])
      rw [← cell_pos, hcell x i, if_pos hx, keep, cell_seq, if_pos hs]
      rfl
    · rw [hocc, ← cell_pos, hcell x i] at hi
      split at hi
      · next hx =>
        rw [← cell_seq, hcell x i, if_pos hx]
        refine keep_of_pos hi fun hk => ?_
        have hp : (st.cells x).pos i = -1 := by
          by_contra hp
          exact (hocc' x i ((hocc _ i).mpr hp)).2.ne_empty hk
        exact hi (by rw [keep, if_neg (by rw [hk]; exact notMem_empty s), if_pos hk]
                     exact hp)
      · next hx => exact absurd (hfar x i hx) hi

/-- In a run whose calls meet what they assert, `seq_keep` keeps one sequence if and only if no
cell of another stream is occupied, and no cell of its own stream without a sequence. -/
theorem reach_seqKeep_iff (h : sys.Reach (fun st op => op.KeepsUsed st) st)
    (e : st.seqKeep s = (st', .ok ())) :
    Kept st st' s ↔ ∀ x i, (st.cells x).isEmpty i = false →
      x = st.cfg.seqToStream s ∧ ((st.cells x).seq i).Nonempty :=
  (h.inv inv_inductive).seqKeep_iff e

set_option maxRecDepth 20000 in
/-- `seq_keep` of the sequence of a cache that holds no other. -/
theorem twoStreamsOne_seqKeep_kept : Kept twoStreamsOne (twoStreamsOne.seqKeep 0).1 0 := by
  refine (reach_seqKeep_iff twoStreamsOne_reach (COut.eq_of_snd (by decide +kernel))).mpr
    fun x i hi => ?_
  have hfree : ∀ i, (twoStreamsOne.cells 0).isEmpty (i + 1) = true := fun _ => rfl
  have hother : ∀ x i, (twoStreamsOne.cells (x + 1)).isEmpty i = true := fun _ _ => rfl
  cases x with
  | zero =>
    cases i with
    | zero => exact ⟨rfl, by decide +kernel⟩
    | succ i => simp [hfree i] at hi
  | succ x => simp [hother x i] at hi

/-- The token of sequence `0` is in stream `0`; `seq_keep` of sequence `1` walks stream `1`. -/
theorem seqKeep_not_kept : ¬ ∀ (st st' : KvCache) (s : Nat),
    sys.Reach (fun st op => op.KeepsUsed st) st → st.seqKeep s = (st', .ok ()) →
      Kept st st' s := by
  intro h
  have hk := h twoStreamsOne (twoStreamsOne.seqKeep 1).1 1 twoStreamsOne_reach
    (COut.eq_of_snd (by decide +kernel))
  exact (hk.others 0 (by decide +kernel) (by decide)).1 0 0 (by decide +kernel)

end Keep

/-! ## Copying in one stream -/

section CopyLoop

variable {c : KvCells} {src dst n : Nat} {p0 p1 : Int}

/-- The cells that `seq_cp` gives to the other sequence. -/
def heldCells (c : KvCells) (src : Nat) (p0 p1 : Int) : Finset Nat :=
  (Finset.range c.size).filter fun i => (c.cell i).Holds src p0 p1

theorem cpCell_cell (c' : KvCells) (i j : Nat) : (cpCell src dst p0 p1 c' i).1.cell j =
      if j = i then (c'.cell i).cpSeq src dst p0 p1 else c'.cell j := by
  unfold cpCell cpSeq
  simp only [holds_iff]
  split
  · exact seqAdd_cell c' i j dst
  · split
    · next e => rw [e]
    · rfl

/-- The loop maps every cell, whatever the counts are. -/
theorem cpCell_sweep_cell (c : KvCells) (j : Nat) : (sweep (cpCell src dst p0 p1) c).1.cell j =
      if j < c.size then (c.cell j).cpSeq src dst p0 p1 else c.cell j :=
  (sweep_spec (P := fun _ => True) (g := fun _ => cpSeq src dst p0 p1)
    (fun c' i _ _ e => ⟨trivial, fun j => by rw [cpCell_cell, e]⟩) trivial).2 j

private theorem cpCell_used_upto (c : KvCells) (k : Nat) :
    (∀ j, k ≤ j → ((List.range k).foldl (fun (a : KvCells × Nat) i =>
        ((cpCell src dst p0 p1 a.1 i).1,
          if (cpCell src dst p0 p1 a.1 i).2 && a.2 == c.size then i else a.2))
        (c, c.size)).1.cell j = c.cell j) ∧
    ((List.range k).foldl (fun (a : KvCells × Nat) i =>
        ((cpCell src dst p0 p1 a.1 i).1,
          if (cpCell src dst p0 p1 a.1 i).2 && a.2 == c.size then i else a.2))
        (c, c.size)).1.seqUsed dst =
      c.seqUsed dst + ((Finset.range k).filter fun i => (c.cell i).Holds src p0 p1).card := by
  induction k with
  | zero => simp
  | succ k ih =>
    obtain ⟨hcell, hused⟩ := ih
    rw [List.range_succ, List.foldl_append, List.foldl_cons, List.foldl_nil]
    generalize (List.range k).foldl _ (c, c.size) = a at hcell hused
    refine ⟨fun j hj => ?_, ?_⟩
    · rw [cpCell_cell, if_neg (by omega), hcell j (by omega)]
    · rw [range_add_one, filter_insert]
      unfold cpCell
      simp only [holds_iff, hcell k (Nat.le_refl k)]
      split
      · rw [card_insert_of_notMem (by simp)]
        simp [KvCells.seqAdd, seqPosInc, setSeq, hused, Nat.add_assoc]
      · exact hused

theorem cpCell_sweep_size (c : KvCells) : (sweep (cpCell src dst p0 p1) c).1.size = c.size :=
  (sweep_spec (P := fun c' => c'.size = c.size) (g := fun _ => cpSeq src dst p0 p1)
    (fun c' i _ hs e => ⟨by unfold cpCell; split <;> exact hs,
      fun j => by rw [cpCell_cell, e]⟩) rfl).1

/-- `seq_add` counts a cell once more each time, also one that has the sequence already. -/
theorem cpCell_sweep_used (c : KvCells) : (sweep (cpCell src dst p0 p1) c).1.seqUsed dst =
      c.seqUsed dst + (heldCells c src p0 p1).card :=
  (cpCell_used_upto c c.size).2

/-- Nothing to copy. -/
theorem cpCell_sweep_none (h : ∀ i, ¬ (c.cell i).Holds src p0 p1) :
    (sweep (cpCell src dst p0 p1) c).1 = c := by
  unfold sweep
  generalize c.size = m
  suffices ∀ (l : List Nat) (a : KvCells × Nat), a.1 = c → (l.foldl (fun (a : KvCells × Nat) i =>
      ((cpCell src dst p0 p1 a.1 i).1,
        if (cpCell src dst p0 p1 a.1 i).2 && a.2 == m then i else a.2)) a).1 = c from
    this _ (c, m) rfl
  intro l
  induction l with
  | nil => exact fun _ ha => ha
  | cons i l ih =>
    intro a ha
    refine ih _ ?_
    unfold cpCell
    simp only [holds_iff, ha, h i, if_false]

theorem holds_cpCell_sweep {c : KvCells} {i : Nat} :
    ((sweep (cpCell src dst p0 p1) c).1.cell i).Holds src p0 p1 ↔ (c.cell i).Holds src p0 p1 := by
  rw [cpCell_sweep_cell]
  split
  · exact holds_cpSeq
  · exact Iff.rfl

theorem mem_heldCells (h : c.CellsOk n) {i : Nat} :
    i ∈ heldCells c src p0 p1 ↔ (c.cell i).Holds src p0 p1 := by
  unfold heldCells
  rw [Finset.mem_filter, Finset.mem_range]
  refine ⟨And.right, fun hi => ⟨?_, hi⟩⟩
  by_contra hn
  exact h.toInv.pos_ne_of_mem hi.2.2 (h.out i (h.size ▸ Nat.le_of_not_lt hn))

/-- The counts stay exact if and only if no copied cell has the sequence already. -/
theorem cpCell_sweep_inv_iff (h : c.CellsOk n) (hlt : dst < LLAMA_MAX_SEQ) :
    (sweep (cpCell src dst p0 p1) c).1.Inv ↔ ∀ i, (c.cell i).Holds src p0 p1 → dst ∉ c.seq i := by
  constructor
  · intro hinv i hi hd
    have hcount := hinv.readers.seqSize dst
    have hold := h.toInv.readers.seqSize dst
    have hunion : ((Finset.range (sweep (cpCell src dst p0 p1) c).1.size).filter fun i =>
        dst ∈ (sweep (cpCell src dst p0 p1) c).1.seq i) =
        ((Finset.range c.size).filter fun i => dst ∈ c.seq i) ∪ heldCells c src p0 p1 := by
      ext j
      rw [cpCell_sweep_size, heldCells, ← filter_or, Finset.mem_filter, Finset.mem_filter,
        Finset.mem_range]
      refine and_congr_right fun hj => ?_
      rw [← cell_seq, cpCell_sweep_cell, if_pos hj, mem_cpSeq, cell_seq]
    unfold seqSize at hcount hold
    rw [hunion, cpCell_sweep_used, hold] at hcount
    have hdis := card_union_eq_card_add_card.mp hcount.symm
    exact Finset.disjoint_left.mp hdis (Finset.mem_filter.mpr
      ⟨(Finset.mem_filter.mp ((mem_heldCells h).mpr hi)).1, hd⟩) ((mem_heldCells h).mpr hi)
  · exact fun hdst => (cpSeq_sweep h hdst hlt).1.toInv

end CopyLoop

section Copy

variable {st st' st'' : KvCache} {src dst : Nat} {p0 p1 : Int}

/-- What a copy in one stream does to the cells. -/
theorem seqCp_cells (hs : st.cfg.seqToStream src = st.cfg.seqToStream dst)
    (e : st.seqCp src dst p0 p1 = (st', .ok ())) :
    st'.cfg = st.cfg ∧ dst < st.cfg.seqToStreamSize ∧
      st'.cells = if src = dst then st.cells else
        Function.update st.cells (st.cfg.seqToStream src)
          (sweep (cpCell src dst (rangeBegin p0) (rangeEnd p1))
            (st.cells (st.cfg.seqToStream src))).1 := by
  obtain ⟨st1, u1, e1, e⟩ := andThen_ok e
  obtain ⟨tail1, sc, rows, rfl, -⟩ := materializePendingCopies_eq e1
  by_cases hlt : src < st.cfg.seqToStreamSize ∧ dst < st.cfg.seqToStreamSize
  · rw [if_pos hlt, if_pos hs] at e
    obtain ⟨st2, u2, e2, e⟩ := andThen_ok e
    have hcells₂ := queueTailCopies_cells e2
    have hcfg2 := queueTailCopies_cfg e2
    refine ⟨?_, hlt.2, ?_⟩
    · split at e
      · rw [← hcfg2, (Prod.mk.inj e).1]
      · rw [← (Prod.mk.inj e).1]
        simp [hcfg2]
    · split at e
      · next he => rw [if_pos he, ← hcells₂, (Prod.mk.inj e).1]
      · next he =>
        rw [if_neg he, ← (Prod.mk.inj e).1, rebuildAllocationHead_cells, markIfIncomplete_cells]
        simp only [KvCache.setCells, hcfg2, hcells₂]
  · rw [if_neg hlt] at e
    cases e

/-- Two sequences of one stream are within `seq[i]`. -/
theorem lt_maxSeq_of_stream (hne : src ≠ dst) (hs : st.cfg.seqToStream src = st.cfg.seqToStream dst)
    (hlt : dst < st.cfg.seqToStreamSize) : dst < LLAMA_MAX_SEQ := by
  unfold CacheCfg.seqToStream at hs
  unfold CacheCfg.seqToStreamSize at hlt
  split at hs
  · exact absurd hs hne
  · next hn => rwa [if_neg hn] at hlt

theorem seqCp_size (hs : st.cfg.seqToStream src = st.cfg.seqToStream dst)
    (e : st.seqCp src dst p0 p1 = (st', .ok ())) (x : Nat) :
    (st'.cells x).size = (st.cells x).size := by
  rw [(seqCp_cells hs e).2.2]
  split
  · rfl
  · by_cases hx : x = st.cfg.seqToStream src
    · subst hx
      rw [update_self, cpCell_sweep_size]
    · rw [update_of_ne hx]

/-- The contents of the cells after a copy. -/
theorem seqCp_cell (hs : st.cfg.seqToStream src = st.cfg.seqToStream dst)
    (e : st.seqCp src dst p0 p1 = (st', .ok ())) (x i : Nat) :
    (st'.cells x).cell i =
      if src ≠ dst ∧ x = st.cfg.seqToStream src ∧ i < (st.cells x).size then
        ((st.cells x).cell i).cpSeq src dst (rangeBegin p0) (rangeEnd p1)
      else (st.cells x).cell i := by
  rw [(seqCp_cells hs e).2.2]
  by_cases hd : src = dst
  · simp [hd]
  · rw [if_neg hd]
    by_cases hx : x = st.cfg.seqToStream src
    · subst hx
      rw [update_self, cpCell_sweep_cell]
      simp [hd]
    · rw [update_of_ne hx, if_neg fun h => hx h.2.1]

/-- A copy in one stream keeps the counts of the cells exact. -/
structure CopyExact (st st' st'' : KvCache) (src dst : Nat) (p0 p1 : Int) : Prop where
  inv : (st'.cells (st.cfg.seqToStream src)).Inv
  again : ∀ x i, (st''.cells x).cell i = (st'.cells x).cell i
  union : ∀ x i, dst ∈ (st'.cells x).seq i ↔ dst ∈ (st.cells x).seq i ∨
    x = st.cfg.seqToStream src ∧ ((st.cells x).cell i).Holds src (rangeBegin p0) (rangeEnd p1)

/-- The contents of the cells do not depend on what the stream carries already. -/
theorem Inv.seqCp_union (h : st.Inv) (hs : st.cfg.seqToStream src = st.cfg.seqToStream dst)
    (e : st.seqCp src dst p0 p1 = (st', .ok ())) (x i : Nat) :
    dst ∈ (st'.cells x).seq i ↔ dst ∈ (st.cells x).seq i ∨
      x = st.cfg.seqToStream src ∧
        ((st.cells x).cell i).Holds src (rangeBegin p0) (rangeEnd p1) := by
  have hin : ((st.cells x).cell i).Holds src (rangeBegin p0) (rangeEnd p1) →
      i < (st.cells x).size := fun hi => by
    have hm := (mem_heldCells (h.cells x).toCellsOk).mpr hi
    exact Finset.mem_range.mp (Finset.mem_filter.mp hm).1
  rw [← cell_seq, seqCp_cell hs e]
  by_cases hd : src = dst
  · subst hd
    rw [if_neg fun hn => hn.1 rfl, cell_seq]
    exact ⟨.inl, fun ho => ho.elim id fun hx => hx.2.2.2⟩
  · split
    · next hx => rw [mem_cpSeq, cell_seq]; simp [hx.2.1]
    · next hx =>
      rw [cell_seq]
      exact ⟨.inl, fun ho => ho.elim id fun ⟨hst, hi⟩ => absurd ⟨hd, hst, hin hi⟩ hx⟩

/-- A second copy leaves the contents of the cells. -/
theorem seqCp_cell_again (hs : st.cfg.seqToStream src = st.cfg.seqToStream dst)
    (e : st.seqCp src dst p0 p1 = (st', .ok ()))
    (e' : st'.seqCp src dst p0 p1 = (st'', .ok ())) (x i : Nat) :
    (st''.cells x).cell i = (st'.cells x).cell i := by
  have hcfg := (seqCp_cells hs e).1
  rw [seqCp_cell (by rwa [hcfg]) e', seqCp_cell hs e x i, seqCp_size hs e, hcfg]
  split
  · exact cpSeq_cpSeq src dst _ _ _
  · rfl

/-- The counts after a copy are exact if and only if it meets what `seq_add` asserts. -/
theorem Inv.seqCp_inv_iff (h : st.Inv) (hs : st.cfg.seqToStream src = st.cfg.seqToStream dst)
    (e : st.seqCp src dst p0 p1 = (st', .ok ())) :
    (st'.cells (st.cfg.seqToStream src)).Inv ↔ src = dst ∨
      ∀ i, ((st.cells (st.cfg.seqToStream src)).cell i).Holds src (rangeBegin p0) (rangeEnd p1) →
        dst ∉ (st.cells (st.cfg.seqToStream src)).seq i := by
  obtain ⟨-, hlt, hcells⟩ := seqCp_cells hs e
  rw [hcells]
  have hc := (h.cells (st.cfg.seqToStream src)).toCellsOk
  by_cases hd : src = dst
  · simp only [hd, true_or, iff_true]
    exact hd ▸ hc.toInv
  · rw [if_neg hd, update_self, or_iff_right hd]
    exact cpCell_sweep_inv_iff hc (lt_maxSeq_of_stream hd hs hlt)

/-- A second copy leaves the counts if and only if there was nothing to copy. -/
theorem Inv.seqCp_again_iff (h : st.Inv) (hs : st.cfg.seqToStream src = st.cfg.seqToStream dst)
    (e : st.seqCp src dst p0 p1 = (st', .ok ()))
    (e' : st'.seqCp src dst p0 p1 = (st'', .ok ())) :
    st''.cells = st'.cells ↔ src = dst ∨
      ∀ i, ¬ ((st.cells (st.cfg.seqToStream src)).cell i).Holds src (rangeBegin p0)
        (rangeEnd p1) := by
  obtain ⟨hcfg, hlt, hcells⟩ := seqCp_cells hs e
  obtain ⟨-, -, hcells'⟩ := seqCp_cells (by rwa [hcfg]) e'
  by_cases hd : src = dst
  · simp [hcells', hd]
  rw [if_neg hd] at hcells hcells'
  rw [or_iff_right hd, hcells', hcfg, update_eq_self_iff]
  have hc := (h.cells (st.cfg.seqToStream src)).toCellsOk
  rw [hcells, update_self]
  constructor
  · intro hsame i hi
    have hused := congrFun (congrArg seqUsed hsame) dst
    rw [cpCell_sweep_used] at hused
    have hnone := card_eq_zero.mp (Nat.add_eq_left.mp hused)
    have hmem : i ∈ heldCells (sweep (cpCell src dst (rangeBegin p0) (rangeEnd p1))
        (st.cells (st.cfg.seqToStream src))).1 src (rangeBegin p0) (rangeEnd p1) := by
      rw [heldCells, Finset.mem_filter, cpCell_sweep_size, holds_cpCell_sweep]
      exact ⟨(Finset.mem_filter.mp ((mem_heldCells hc).mpr hi)).1, hi⟩
    exact absurd hmem (hnone ▸ notMem_empty i)
  · exact fun hnone => cpCell_sweep_none fun i hi => hnone i (holds_cpCell_sweep.mp hi)

/-- In a run whose calls meet what they assert, a copy in one stream keeps the counts exact if and
only if no cell that it copies has the sequence already; a second one counts each of them again. -/
theorem reach_seqCp_iff (h : sys.Reach (fun st op => op.KeepsUsed st) st)
    (hs : st.cfg.seqToStream src = st.cfg.seqToStream dst)
    (e : st.seqCp src dst p0 p1 = (st', .ok ()))
    (e' : st'.seqCp src dst p0 p1 = (st'', .ok ())) :
    (CopyExact st st' st'' src dst p0 p1 ↔ src = dst ∨
      ∀ i, ((st.cells (st.cfg.seqToStream src)).cell i).Holds src (rangeBegin p0) (rangeEnd p1) →
        dst ∉ (st.cells (st.cfg.seqToStream src)).seq i) ∧
    (st''.cells = st'.cells ↔ src = dst ∨
      ∀ i, ¬ ((st.cells (st.cfg.seqToStream src)).cell i).Holds src (rangeBegin p0)
        (rangeEnd p1)) := by
  have hinv := h.inv inv_inductive
  refine ⟨⟨fun hc => (hinv.seqCp_inv_iff hs e).mp hc.inv, fun hc => ?_⟩,
    hinv.seqCp_again_iff hs e e'⟩
  exact ⟨(hinv.seqCp_inv_iff hs e).mpr hc, seqCp_cell_again hs e e', hinv.seqCp_union hs e⟩

/-- A unified cache of two cells with a token of the sequences at position `0`. -/
def twoCellsWith (seqs : List Nat) : COut Unit :=
  twoCells.applyUbatch ⟨0, 0, [0], [[0]]⟩ ⟨[⟨0, {}, seqs⟩], seqs, false⟩

theorem twoCellsWith_reach (seqs : List Nat) (hn : seqs.Nodup) (hl : ∀ s ∈ seqs, s < LLAMA_MAX_SEQ)
    (e : (twoCellsWith seqs).2 = .ok ()) :
    sys.Reach (fun st op => op.KeepsUsed st) (twoCellsWith seqs).1 := by
  refine sys_call (twoCells_reach _)
    (.applyUbatch ⟨0, 0, [0], [[0]]⟩ ⟨[⟨0, {}, seqs⟩], seqs, false⟩)
    (fun p hp => ?_) trivial (COut.eq_of_snd e)
  have hp' : p = ⟨0, 0, ⟨0, {}, seqs⟩, 0⟩ := by
    simpa [SlotInfo.placements, SlotInfo.cells] using hp
  subst hp'
  exact ⟨Nat.zero_lt_two, Int.le_refl 0, hn, hl, fun _ _ => rfl⟩

set_option maxRecDepth 20000 in
/-- A copy to a sequence that has no cell yet. -/
theorem twoCellsWith_seqCp_exact :
    CopyExact (twoCellsWith [0]).1 ((twoCellsWith [0]).1.seqCp 0 1 (-1) (-1)).1
      (((twoCellsWith [0]).1.seqCp 0 1 (-1) (-1)).1.seqCp 0 1 (-1) (-1)).1 0 1 (-1) (-1) := by
  have hr := twoCellsWith_reach [0] (by decide) (by decide) (by decide +kernel)
  have e : ((twoCellsWith [0]).1.seqCp 0 1 (-1) (-1)).2 = .ok () := by decide +kernel
  have e' : (((twoCellsWith [0]).1.seqCp 0 1 (-1) (-1)).1.seqCp 0 1 (-1) (-1)).2 = .ok () := by
    decide +kernel
  have hs : (twoCellsWith [0]).1.cfg.seqToStream 0 = (twoCellsWith [0]).1.cfg.seqToStream 1 := by
    decide +kernel
  refine (reach_seqCp_iff hr hs (COut.eq_of_snd e) (COut.eq_of_snd e')).1.mpr (.inr fun i hi => ?_)
  have hfree : ∀ i, ((twoCellsWith [0]).1.cells 0).isEmpty (i + 1) = true := fun _ => rfl
  cases i with
  | zero => decide +kernel
  | succ i => exact absurd (hi.1.trans_eq (eq_of_beq (hfree i))) (by decide)

/-- A copy to a sequence that has the cell already counts the cell twice. -/
theorem seqCp_not_exact : ¬ ∀ (st st' st'' : KvCache) (src dst : Nat) (p0 p1 : Int),
    sys.Reach (fun st op => op.KeepsUsed st) st →
      st.cfg.seqToStream src = st.cfg.seqToStream dst →
      st.seqCp src dst p0 p1 = (st', .ok ()) → st'.seqCp src dst p0 p1 = (st'', .ok ()) →
        CopyExact st st' st'' src dst p0 p1 := by
  intro h
  have hr := twoCellsWith_reach [0, 1] (by decide) (by decide) (by decide +kernel)
  have hk := h _ _ _ 0 1 (-1) (-1) hr (by decide +kernel) (COut.eq_of_snd (by decide +kernel))
    (COut.eq_of_snd (by decide +kernel))
  exact absurd (hk.inv.readers.seqSize 1) (by decide +kernel)

end Copy

end KvCache
end BeeLlama
