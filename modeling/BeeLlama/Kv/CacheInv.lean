import BeeLlama.Kv.CacheCells
import BeeLlama.Kv.TailCopy
import BeeLlama.Kv.Ubatch

/-!
# The invariant of the KV cache

`KvCache.Inv`: the cells of each stream keep `CellsOk` and hold only sequences of the stream, and
the tail store keeps its own invariant. Every operation keeps it when it returns and meets what it
asserts. The loops of an operation are known by the lemmas of `BeeLlama/Kv/CacheCells.lean`, its
calls of the tail store by those of `BeeLlama/Kv/TailInv.lean` and `BeeLlama/Kv/TailCopy.lean`.
-/

namespace BeeLlama.KvCache

open KvCells KvCache

/-- The cells of stream `x` are well formed and hold sequences of the stream. -/
structure StreamOk (cfg : CacheCfg) (x : Nat) (c : KvCells) : Prop extends
    CellsOk cfg.kvSize c where
  stream : ∀ i s, s ∈ c.seq i → cfg.seqToStream s = x

theorem StreamOk.of_subset {cfg : CacheCfg} {x : Nat} {c c' : KvCells} (h : StreamOk cfg x c)
    (hc : c'.CellsOk cfg.kvSize) (hsub : ∀ i, (c'.cell i).seq ⊆ (c.cell i).seq) :
    StreamOk cfg x c' :=
  ⟨hc, fun i s hs => h.stream i s (hsub i hs)⟩

/-- A loop that gives no cell another sequence. -/
theorem StreamOk.sweep {cfg : CacheCfg} {x : Nat} {c c' : KvCells} {g : Cell → Cell}
    (h : StreamOk cfg x c)
    (hc : c'.CellsOk cfg.kvSize ∧ ∀ j, c'.cell j = if j < c.size then g (c.cell j) else c.cell j)
    (hg : ∀ k : Cell, (g k).seq ⊆ k.seq) : StreamOk cfg x c' := by
  refine h.of_subset hc.1 fun i => ?_
  rw [hc.2 i]
  split
  · exact hg _
  · exact Finset.Subset.refl _

/-- The cells of the streams and the tail are well formed. -/
structure Inv (st : KvCache) : Prop where
  cells : ∀ x, StreamOk st.cfg x (st.cells x)
  tail : ∀ t, st.tail = some t → t.Inv

/-! ## Calls in sequence -/

section Sequence

variable {α β : Type} {st st' : KvCache}

theorem andThen_ok {o : COut α} {f : KvCache → α → COut β} {b : β}
    (e : andThen o f = (st', .ok b)) : ∃ st₁ a, o = (st₁, .ok a) ∧ f st₁ a = (st', .ok b) := by
  obtain ⟨st₁, r⟩ := o
  cases r with
  | error e' => cases (Prod.mk.inj e).2
  | ok a => exact ⟨st₁, a, rfl, e⟩

variable {f : TailStore → TailStore × Except TailError α}

theorem onTail_ok (e : st.onTail f = (st', .ok ())) : (st.tail = none ∧ st' = st) ∨
      ∃ t t' a, st.tail = some t ∧ f t = (t', .ok a) ∧ st' = { st with tail := some t' } := by
  unfold onTail at e
  split at e
  · next h => exact .inl ⟨h, (Prod.mk.inj e).1.symm⟩
  · next t h =>
    right
    split at e
    · cases e
    · next t' a hf => exact ⟨t, t', a, h, hf, (Prod.mk.inj e).1.symm⟩

theorem Inv.onTail (h : st.Inv) (hf : ∀ t t' a, t.Inv → f t = (t', .ok a) → t'.Inv)
    (e : st.onTail f = (st', .ok ())) : st'.Inv ∧ st'.cfg = st.cfg := by
  rcases onTail_ok e with ⟨-, rfl⟩ | ⟨t, t', a, ht, ha, rfl⟩
  · exact ⟨h, rfl⟩
  · refine ⟨⟨h.cells, fun t1 h1 => ?_⟩, rfl⟩
    cases h1
    exact hf t t' a (h.tail t ht) ha

end Sequence

/-! ## Changes of one component -/

section Frame

variable {st : KvCache}

@[simp] theorem setCells_cfg (x : Nat) (c : KvCells) : (st.setCells x c).cfg = st.cfg := rfl
@[simp] theorem setHead_cfg (x head : Nat) : (st.setHead x head).cfg = st.cfg := rfl
@[simp] theorem sweepStream_cfg (x : Nat) (f : KvCells → Nat → KvCells × Bool) :
    (st.sweepStream x f).cfg = st.cfg := rfl

theorem Inv.setCells (h : st.Inv) {x : Nat} {c : KvCells} (hc : StreamOk st.cfg x c) :
    (st.setCells x c).Inv := by
  refine ⟨fun y => ?_, h.tail⟩
  by_cases e : y = x
  · subst e; simpa [KvCache.setCells] using hc
  · simpa [KvCache.setCells, e] using h.cells y

theorem Inv.setHead (h : st.Inv) (x head : Nat) : (st.setHead x head).Inv := ⟨h.cells, h.tail⟩

theorem rebuildAllocationHead_eq (st : KvCache) (s : Nat) : ∃ heads,
    st.rebuildAllocationHead s = { st with allocationSeqHeads := heads } := by
  unfold rebuildAllocationHead
  split
  · exact ⟨_, rfl⟩
  · exact ⟨_, rfl⟩

theorem rebuildAllocationHeads_eq (st : KvCache) : ∃ heads,
    st.rebuildAllocationHeads = { st with allocationSeqHeads := heads } := by
  unfold rebuildAllocationHeads
  induction List.range st.cfg.nSeqMax generalizing st with
  | nil => exact ⟨_, rfl⟩
  | cons s l ih =>
    obtain ⟨h1, e1⟩ := rebuildAllocationHead_eq st s
    obtain ⟨h2, e2⟩ := ih (st.rebuildAllocationHead s)
    refine ⟨h2, ?_⟩
    rw [List.foldl_cons, e2, e1]

@[simp] theorem rebuildAllocationHead_cfg (s : Nat) :
    (st.rebuildAllocationHead s).cfg = st.cfg := by
  obtain ⟨heads, e⟩ := rebuildAllocationHead_eq st s
  rw [e]

theorem rebuildAllocationHead_cells (s : Nat) : (st.rebuildAllocationHead s).cells = st.cells := by
  obtain ⟨heads, e⟩ := rebuildAllocationHead_eq st s
  rw [e]

@[simp] theorem rebuildAllocationHeads_cfg : st.rebuildAllocationHeads.cfg = st.cfg := by
  obtain ⟨heads, e⟩ := rebuildAllocationHeads_eq st
  rw [e]

theorem Inv.rebuildAllocationHead (h : st.Inv) (s : Nat) : (st.rebuildAllocationHead s).Inv := by
  obtain ⟨heads, e⟩ := rebuildAllocationHead_eq st s
  rw [e]
  exact ⟨h.cells, h.tail⟩

theorem Inv.rebuildAllocationHeads (h : st.Inv) : st.rebuildAllocationHeads.Inv := by
  obtain ⟨heads, e⟩ := rebuildAllocationHeads_eq st
  rw [e]
  exact ⟨h.cells, h.tail⟩

/-- `mark_if_incomplete` changes the tail only. -/
theorem markIfIncomplete_eq (st : KvCache) (s : Nat) :
    st.markIfIncomplete s = st ∨ ∃ t, st.tail = some t ∧ st.markIfIncomplete s =
      { st with tail := some (t.markDegraded s LLAMA_KV_TAIL_DEGRADED_HISTORICAL_OP) } := by
  unfold markIfIncomplete
  split
  · exact .inl rfl
  · next t ht =>
    split
    · exact .inr ⟨t, ht, rfl⟩
    · exact .inl rfl

@[simp] theorem markIfIncomplete_cfg (s : Nat) : (st.markIfIncomplete s).cfg = st.cfg := by
  rcases markIfIncomplete_eq st s with e | ⟨t, ht, e⟩ <;> rw [e]

theorem markIfIncomplete_cells (s : Nat) : (st.markIfIncomplete s).cells = st.cells := by
  rcases markIfIncomplete_eq st s with e | ⟨t, -, e⟩ <;> rw [e]

theorem Inv.markIfIncomplete (h : st.Inv) (s : Nat) : (st.markIfIncomplete s).Inv := by
  rcases markIfIncomplete_eq st s with e | ⟨t, ht, e⟩
  · rw [e]; exact h
  · rw [e]
    refine ⟨h.cells, fun t1 h1 => ?_⟩
    cases h1
    exact (h.tail t ht).markDegraded

theorem Inv.foldl_mark (h : st.Inv) (seqs : List Nat) :
    (seqs.foldl (fun st s => st.markIfIncomplete s) st).Inv ∧
      (seqs.foldl (fun st s => st.markIfIncomplete s) st).cfg = st.cfg := by
  induction seqs generalizing st with
  | nil => exact ⟨h, rfl⟩
  | cons s l ih =>
    obtain ⟨h', hcfg⟩ := ih (h.markIfIncomplete s)
    exact ⟨h', hcfg.trans (markIfIncomplete_cfg s)⟩

theorem Inv.sweepStream (h : st.Inv) {x : Nat} {f : KvCells → Nat → KvCells × Bool}
    (hf : StreamOk st.cfg x (sweep f (st.cells x)).1) : (st.sweepStream x f).Inv :=
  (h.setCells hf).setHead x _

theorem Inv.foldl_rmAny (h : st.Inv) (streams : List Nat) (p0 p1 : Int) :
    (streams.foldl (fun st x => st.sweepStream x (rmAnyCell p0 p1)) st).Inv ∧
      (streams.foldl (fun st x => st.sweepStream x (rmAnyCell p0 p1)) st).cfg = st.cfg := by
  induction streams generalizing st with
  | nil => exact ⟨h, rfl⟩
  | cons x l ih =>
    exact ih (h.sweepStream ((h.cells x).sweep (rmAny_sweep (h.cells x).toCellsOk p0 p1)
      fun k => k.rmAny_seq_subset p0 p1))

theorem Inv.markMoved (h : st.Inv) (s : Nat) (moved : Bool) (p0 p1 : Int) :
    (st.markMoved s moved p0 p1).Inv ∧ (st.markMoved s moved p0 p1).cfg = st.cfg := by
  unfold KvCache.markMoved
  split
  · refine ⟨⟨h.cells, fun t ht => ?_⟩, rfl⟩
    obtain ⟨t0, ht0, rfl⟩ := Option.map_eq_some_iff.mp ht
    exact (h.tail t0 ht0).markDegraded
  · exact ⟨h, rfl⟩

variable {st' : KvCache}

theorem Inv.materializePendingCopies (h : st.Inv)
    (e : st.materializePendingCopies = (st', .ok ())) : st'.Inv ∧ st'.cfg = st.cfg := by
  unfold KvCache.materializePendingCopies at e
  split at e
  · cases e
    exact ⟨h, rfl⟩
  · obtain ⟨st1, a, e1, e2⟩ := andThen_ok e
    cases e2
    have h0 : ({ st with rows := copyRows st.scInfo st.rows } : KvCache).Inv := ⟨h.cells, h.tail⟩
    simp only at e1
    split at e1
    · obtain ⟨h1, hcfg⟩ := h0.onTail (fun t t' a ht et => ht.commitSeqCp et) e1
      exact ⟨⟨h1.cells, h1.tail⟩, hcfg⟩
    · cases e1
      exact ⟨⟨h.cells, h.tail⟩, rfl⟩

theorem onTail_eq {α : Type} {f : TailStore → TailStore × Except TailError α}
    (e : st.onTail f = (st', .ok ())) :
    ∃ tail, st' = { st with tail := tail } ∧ (st.tail = none → tail = none) := by
  rcases onTail_ok e with ⟨h, rfl⟩ | ⟨t, t', a, ht, -, rfl⟩
  · exact ⟨_, rfl, fun _ => h⟩
  · exact ⟨_, rfl, fun h => by rw [ht] at h; cases h⟩

/-- `materialize_pending_copies` changes the tail, the pending copies and the rows. -/
theorem materializePendingCopies_eq (e : st.materializePendingCopies = (st', .ok ())) :
    ∃ tail sc rows, st' = { st with tail := tail, scInfo := sc, rows := rows } ∧
      (st.tail = none → tail = none) := by
  unfold materializePendingCopies at e
  split at e
  · cases e
    exact ⟨_, _, _, rfl, id⟩
  · obtain ⟨st1, a, e1, e2⟩ := andThen_ok e
    cases e2
    simp only at e1
    split at e1
    · obtain ⟨tail, rfl, ht⟩ := onTail_eq e1
      exact ⟨_, _, _, rfl, ht⟩
    · cases e1
      exact ⟨_, _, _, rfl, id⟩

theorem materializePendingCopies_cells
    (e : st.materializePendingCopies = (st', .ok ())) : st'.cells = st.cells := by
  obtain ⟨_, _, _, rfl, -⟩ := materializePendingCopies_eq e
  rfl

theorem queueTailCopies_cells {src dst : Nat} {p0 p1 : Int}
    (e : st.queueTailCopies src dst p0 p1 = (st', .ok ())) : st'.cells = st.cells := by
  unfold queueTailCopies at e
  split at e
  · rw [(Prod.mk.inj e).1]
  · split at e
    · cases e
    · cases e
      rfl

theorem queueTailCopies_cfg {src dst : Nat} {p0 p1 : Int}
    (e : st.queueTailCopies src dst p0 p1 = (st', .ok ())) :
    st'.cfg = st.cfg := by
  unfold queueTailCopies at e
  split at e
  · rw [(Prod.mk.inj e).1]
  · split at e
    · cases e
    · cases e
      rfl

end Frame

/-! ## Sequence operations -/

section Seq

variable {st st' : KvCache}

variable {p0 p1 : Int} {s : Nat} {src dst : Nat}

theorem Inv.tailSeqRm {seqs : List Nat} :
    ∀ {st : KvCache}, st.Inv → st.tailSeqRm seqs p0 p1 = (st', .ok ()) →
      st'.Inv ∧ st'.cfg = st.cfg := by
  have key : ∀ (seqs : List Nat) (o : COut Unit),
      seqs.foldl (fun o s => andThen o fun st _ => st.onTail fun t => t.seqRm s p0 p1) o =
        (st', .ok ()) → ∃ st1, o = (st1, .ok ()) ∧ (st1.Inv → st'.Inv ∧ st'.cfg = st1.cfg) := by
    intro seqs
    induction seqs with
    | nil => exact fun o e => ⟨st', e, fun h => ⟨h, rfl⟩⟩
    | cons s l ih =>
      intro o e
      obtain ⟨st2, e2, h2⟩ := ih _ e
      obtain ⟨st1, a, e1, e3⟩ := andThen_ok e2
      refine ⟨st1, e1, fun h => ?_⟩
      obtain ⟨h', hcfg⟩ := h.onTail (fun t t' a ht et => by
        have := (ht.seqRm s p0 p1).2
        rwa [et] at this) e3
      exact ⟨(h2 h').1, (h2 h').2.trans hcfg⟩
  intro st h e
  obtain ⟨st1, e1, h1⟩ := key seqs _ e
  cases e1
  exact h1 h

theorem tailSeqRm_eq : ∀ {seqs : List Nat} {st : KvCache}, st.tailSeqRm seqs p0 p1 = (st', .ok ()) →
      ∃ tail, st' = { st with tail := tail } ∧ (st.tail = none → tail = none) := by
  have key : ∀ (seqs : List Nat) (o : COut Unit),
      seqs.foldl (fun o s => andThen o fun st _ => st.onTail fun t => t.seqRm s p0 p1) o =
        (st', .ok ()) → ∃ st1, o = (st1, .ok ()) ∧
          ∃ tail, st' = { st1 with tail := tail } ∧ (st1.tail = none → tail = none) := by
    intro seqs
    induction seqs with
    | nil => exact fun o e => ⟨st', e, _, rfl, id⟩
    | cons s l ih =>
      intro o e
      obtain ⟨st2, e2, tail2, rfl, ht2⟩ := ih _ e
      obtain ⟨st1, a, e1, e3⟩ := andThen_ok e2
      obtain ⟨tail1, rfl, ht1⟩ := onTail_eq e3
      exact ⟨st1, e1, tail2, rfl, fun h => ht2 (ht1 h)⟩
  intro seqs st e
  obtain ⟨st1, e1, h⟩ := key seqs _ e
  cases e1
  exact h

/-- `seq_rm` of a sequence: the loop over the cells of its stream, and changes of the heads, the
tail, the pending copies and the rows. -/
theorem seqRmUnchecked_eq (e : st.seqRmUnchecked s p0 p1 = (st', .ok ())) :
    ∃ heads alloc tail sc rows, st' = { st with
        cells := Function.update st.cells (st.cfg.seqToStream s)
          (sweep (rmCell s (rangeBegin p0) (rangeEnd p1)) (st.cells (st.cfg.seqToStream s))).1
        heads := heads
        allocationSeqHeads := alloc
        tail := tail
        scInfo := sc
        rows := rows } ∧
      (∀ y, y ≠ st.cfg.seqToStream s → heads y = st.heads y) ∧ (st.tail = none → tail = none) := by
  obtain ⟨st1, u1, e1, e⟩ := andThen_ok e
  obtain ⟨tail1, sc, rows, rfl, ht1⟩ := materializePendingCopies_eq e1
  split at e
  · obtain ⟨st2, u2, e2, e⟩ := andThen_ok e
    obtain ⟨tail2, rfl, ht2⟩ := tailSeqRm_eq e2
    cases e
    obtain ⟨alloc, ea⟩ := rebuildAllocationHead_eq (markIfIncomplete
      (sweepStream { st with tail := tail2, scInfo := sc, rows := rows }
        (st.cfg.seqToStream s) (rmCell s (rangeBegin p0) (rangeEnd p1))) s) s
    obtain ⟨heads, hh, em⟩ : ∃ heads, (∀ y, y ≠ st.cfg.seqToStream s → heads y = st.heads y) ∧
        sweepStream { st with tail := tail2, scInfo := sc, rows := rows }
          (st.cfg.seqToStream s) (rmCell s (rangeBegin p0) (rangeEnd p1)) =
        { st with
          cells := Function.update st.cells (st.cfg.seqToStream s)
            (sweep (rmCell s (rangeBegin p0) (rangeEnd p1)) (st.cells (st.cfg.seqToStream s))).1
          heads := heads, tail := tail2, scInfo := sc, rows := rows } :=
      ⟨_, fun y hy => Function.update_of_ne hy _ _, rfl⟩
    rw [ea, em]
    rcases markIfIncomplete_eq (mk _ _ _ _ _ _ _ _ _ _ _ _) s with ei | ⟨t, ht, ei⟩
    · rw [ei]
      exact ⟨heads, alloc, tail2, sc, rows, rfl, hh, fun h => ht2 (ht1 h)⟩
    · rw [ei]
      refine ⟨heads, alloc, _, sc, rows, rfl, hh, fun h => ?_⟩
      have ht' : tail2 = some t := ht
      rw [ht2 (ht1 h)] at ht'
      cases ht'
  · cases e

theorem Inv.seqRmUnchecked (h : st.Inv)
    (e : st.seqRmUnchecked s p0 p1 = (st', .ok ())) : st'.Inv ∧ st'.cfg = st.cfg := by
  obtain ⟨st1, u1, e1, e⟩ := andThen_ok e
  obtain ⟨h1, hcfg1⟩ := h.materializePendingCopies e1
  split at e
  · obtain ⟨st2, u2, e2, e⟩ := andThen_ok e
    obtain ⟨h2, hcfg2⟩ := h1.tailSeqRm e2
    cases e
    have hc := h2.cells (st2.cfg.seqToStream s)
    have h3 := h2.sweepStream (hc.sweep (rmSeq_sweep hc.toCellsOk s (rangeBegin p0) (rangeEnd p1))
      fun k => k.rmSeq_seq_subset s _ _)
    exact ⟨(h3.markIfIncomplete s).rebuildAllocationHead s, by simp [hcfg1, hcfg2]⟩
  · cases e

theorem Inv.seqRmAllUnchecked (h : st.Inv)
    (e : st.seqRmAllUnchecked p0 p1 = (st', .ok ())) : st'.Inv ∧ st'.cfg = st.cfg := by
  obtain ⟨st1, u1, e1, e⟩ := andThen_ok e
  obtain ⟨h1, hcfg1⟩ := h.materializePendingCopies e1
  obtain ⟨st2, u2, e2, e⟩ := andThen_ok e
  obtain ⟨h2, hcfg2⟩ := h1.tailSeqRm e2
  cases e
  obtain ⟨h3, hcfg3⟩ := h2.foldl_rmAny (List.range st2.cfg.nStream) (rangeBegin p0) (rangeEnd p1)
  rw [hcfg3]
  obtain ⟨h4, hcfg4⟩ := h3.foldl_mark (List.range st2.cfg.nSeqMax)
  exact ⟨h4.rebuildAllocationHeads, by
    rw [rebuildAllocationHeads_cfg, hcfg4, hcfg3, hcfg2, hcfg1]⟩

theorem Inv.seqRm {seqId p0 p1 : Int} {r : Bool} (h : st.Inv)
    (e : st.seqRm seqId p0 p1 = (st', .ok r)) : st'.Inv ∧ st'.cfg = st.cfg := by
  unfold KvCache.seqRm at e
  split at e
  · cases e
    exact ⟨h, rfl⟩
  · obtain ⟨st1, u1, e1, e⟩ := andThen_ok e
    cases e
    split at e1
    · exact h.seqRmAllUnchecked e1
    · split at e1
      · exact h.seqRmUnchecked e1
      · obtain ⟨st2, u2, -, e2⟩ := andThen_ok e1
        cases e2

theorem CellsOk.seqRmCell {n i s : Nat} {c : KvCells} (h : c.CellsOk n) (hi : i < n) :
    (c.seqRmCell i s).1.CellsOk n := by
  unfold KvCells.seqRmCell
  split
  · exact h
  · next hs =>
    simp only [not_or, not_not] at hs
    exact h.update hi (h.toInv.seqRm (by rwa [h.size]) hs.2) (seqRm_size c i s)
      (fun j => seqRm_cell c i j s) ((h.ok i).erase s)

theorem seqRmCell_seq_subset {c : KvCells} {i j s : Nat} :
    ((c.seqRmCell i s).1.cell j).seq ⊆ (c.cell j).seq := by
  rw [seqRmCell_cell]
  split
  · next h => rw [h.1]; exact (c.cell i).erase_seq_subset s
  · exact Finset.Subset.refl _

theorem Inv.seqRmCell {s cellIdx : Nat} (h : st.Inv) (hi : cellIdx < st.cfg.kvSize)
    (e : st.seqRmCell s cellIdx = (st', .ok ())) : st'.Inv ∧ st'.cfg = st.cfg := by
  have hc := h.cells (st.cfg.seqToStream s)
  have h0 := h.setCells (hc.of_subset (CellsOk.seqRmCell (s := s) hc.toCellsOk hi) fun j =>
    seqRmCell_seq_subset)
  unfold KvCache.seqRmCell at e
  split at e
  · dsimp only at e
    split at e
    · obtain ⟨st1, u1, e1, e⟩ := andThen_ok e
      cases e
      obtain ⟨h1, hcfg1⟩ := h0.onTail (fun t t' a ht et => by
        have : (t.seqRmCell s (st.cfg.seqToStream s) cellIdx).1.Inv := ht.seqRmCell.2
        rwa [et] at this) e1
      exact ⟨((h1.markIfIncomplete s).setHead _ _).rebuildAllocationHead s, by simp [hcfg1]⟩
    · cases e
      exact ⟨h0, rfl⟩
  · cases e

theorem Inv.queueTailCopies (h : st.Inv)
    (e : st.queueTailCopies src dst p0 p1 = (st', .ok ())) : st'.Inv ∧ st'.cfg = st.cfg := by
  unfold KvCache.queueTailCopies at e
  split at e
  · cases e
    exact ⟨h, rfl⟩
  · next t ht =>
    split at e
    · cases e
    · next t' copies ec =>
      cases e
      refine ⟨⟨h.cells, fun t1 h1 => ?_⟩, rfl⟩
      cases h1
      exact (h.tail t ht).prepareSeqCp ec

theorem Inv.seqCpStream (h : st.Inv) (hlt : dst < LLAMA_MAX_SEQ)
    (hstream : st.cfg.seqToStream src = st.cfg.seqToStream dst)
    (hdst : src ≠ dst → ∀ i, ((st.cells (st.cfg.seqToStream src)).cell i).Holds src (rangeBegin p0)
      (rangeEnd p1) → dst ∉ (st.cells (st.cfg.seqToStream src)).seq i)
    (e : st.seqCpStream src dst p0 p1 = (st', .ok ())) : st'.Inv ∧ st'.cfg = st.cfg := by
  obtain ⟨st1, u1, e1, e⟩ := andThen_ok e
  obtain ⟨h1, hcfg1⟩ := h.queueTailCopies e1
  have hcells : st1.cells = st.cells := queueTailCopies_cells e1
  split at e
  · cases e
    exact ⟨h1, hcfg1⟩
  · next hne =>
    cases e
    rw [← hcells, ← hcfg1] at hdst
    rw [← hcfg1] at hstream
    have hc := h1.cells (st1.cfg.seqToStream src)
    obtain ⟨hok, hcell⟩ := cpSeq_sweep hc.toCellsOk (hdst hne) hlt
    have h2 := h1.setCells (x := st1.cfg.seqToStream src) ⟨hok, fun i s hs => by
      have hs' : s ∈ ((sweep (cpCell src dst (rangeBegin p0) (rangeEnd p1))
        (st1.cells (st1.cfg.seqToStream src))).1.cell i).seq := hs
      rw [hcell i] at hs'
      split at hs'
      · rcases Finset.mem_insert.mp (Cell.cpSeq_seq_subset _ src _ _ dst hs') with rfl | hs'
        · exact hstream.symm
        · exact hc.stream i s hs'
      · exact hc.stream i s hs'⟩
    exact ⟨(h2.markIfIncomplete dst).rebuildAllocationHead dst, by simp [hcfg1]⟩

theorem Inv.copyStream (h : st.Inv) (hlt : dst < LLAMA_MAX_SEQ)
    (hpos : ∀ i, src ∈ (st.cells (st.cfg.seqToStream src)).seq i →
      (st.cells (st.cfg.seqToStream src)).pos i -
        (st.cells (st.cfg.seqToStream src)).shift i ≠ -1) :
    (st.copyStream src dst).Inv := by
  obtain ⟨hok, hcell⟩ := copyCells_spec (h.cells (st.cfg.seqToStream src)).toCellsOk
    (h.cells (st.cfg.seqToStream dst)).size hlt hpos
  have := h.setCells (x := st.cfg.seqToStream dst) ⟨hok, fun i s hs => by
    rw [← cell_seq, hcell i] at hs
    split at hs
    · rw [Finset.mem_singleton.mp hs]
    · exact absurd hs (Finset.notMem_empty s)⟩
  exact ⟨this.cells, this.tail⟩

/-- What `seq_cp` asserts of the cells: no cell has the sequence already, and across streams no
copied cell passes through the position `-1`. -/
structure CpAsserts (st : KvCache) (src dst : Nat) (p0 p1 : Int) : Prop where
  lt : dst < LLAMA_MAX_SEQ
  fresh : src ≠ dst → st.cfg.seqToStream src = st.cfg.seqToStream dst → ∀ i,
    ((st.cells (st.cfg.seqToStream src)).cell i).Holds src (rangeBegin p0) (rangeEnd p1) →
      dst ∉ (st.cells (st.cfg.seqToStream src)).seq i
  pos : st.cfg.seqToStream src ≠ st.cfg.seqToStream dst → ∀ i,
    src ∈ (st.cells (st.cfg.seqToStream src)).seq i →
      (st.cells (st.cfg.seqToStream src)).pos i - (st.cells (st.cfg.seqToStream src)).shift i ≠ -1

theorem Inv.seqCp (h : st.Inv) (ha : st.CpAsserts src dst p0 p1)
    (e : st.seqCp src dst p0 p1 = (st', .ok ())) : st'.Inv ∧ st'.cfg = st.cfg := by
  obtain ⟨st1, u1, e1, e⟩ := andThen_ok e
  obtain ⟨h1, hcfg1⟩ := h.materializePendingCopies e1
  have hcells : st1.cells = st.cells := materializePendingCopies_cells e1
  have ha1 : st1.CpAsserts src dst p0 p1 := by
    refine ⟨ha.lt, ?_, ?_⟩
    · rw [hcells, hcfg1]; exact ha.fresh
    · rw [hcells, hcfg1]; exact ha.pos
  split at e
  · split at e
    · next hstream =>
      obtain ⟨h2, hcfg2⟩ := h1.seqCpStream ha1.lt hstream (fun hne => ha1.fresh hne hstream) e
      exact ⟨h2, hcfg2.trans hcfg1⟩
    · next hstream =>
      split at e
      · obtain ⟨st2, u2, e2, e⟩ := andThen_ok e
        cases e
        obtain ⟨h2, hcfg2⟩ := (h1.copyStream ha1.lt (ha1.pos hstream)).queueTailCopies e2
        refine ⟨((h2.markIfIncomplete dst).setHead _ _).rebuildAllocationHead dst, ?_⟩
        simp only [rebuildAllocationHead_cfg, setHead_cfg, markIfIncomplete_cfg, hcfg2]
        exact hcfg1
      · cases e
  · cases e

theorem Inv.seqKeep (h : st.Inv) (e : st.seqKeep s = (st', .ok ())) :
    st'.Inv ∧ st'.cfg = st.cfg := by
  obtain ⟨st1, u1, e1, e⟩ := andThen_ok e
  obtain ⟨h1, hcfg1⟩ := h.materializePendingCopies e1
  split at e
  · obtain ⟨st2, u2, e2, e⟩ := andThen_ok e
    cases e
    obtain ⟨h2, hcfg2⟩ := h1.onTail (fun t t' a ht et => by
      have : (t.seqKeep s).1.Inv := ht.seqKeep.2
      rwa [et] at this) e2
    have hc := h2.cells (st2.cfg.seqToStream s)
    have h3 := h2.sweepStream (hc.sweep (keep_sweep hc.toCellsOk s) fun k => k.keep_seq_subset s)
    exact ⟨h3.rebuildAllocationHeads, by simp [hcfg1, hcfg2]⟩
  · cases e

theorem Inv.seqAdd {p0 p1 shift : Int} (h : st.Inv)
    (e : st.seqAdd s p0 p1 shift = (st', .ok ())) : st'.Inv ∧ st'.cfg = st.cfg := by
  obtain ⟨st1, u1, e1, e⟩ := andThen_ok e
  obtain ⟨h1, hcfg1⟩ := h.materializePendingCopies e1
  split at e
  · obtain ⟨st2, u2, e2, e⟩ := andThen_ok e
    obtain ⟨h2, hcfg2⟩ := h1.onTail (fun t t' a ht et => by
      have : (t.seqAdd s p0 p1 shift).1.Inv := ht.seqAdd.2
      rwa [et] at this) e2
    obtain ⟨h3, hcfg3⟩ := h2.markMoved s (decide (shift ≠ 0)) p0 p1
    split at e
    · cases e
      exact ⟨h3, hcfg3.trans (hcfg2.trans hcfg1)⟩
    · cases e
      have hc := h3.cells ((st2.markMoved s (decide (shift ≠ 0)) p0 p1).cfg.seqToStream s)
      refine ⟨((h3.setCells (hc.sweep (addSeq_sweep hc.toCellsOk s _ _ shift)
        fun k => k.addSeq_seq_subset s _ _ shift)).setHead _ _).rebuildAllocationHead s, ?_⟩
      rw [rebuildAllocationHead_cfg, setHead_cfg, setCells_cfg, hcfg3, hcfg2, hcfg1]
  · cases e

theorem Inv.seqDiv {p0 p1 d : Int} (h : st.Inv) (hd : 0 < d)
    (e : st.seqDiv s p0 p1 d = (st', .ok ())) : st'.Inv ∧ st'.cfg = st.cfg := by
  obtain ⟨st1, u1, e1, e⟩ := andThen_ok e
  obtain ⟨h1, hcfg1⟩ := h.materializePendingCopies e1
  split at e
  · obtain ⟨st2, u2, e2, e⟩ := andThen_ok e
    obtain ⟨h2, hcfg2⟩ := h1.onTail (fun t t' a ht et => by
      have : (t.seqDiv s p0 p1 d).1.Inv := ht.seqDiv.2
      rwa [et] at this) e2
    obtain ⟨h3, hcfg3⟩ := h2.markMoved s (decide (d ≠ 1)) p0 p1
    split at e
    · cases e
      exact ⟨h3, hcfg3.trans (hcfg2.trans hcfg1)⟩
    · cases e
      have hc := h3.cells ((st2.markMoved s (decide (d ≠ 1)) p0 p1).cfg.seqToStream s)
      refine ⟨(h3.setCells (hc.sweep (divSeq_sweep hc.toCellsOk s _ _ hd)
        fun k => k.divSeq_seq_subset s _ _ d)).rebuildAllocationHead s, ?_⟩
      rw [rebuildAllocationHead_cfg, setCells_cfg, hcfg3, hcfg2, hcfg1]
  · cases e

theorem Inv.clear (h : st.Inv) (data : Bool) : (st.clear data).Inv := by
  refine ⟨fun x => ?_, fun t ht => ?_⟩
  · unfold KvCache.clear
    dsimp only
    split
    · exact ⟨CellsOk.reset (h.cells x).size, fun i s hs => absurd hs (Finset.notMem_empty s)⟩
    · exact h.cells x
  · obtain ⟨t0, ht0, rfl⟩ := Option.map_eq_some_iff.mp ht
    exact (h.tail t0 ht0).clear

theorem Inv.update (h : st.Inv) (e : st.update = (st', .ok ())) : st'.Inv ∧ st'.cfg = st.cfg := by
  obtain ⟨st1, u1, e1, e⟩ := andThen_ok e
  obtain ⟨h1, hcfg1⟩ := h.materializePendingCopies e1
  split at e
  · cases e
    refine ⟨⟨fun x => ?_, h1.tail⟩, hcfg1⟩
    dsimp only
    split
    · exact ⟨(h1.cells x).toCellsOk.resetShift, (h1.cells x).stream⟩
    · exact h1.cells x
  · cases e
    exact ⟨h1, hcfg1⟩

end Seq

end BeeLlama.KvCache
