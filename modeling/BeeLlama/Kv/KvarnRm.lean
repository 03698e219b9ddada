import BeeLlama.Kv.KvarnRun

/-!
# What the KVarN cache promises about removals

`can_seq_rm`, `seq_rm_plan` and `suffix_rollback_tokens` are promises about `seq_rm`
(`KvarnCache.Promises`). They are kept for a sequence iff the queued copies can be made
(`PendingOk`) and the sequence has no cell at position `INT32_MAX`: an open range ends at
`std::numeric_limits<llama_pos>::max()`, which is exclusive, so it does not reach that cell.

* `canRemoveRange_suffix`: the last 128 positions are removable.
* `seqRm_kept`: a removal that was promised removes exactly the range.
* `reach_promises_iff`: when the promises are kept, in every reachable state.
-/

namespace BeeLlama

open List Function Int TailStore KvCache

/-! ## Ranges -/

section Range

variable {posMax p0 p1 : Int}

/-- The position is in the range `[p0, p1)`; the range has no end for `p1 < 0`. -/
def InRange (p0 p1 p : Int) : Prop := p0 ≤ p ∧ (p1 < 0 ∨ p < p1)

instance (p0 p1 p : Int) : Decidable (InRange p0 p1 p) := inferInstanceAs (Decidable (_ ∧ _))

theorem rangeEnd_open (h1 : p1 < 0) : KvCache.rangeEnd p1 = INT32_MAX := if_pos h1

theorem canRemoveRange_suffix (hmax : posMax < INT32_MAX) {n : Nat} (hn : n ≤ KVAR_N_GROUP) :
    llamaKvarnCanRemoveRange posMax (posMax - n + 1) (-1) KVAR_N_GROUP = true := by
  have hg : (KVAR_N_GROUP : Int) = 128 := rfl
  unfold llamaKvarnCanRemoveRange
  rw [rangeEnd_open (by decide)]
  split
  · rfl
  · dsimp only
    split
    · rfl
    · rw [if_neg (by omega), decide_eq_true_eq, hg]
      omega

/-- An open range is not removable if it does not reach the last position. -/
theorem canRemoveRange_open (hmax : (INT32_MAX : Int) ≤ posMax) (h1 : p1 < 0) :
    llamaKvarnCanRemoveRange posMax p0 p1 KVAR_N_GROUP = false := by
  unfold llamaKvarnCanRemoveRange
  rw [rangeEnd_open h1, if_neg (by omega), if_neg (by omega), if_pos (by omega)]

theorem canRemoveRange_all (hmax : posMax < INT32_MAX) (h0 : p0 ≤ 0) (h1 : p1 < 0) :
    llamaKvarnCanRemoveRange posMax p0 p1 KVAR_N_GROUP = true := by
  unfold llamaKvarnCanRemoveRange
  rw [rangeEnd_open h1]
  split
  · rfl
  · rw [if_pos ⟨by omega, hmax⟩]

/-- The code's bounds of a range are those of the range, below `INT32_MAX`. -/
theorem inRange_iff (p0 p1 : Int) {p : Int} (hp : 0 ≤ p) (hmax : p < INT32_MAX) :
    (KvCache.rangeBegin p0 ≤ p ∧ p < KvCache.rangeEnd p1) ↔ InRange p0 p1 p := by
  unfold rangeBegin rangeEnd InRange
  split <;> split <;> omega

end Range

/-! ## The metadata cache -/

namespace KvCache

open KvCells

variable {st st' : KvCache} {s : Nat} {p0 p1 : Int}

theorem Inv.pos_nonneg (h : st.Inv) {x i : Nat} (hi : (st.cells x).pos i ≠ -1) :
    0 ≤ (st.cells x).pos i :=
  ((h.cells x).ok i).nonneg hi

theorem Inv.pos_le_seqPosMax (h : st.Inv) {i : Nat}
    (hs : s ∈ (st.cells (st.cfg.seqToStream s)).seq i) :
    (st.cells (st.cfg.seqToStream s)).pos i ≤ st.seqPosMax s := by
  have hc := h.cells (st.cfg.seqToStream s)
  have hi := hc.toCellsOk.lt_of_mem hs
  rw [← hc.size] at hi
  exact (hc.toInv.readers.seqPosMax s ⟨i, hi, hs⟩).2 ⟨i, hi, hs, rfl⟩

/-- The metadata of a structured cache accepts every suffix. -/
theorem canSeqRm_open (hm : st.cfg.tailMetadataOnly = true) (hs : s < st.cfg.seqToStreamSize)
    (h1 : p1 < 0) : st.canSeqRm s p0 p1 = true := by
  unfold canSeqRm
  split
  · rfl
  · rw [if_neg (by simp only [toNat_natCast]; omega)]
    split
    · rfl
    · rw [if_neg (by omega), hm, Bool.true_or, if_pos rfl]

/-- The removal of the entries of the tail does not throw. -/
theorem tailSeqRm_ok (p0 p1 : Int) (seqs : List Nat) (h : st.Inv) : ∃ tail,
    st.tailSeqRm seqs p0 p1 = ({ st with tail := tail }, .ok ()) := by
  have one : ∀ (st : KvCache) (seqId : Int), st.Inv → ∃ tail,
      (st.onTail fun t => t.seqRm seqId p0 p1) = ({ st with tail := tail }, .ok ()) ∧
        KvCache.Inv { st with tail := tail } := by
    intro st seqId h
    exact onTail_spec h fun t ht => ht.seqRm seqId p0 p1
  have all : ∀ (seqs : List Int) (st : KvCache), st.Inv → ∃ tail,
      seqs.foldl (fun o seqId => andThen o fun st _ => st.onTail fun t => t.seqRm seqId p0 p1)
        (st, .ok ()) = (({ st with tail := tail }, .ok ()) : COut Unit) := by
    intro seqs
    induction seqs with
    | nil => exact fun st _ => ⟨st.tail, rfl⟩
    | cons seqId seqs ih =>
      intro st h
      obtain ⟨tail, e, h1⟩ := one st seqId h
      obtain ⟨tail', e'⟩ := ih _ h1
      refine ⟨tail', ?_⟩
      rw [foldl_cons]
      show seqs.foldl _ (st.onTail fun t => t.seqRm seqId p0 p1) = _
      rw [e]
      exact e'
  exact all _ st h

/-- A removal that the metadata cache accepts is made, cell by cell. -/
theorem Inv.seqRm_made (h : st.Inv) (hp : st.Plain) (hs : s < st.cfg.seqToStreamSize)
    (hc : st.canSeqRm s p0 p1 = true) : ∃ st', st.seqRm s p0 p1 = (st', .ok true) ∧
      ∀ x i, (st'.cells x).cell i =
        if x = st.cfg.seqToStream s then
          ((st.cells x).cell i).rmSeq s (rangeBegin p0) (rangeEnd p1)
        else (st.cells x).cell i := by
  obtain ⟨st1, e1, hp1, hcells₁, -, hcfg1⟩ := hp.materialize_eq
  obtain ⟨tail, e2⟩ := tailSeqRm_ok p0 p1 [s] (h.materializePendingCopies e1).1
  have e3 : ∃ st', st.seqRmUnchecked s p0 p1 = (st', .ok ()) := by
    unfold KvCache.seqRmUnchecked
    rw [e1]
    show ∃ st', (if s < st1.cfg.seqToStreamSize then _ else _) = _
    rw [hcfg1, if_pos hs, e2]
    exact ⟨_, rfl⟩
  obtain ⟨st', e3⟩ := e3
  refine ⟨st', ?_, fun x i => ?_⟩
  · unfold KvCache.seqRm
    rw [hc, if_neg (by decide), if_neg (by omega), if_pos (by omega), toNat_natCast, e3]
    rfl
  · obtain ⟨heads, alloc, tail', sc, rows, rfl, -⟩ := seqRmUnchecked_eq e3
    show ((Function.update st.cells _ _ x).cell i) = _
    rcases eq_or_ne x (st.cfg.seqToStream s) with rfl | hx
    · have hok := (h.cells (st.cfg.seqToStream s)).toCellsOk
      rw [update_self, if_pos rfl, (rmSeq_sweep hok s _ _).2 i]
      split
      · rfl
      · next hi =>
        rw [Cell.rmSeq, if_neg]
        rintro ⟨-, -, hs⟩
        exact hi (by rw [hok.size]; exact hok.lt_of_mem hs)
    · rw [update_of_ne hx, if_neg hx]

/-! ### All sequences -/

theorem rmAny_sweep_pos {n : Nat} {c : KvCells} (h : c.CellsOk n) (b e : Int) (i : Nat) :
    (KvCache.sweep (rmAnyCell b e) c).1.pos i =
      if b ≤ c.pos i ∧ c.pos i < e then -1 else c.pos i := by
  rw [← cell_pos, (rmAny_sweep h b e).2 i]
  by_cases hi : i < c.size
  · rw [if_pos hi]
    unfold Cell.rmAny
    rw [apply_ite Cell.pos]
    rfl
  · rw [if_neg hi, cell_pos, h.out i (by rw [← h.size]; omega)]
    split <;> rfl

/-- The loop over the streams of `seq_rm(-1, ...)`, stream by stream. -/
theorem foldl_rmAny_pos (b e : Int) (streams : List Nat) : ∀ {st : KvCache}, st.Inv → ∀ x i,
    ((streams.foldl (fun st x => st.sweepStream x (rmAnyCell b e)) st).cells x).pos i =
      if x ∈ streams ∧ b ≤ (st.cells x).pos i ∧ (st.cells x).pos i < e then -1
      else (st.cells x).pos i := by
  induction streams with
  | nil =>
    intro st h x i
    rw [if_neg (fun hx => absurd hx.1 not_mem_nil)]
    rfl
  | cons y streams ih =>
    intro st h x i
    have hok := (h.cells y).toCellsOk
    have h1 : (st.sweepStream y (rmAnyCell b e)).Inv :=
      h.sweepStream ((h.cells y).sweep (rmAny_sweep hok b e) fun k => k.rmAny_seq_subset _ _)
    rw [foldl_cons, ih h1 x i]
    have hpos : ((st.sweepStream y (rmAnyCell b e)).cells x).pos i =
        if x = y ∧ b ≤ (st.cells x).pos i ∧ (st.cells x).pos i < e then -1
        else (st.cells x).pos i := by
      show (Function.update st.cells y (sweep (rmAnyCell b e) (st.cells y)).1 x).pos i = _
      rcases eq_or_ne x y with rfl | hx
      · rw [update_self, rmAny_sweep_pos hok]
        simp only [true_and]
      · rw [update_of_ne hx, if_neg (fun hh => hx hh.1)]
    rw [hpos]
    generalize (st.cells x).pos i = p
    by_cases hx : x = y <;> by_cases hb : b ≤ p ∧ p < e <;> simp [hx, hb]

theorem rebuildAllocationHeads_cells : st.rebuildAllocationHeads.cells = st.cells := by
  obtain ⟨heads, e⟩ := rebuildAllocationHeads_eq st
  rw [e]

theorem foldl_mark_cells (seqs : List Nat) : ∀ {st : KvCache},
    (seqs.foldl (fun st s => st.markIfIncomplete s) st).cells = st.cells := by
  induction seqs with
  | nil => exact rfl
  | cons s seqs ih =>
    intro st
    rw [foldl_cons, ih, markIfIncomplete_cells]

/-- `seq_rm(-1, ...)` frees the cells of the range. -/
theorem Inv.seqRmAllUnchecked_pos (h : st.Inv) (e : st.seqRmAllUnchecked p0 p1 = (st', .ok ()))
    {x : Nat} (hx : x < st.cfg.nStream) (i : Nat) : (st'.cells x).pos i =
      if rangeBegin p0 ≤ (st.cells x).pos i ∧ (st.cells x).pos i < rangeEnd p1 then -1
      else (st.cells x).pos i := by
  obtain ⟨st1, u1, e1, e⟩ := andThen_ok e
  obtain ⟨h1, hcfg1⟩ := h.materializePendingCopies e1
  obtain ⟨st2, u2, e2, e⟩ := andThen_ok e
  obtain ⟨h2, hcfg2⟩ := h1.tailSeqRm e2
  cases e
  obtain ⟨tail, rfl, -⟩ := tailSeqRm_eq e2
  rw [rebuildAllocationHeads_cells]
  rw [foldl_mark_cells, foldl_rmAny_pos _ _ _ h2 x i]
  have hx1 : x < st1.cfg.nStream := by
    rw [hcfg1]
    exact hx
  simp only [mem_range, hx1, true_and, materializePendingCopies_cells e1]

/-- `seq_rm(-1, ...)` of an open range from the beginning frees the cells below `INT32_MAX`. -/
theorem Inv.seqRm_all (h : st.Inv) (hp : st.Plain) (h0 : p0 ≤ 0) (h1 : p1 < 0) :
    ∃ st', st.seqRm (-1) p0 p1 = (st', .ok true) ∧ ∀ x < st.cfg.nStream, ∀ i,
      (st'.cells x).pos i = if (st.cells x).pos i < INT32_MAX then -1 else (st.cells x).pos i := by
  obtain ⟨st1, e1, -, -, -, hcfg1⟩ := hp.materialize_eq
  obtain ⟨tail, e2⟩ := tailSeqRm_ok p0 p1 (List.range st.cfg.nSeqMax)
    (h.materializePendingCopies e1).1
  have hc : st.canSeqRm (-1) p0 p1 = true := by
    unfold canSeqRm
    split
    · rfl
    · rw [if_pos (.inl (by decide)), decide_eq_true_eq]
      exact ⟨h0, h1⟩
  have e3 : ∃ st', st.seqRmAllUnchecked p0 p1 = (st', .ok ()) := by
    unfold KvCache.seqRmAllUnchecked
    rw [e1]
    show ∃ st', andThen (st1.tailSeqRm (List.range st1.cfg.nSeqMax) p0 p1) _ = (st', _)
    rw [hcfg1, e2]
    exact ⟨_, rfl⟩
  obtain ⟨st', e3⟩ := e3
  refine ⟨st', ?_, fun x hx i => ?_⟩
  · unfold KvCache.seqRm
    rw [hc, if_neg (by decide), if_pos rfl, e3]
    rfl
  · rw [h.seqRmAllUnchecked_pos e3 hx i, rangeEnd_open h1]
    have hb : rangeBegin p0 = 0 := by
      unfold rangeBegin
      split <;> omega
    rw [hb]
    by_cases hi : (st.cells x).pos i = -1
    · rw [hi]
      split <;> rfl
    · have := h.pos_nonneg hi
      simp only [this, true_and]

end KvCache

namespace KvarnCache

variable {k k' : KvarnCache} {s : Nat} {p0 p1 q0 q1 : Int}

/-! ## The queued copies -/

/-- The queued copies can be made: their rows exist, and the entries that the destination of the
tail copy gets name no cell twice. -/
structure PendingOk (k : KvarnCache) : Prop where
  asserts : k.pendingStreamCopies.isEmpty = false → k.pendingAsserts = true
  keys : k.pendingStreamCopies.tailTransaction = true → ∀ t, k.metadata.tail = some t →
    ∀ p, t.pendingSeqCp = some p → (p.destination.map (·.key)).Nodup

theorem commitSeqCp_ok_iff {t : TailStore} : t.commitSeqCp.2 = .ok () ↔
    ∀ p, t.pendingSeqCp = some p → (p.destination.map (·.key)).Nodup := by
  unfold commitSeqCp
  cases hp : t.pendingSeqCp with
  | none => simp
  | some p =>
    have hkeys : ((installCp t.cfg p (t.seqs p.dst)).entries.map (·.key)) =
        p.destination.map (·.key) := ofEntries_map (·.key) _
    have hiff := SeqTail.rebuildIndex_ok_iff (t := installCp t.cfg p (t.seqs p.dst))
    rw [hkeys] at hiff
    simp only [Option.some.injEq, forall_eq']
    rw [← hiff]
    cases (installCp t.cfg p (t.seqs p.dst)).rebuildIndex with
    | mk t' r => cases r <;> simp

/-- The queued copies are made without an exception iff they can be made. -/
theorem applyPendingStreamCopies_ok_iff : (∃ k', k.applyPendingStreamCopies = (k', .ok ())) ↔
    k.PendingOk := by
  unfold applyPendingStreamCopies
  by_cases he : k.pendingStreamCopies.isEmpty = true
  · rw [if_pos he]
    refine ⟨fun _ => ⟨fun h => ?_, fun h => ?_⟩, fun _ => ⟨k, rfl⟩⟩
    · rw [he] at h
      cases h
    · simp [StreamCopyInfo.isEmpty, h] at he
  · rw [if_neg he]
    by_cases ha : k.pendingAsserts = true
    · rw [if_neg (by simp [ha])]
      dsimp only
      by_cases ht : k.pendingStreamCopies.tailTransaction = true
      · rw [if_pos ht]
        constructor
        · rintro ⟨k', e⟩
          obtain ⟨k1, u1, e1, -⟩ := andThen_ok e
          obtain ⟨e1, -⟩ := onMetadata_ok e1
          refine ⟨fun _ => ha, fun _ t htail => commitSeqCp_ok_iff.mp ?_⟩
          rcases onTail_ok e1 with ⟨hn, -⟩ | ⟨t', t'', a, ht', ec, -⟩
          · have hn' : k.metadata.tail = none := hn
            rw [hn'] at htail
            cases htail
          · have ht'' : k.metadata.tail = some t' := ht'
            rw [ht''] at htail
            cases htail
            rw [ec]
        · intro h
          unfold onMetadata onTail
          cases htail : k.metadata.tail with
          | none => exact ⟨_, rfl⟩
          | some t =>
            have hok := commitSeqCp_ok_iff.mpr (h.keys ht t htail)
            have ec : t.commitSeqCp = (t.commitSeqCp.1, .ok ()) := Prod.ext rfl hok
            dsimp only
            rw [ec]
            exact ⟨_, rfl⟩
      · rw [if_neg ht]
        exact ⟨fun _ => ⟨fun _ => ha, fun h => absurd h ht⟩, fun _ => ⟨_, rfl⟩⟩
    · rw [if_pos (by simpa using ha)]
      constructor
      · rintro ⟨k', e⟩
        cases e
      · exact fun h => absurd (h.asserts (by simpa using he)) ha

/-- What the promises depend on is not changed by the queued copies. -/
theorem canSeqRm_congr {tail : Option TailStore} (hm : k'.metadata =
      { k.metadata with tail := tail }) (ht : tail.map (·.cfg) = k.metadata.tail.map (·.cfg))
    (seqId p0 p1 : Int) : k'.canSeqRm seqId p0 p1 = k.canSeqRm seqId p0 p1 := by
  have hcompact : k'.metadata.hasCompactTail = k.metadata.hasCompactTail := by
    unfold hasCompactTail
    rw [hm]
    have := congrArg (fun c : Option TailCfg => c.any (·.compactStorage)) ht
    simpa [Option.any_map, comp_def] using this
  have hmeta : k'.metadata.canSeqRm seqId p0 p1 = k.metadata.canSeqRm seqId p0 p1 := by
    unfold KvCache.canSeqRm
    rw [hcompact, hm]
  have hmax : k'.metadata.seqPosMax = k.metadata.seqPosMax := by
    rw [hm]
    rfl
  have hcfg : k'.metadata.cfg = k.metadata.cfg := by rw [hm]
  unfold canSeqRm canRemove streamIsExclusiveFor
  rw [hmeta, hmax, hcfg]

theorem canSeqRm_metadata (h : k.canSeqRm s p0 p1 = true) : k.metadata.canSeqRm s p0 p1 = true := by
  unfold canSeqRm canRemove at h
  rw [if_neg (by omega)] at h
  by_contra hn
  rw [if_pos (by simpa using hn)] at h
  cases h

/-! ## The removal -/

/-- `k'` is `k` without sequence `s` at the positions of the range. -/
def Removed (k k' : KvarnCache) (s : Nat) (p0 p1 : Int) : Prop :=
  ∀ x i, (k'.metadata.cells x).cell i =
    if x = k.metadata.cfg.seqToStream s ∧ s ∈ (k.metadata.cells x).seq i ∧
        InRange p0 p1 ((k.metadata.cells x).pos i) then
      ((k.metadata.cells x).cell i).erase s
    else (k.metadata.cells x).cell i

/-- What `seq_rm` does after the metadata cache has removed the range: no cell changes. -/
theorem clearAfter_spec (h : k.metadata.Inv) (seqId : Int) : ∃ k',
    andThen (if seqId < 0 then k.clearTailStorage (-1)
      else if k.metadata.seqPosMax seqId.toNat < 0 then k.clearTailStorage seqId
      else (k, .ok ())) (fun k _ => (k, .ok true)) = (k', .ok true) ∧
      k'.metadata.cells = k.metadata.cells := by
  split
  · obtain ⟨tail, layers, e, -⟩ := clearTailStorage_spec h (-1)
    rw [e]
    exact ⟨_, rfl, rfl⟩
  · split
    · obtain ⟨tail, layers, e, -⟩ := clearTailStorage_spec h seqId
      rw [e]
      exact ⟨_, rfl, rfl⟩
    · exact ⟨_, rfl, rfl⟩

/-- `seq_rm` after the queued copies: what the metadata cache does is what it leaves. -/
theorem seqRm_of_metadata (h : k.Inv) (hp : k.PendingOk) {seqId : Int}
    (hc : k.canSeqRm seqId p0 p1 = true) {P : (Nat → KvCells) → Prop}
    (hm : ∀ tail, KvCache.Inv { k.metadata with tail := tail } →
      ({ k.metadata with tail := tail } : KvCache).Plain →
      tail.map (·.cfg) = k.metadata.tail.map (·.cfg) → ∃ st',
        KvCache.seqRm { k.metadata with tail := tail } seqId p0 p1 = (st', .ok true) ∧
          P st'.cells) :
    ∃ k', k.seqRm seqId p0 p1 = (k', .ok true) ∧ P k'.metadata.cells := by
  obtain ⟨k1, e1⟩ := applyPendingStreamCopies_ok_iff.mpr hp
  have h1 := h.applyPendingStreamCopies e1
  obtain ⟨tail, em, ht⟩ := applyPendingStreamCopies_eq e1
  have hi := h1.metadata
  have hpl := h1.plain
  rw [em] at hi hpl
  obtain ⟨st', e2, hP⟩ := hm tail hi hpl ht
  rw [← em] at e2
  obtain ⟨k2, e3, hcells⟩ := clearAfter_spec (k := { k1 with metadata := st' })
    (h1.metadata.seqRm e2).1 seqId
  refine ⟨k2, ?_, by rw [hcells]; exact hP⟩
  unfold seqRm
  rw [e1]
  show (if !k1.canSeqRm seqId p0 p1 then _ else _) = _
  rw [canSeqRm_congr em ht, hc, if_neg (by decide), e2]
  exact e3

/-- A promised removal removes exactly the range, below `INT32_MAX`. -/
theorem seqRm_kept (h : k.Inv) (hp : k.PendingOk) (hs : s < k.metadata.cfg.seqToStreamSize)
    (hmax : k.metadata.seqPosMax s < INT32_MAX) (hc : k.canSeqRm s p0 p1 = true) :
    ∃ k', k.seqRm s p0 p1 = (k', .ok true) ∧ k.Removed k' s p0 p1 := by
  refine seqRm_of_metadata h hp hc (P := fun cells => ∀ x i, (cells x).cell i =
    if x = k.metadata.cfg.seqToStream s ∧ s ∈ (k.metadata.cells x).seq i ∧
        InRange p0 p1 ((k.metadata.cells x).pos i) then
      ((k.metadata.cells x).cell i).erase s
    else (k.metadata.cells x).cell i) fun tail hi hpl ht => ?_
  have hcm : ({ k.metadata with tail := tail } : KvCache).canSeqRm s p0 p1 = true := by
    refine canSeqRm_metadata (k := { k with metadata := { k.metadata with tail := tail } }) ?_
    have e := @canSeqRm_congr k { k with metadata := { k.metadata with tail := tail } } tail
      rfl ht s p0 p1
    exact e.trans hc
  obtain ⟨st', e, hcells⟩ := hi.seqRm_made hpl hs hcm
  refine ⟨st', e, fun x i => ?_⟩
  rw [hcells x i]
  show (if x = k.metadata.cfg.seqToStream s then _ else _) = _
  rcases eq_or_ne x (k.metadata.cfg.seqToStream s) with rfl | hx
  · rw [if_pos rfl, Cell.rmSeq]
    by_cases hs : s ∈ (k.metadata.cells (k.metadata.cfg.seqToStream s)).seq i
    · have hne := (h.metadata.cells (k.metadata.cfg.seqToStream s)).pos_ne_of_mem hs
      have hle := h.metadata.pos_le_seqPosMax hs
      have hiff := inRange_iff p0 p1 (h.metadata.pos_nonneg hne) (Int.lt_of_le_of_lt hle hmax)
      refine if_congr ?_ rfl rfl
      rw [← hiff]
      exact ⟨fun hh => ⟨rfl, hs, hh.1, hh.2.1⟩, fun hh => ⟨hh.2.2.1, hh.2.2.2, hs⟩⟩
    · rw [if_neg (fun hh => hs hh.2.2), if_neg (fun hh => hs hh.2.1)]
  · rw [if_neg hx, if_neg (fun hh => hx hh.1)]

/-! ## The promises -/

/-- What `can_seq_rm`, `seq_rm_plan` and `suffix_rollback_tokens` promise for a sequence. -/
structure Promises (k : KvarnCache) (s : Nat) : Prop where
  /-- A range that `can_seq_rm` accepts is removed, and nothing else. -/
  rm : ∀ p0 p1, k.canSeqRm s p0 p1 = true →
    ∃ k', k.seqRm s p0 p1 = (k', .ok true) ∧ k.Removed k' s p0 p1
  /-- A planned range has the requested positions, is the request if that is removable, starts at
  most one group before it, and is accepted. -/
  plan : ∀ p0 p1 q0 q1, k.seqRmPlan s p0 p1 = some (q0, q1) →
    (∀ i, s ∈ (k.metadata.cells (k.metadata.cfg.seqToStream s)).seq i →
      InRange p0 p1 ((k.metadata.cells (k.metadata.cfg.seqToStream s)).pos i) →
        InRange q0 q1 ((k.metadata.cells (k.metadata.cfg.seqToStream s)).pos i)) ∧
      (k.canSeqRm s p0 p1 = true → (q0, q1) = (p0, p1)) ∧
      q0 ≤ p0 ∧ p0 - q0 ≤ KVAR_N_GROUP ∧ k.canSeqRm s q0 q1 = true
  /-- The last positions that the capability advertises are removable. -/
  suffix : ∀ n ≤ k.suffixRollbackTokens, k.canSeqRm s (k.metadata.seqPosMax s - n + 1) (-1) = true

/-- What they promise for all sequences at once (`seq_id == -1`): every cell becomes free. -/
structure PromisesAll (k : KvarnCache) : Prop where
  rm : ∀ p0 p1, k.canSeqRm (-1) p0 p1 = true → ∃ k', k.seqRm (-1) p0 p1 = (k', .ok true) ∧
    ∀ x < k.metadata.cfg.nStream, ∀ i, (k'.metadata.cells x).pos i = -1
  plan : ∀ p0 p1 q, k.seqRmPlan (-1) p0 p1 = some q → q = (p0, p1) ∧ k.canSeqRm (-1) p0 p1 = true

theorem canSeqRm_of_range (hm : k.metadata.canSeqRm s p0 p1 = true)
    (hr : llamaKvarnCanRemoveRange (k.metadata.seqPosMax s) p0 p1 KVAR_N_GROUP = true) :
    k.canSeqRm s p0 p1 = true := by
  unfold canSeqRm canRemove
  rw [if_neg (by omega), hm, if_neg (by decide), toNat_natCast]
  rw [if_pos hr]

theorem suffixRollbackTokens_eq (h : k.Inv) : k.suffixRollbackTokens = KVAR_N_GROUP := by
  unfold suffixRollbackTokens KvCache.suffixRollbackTokens
  rw [h.tailMetadataOnly]
  split <;> rfl

theorem suffix_kept (h : k.Inv) (hs : s < k.metadata.cfg.seqToStreamSize)
    (hmax : k.metadata.seqPosMax s < INT32_MAX) {n : Nat} (hn : n ≤ k.suffixRollbackTokens) :
    k.canSeqRm s (k.metadata.seqPosMax s - n + 1) (-1) = true := by
  rw [suffixRollbackTokens_eq h] at hn
  exact canSeqRm_of_range (canSeqRm_open h.tailMetadataOnly hs (by decide))
    (canRemoveRange_suffix hmax hn)

/-- Without an end that reaches the last position, one of the last two positions is refused. -/
theorem suffix_refused (hmax : (INT32_MAX : Int) ≤ k.metadata.seqPosMax s) :
    ∃ n : Nat, n ≤ 2 ∧ k.canSeqRm s (k.metadata.seqPosMax s - n + 1) (-1) = false := by
  have h0 : (2147483647 : Int) ≤ k.metadata.seqPosMax s := hmax
  have hg : (KVAR_N_GROUP : Int) = 128 := rfl
  have refused : ∀ p0 : Int, p0 % 128 ≠ 0 → 0 < p0 → k.canSeqRm s p0 (-1) = false := by
    intro p0 hmod hpos
    unfold canSeqRm canRemove llamaKvarnPlanRemoveRange
    rw [if_neg (by omega), toNat_natCast]
    dsimp only
    have hr : llamaKvarnCanRemoveRange (k.metadata.seqPosMax s) p0 (-1) KVAR_N_GROUP = false :=
      canRemoveRange_open hmax (by decide)
    split
    · rfl
    · rw [hr, if_neg Bool.false_ne_true, if_neg (by omega), if_neg Bool.false_ne_true]
      split
      · rfl
      · rw [beq_eq_false_iff_ne, hg]
        intro e
        have := (Prod.mk.inj (Option.some.inj e)).1
        omega
  by_cases hm : k.metadata.seqPosMax s % 128 = 0
  · refine ⟨2, le_refl 2, refused _ ?_ ?_⟩
    · omega
    · omega
  · refine ⟨1, by omega, refused _ ?_ ?_⟩
    · omega
    · omega

theorem canSeqRm_planned (hm : k.metadata.canSeqRm s (p0 / KVAR_N_GROUP * KVAR_N_GROUP) (-1) = true)
    (hmax : k.metadata.seqPosMax s < INT32_MAX)
    (hx : k.streamIsExclusiveFor s = true) :
    k.canSeqRm s (p0 / KVAR_N_GROUP * KVAR_N_GROUP) (-1) = true := by
  have hg : (KVAR_N_GROUP : Int) = 128 := rfl
  by_cases hr : llamaKvarnCanRemoveRange (k.metadata.seqPosMax s)
      (p0 / KVAR_N_GROUP * KVAR_N_GROUP) (-1) KVAR_N_GROUP = true
  · exact canSeqRm_of_range hm hr
  · have hq : 0 < p0 / KVAR_N_GROUP * KVAR_N_GROUP := by
      by_contra hn
      exact hr (canRemoveRange_all hmax (by omega) (by decide))
    unfold canSeqRm canRemove llamaKvarnPlanRemoveRange
    rw [if_neg (by omega), hm, if_neg (by decide), toNat_natCast]
    rw [if_neg hr, if_neg (by omega), if_neg hr, hx, if_neg (by simp; omega)]
    rw [beq_iff_eq, hg]
    congr 2
    omega

theorem plan_kept (hmax : k.metadata.seqPosMax s < INT32_MAX)
    (e : k.seqRmPlan s p0 p1 = some (q0, q1)) :
    (∀ p, InRange p0 p1 p → InRange q0 q1 p) ∧
      (k.canSeqRm s p0 p1 = true → (q0, q1) = (p0, p1)) ∧
      q0 ≤ p0 ∧ p0 - q0 ≤ KVAR_N_GROUP ∧ k.canSeqRm s q0 q1 = true := by
  have hg : (KVAR_N_GROUP : Int) = 128 := rfl
  unfold seqRmPlan at e
  rw [if_neg (by omega), toNat_natCast] at e
  split at e
  · cases e
  · split at e
    · next hr =>
      split at e
      · cases e
      · next hm =>
        cases e
        have hc := canSeqRm_of_range (k := k) (by simpa using hm) hr
        exact ⟨fun _ hp => hp, fun _ => rfl, le_refl _, by omega, hc⟩
    · next hr =>
      split at e
      · cases e
      · next hp =>
        obtain ⟨ep, hm⟩ := Option.filter_eq_some_iff.mp e
        have ep' := ep
        unfold llamaKvarnPlanRemoveRange at ep
        rw [if_neg hr] at ep
        split at ep
        · cases ep
        · next hx =>
          simp only [Bool.or_eq_true, Bool.not_eq_true', decide_eq_true_eq, not_or,
            Bool.not_eq_false] at hx
          cases ep
          refine ⟨fun p hin => ⟨?_, .inl (by decide)⟩, fun hc => ?_, ?_, ?_,
            canSeqRm_planned hm hmax hx.1.1⟩
          · have := hin.1
            rw [hg]
            omega
          · -- the request is removable only as the plan itself
            unfold canSeqRm canRemove at hc
            rw [if_neg (by omega), toNat_natCast] at hc
            split at hc
            · cases hc
            · dsimp only at hc
              rw [if_neg hr] at hc
              rw [ep', beq_iff_eq] at hc
              exact Option.some.inj hc
          · rw [hg]
            omega
          · rw [hg]
            omega

/-! ## When the promises are kept -/

theorem pendingOk_of_seqRm {seqId : Int} {b : Bool} (e : k.seqRm seqId p0 p1 = (k', .ok b)) :
    k.PendingOk := by
  obtain ⟨k1, u1, e1, -⟩ := andThen_ok e
  exact applyPendingStreamCopies_ok_iff.mp ⟨k1, e1⟩

/-- The promises for a sequence are kept iff the queued copies can be made and the sequence has no
cell at `INT32_MAX`. -/
theorem Inv.promises_iff (h : k.Inv) (hs : s < k.metadata.cfg.seqToStreamSize) :
    k.Promises s ↔ k.PendingOk ∧ k.metadata.seqPosMax s < INT32_MAX := by
  constructor
  · intro hp
    have hmax : k.metadata.seqPosMax s < INT32_MAX := by
      by_contra hn
      obtain ⟨n, hn2, hr⟩ := suffix_refused (Int.not_lt.mp hn)
      have hle : n ≤ k.suffixRollbackTokens := by
        rw [suffixRollbackTokens_eq h]
        exact hn2.trans (by decide)
      rw [hp.suffix n hle] at hr
      cases hr
    refine ⟨?_, hmax⟩
    obtain ⟨k', e, -⟩ := hp.rm (-1) (-1) (canSeqRm_of_range
      (canSeqRm_open h.tailMetadataOnly hs (by decide))
      (canRemoveRange_all hmax (by decide) (by decide)))
    exact pendingOk_of_seqRm e
  · rintro ⟨hp, hmax⟩
    refine ⟨fun p0 p1 => seqRm_kept h hp hs hmax, fun p0 p1 q0 q1 e => ?_,
      fun n => suffix_kept h hs hmax⟩
    obtain ⟨h1, h2⟩ := plan_kept hmax e
    exact ⟨fun i _ => h1 _, h2⟩

theorem canSeqRm_neg : k.canSeqRm (-1) p0 p1 = decide (p0 ≤ 0 ∧ p1 < 0) := rfl

/-- The promises for all sequences are kept iff the queued copies can be made and no cell is at
`INT32_MAX`. -/
theorem Inv.promisesAll_iff (h : k.Inv) : k.PromisesAll ↔ k.PendingOk ∧
    ∀ x < k.metadata.cfg.nStream, ∀ i, (k.metadata.cells x).pos i < INT32_MAX := by
  have made : k.PendingOk → ∀ p0 p1 : Int, p0 ≤ 0 → p1 < 0 → ∃ k',
      k.seqRm (-1) p0 p1 = (k', .ok true) ∧ ∀ x < k.metadata.cfg.nStream, ∀ i,
        (k'.metadata.cells x).pos i = if (k.metadata.cells x).pos i < INT32_MAX then -1
          else (k.metadata.cells x).pos i := fun hp p0 p1 h0 h1 =>
    seqRm_of_metadata h hp (by rw [canSeqRm_neg, decide_eq_true_eq]; exact ⟨h0, h1⟩)
      (P := fun cells => ∀ x < k.metadata.cfg.nStream, ∀ i,
        (cells x).pos i = if (k.metadata.cells x).pos i < INT32_MAX then -1
          else (k.metadata.cells x).pos i) fun tail hi hpl _ => hi.seqRm_all hpl h0 h1
  constructor
  · intro hp
    obtain ⟨k', e, hfree⟩ := hp.rm 0 (-1) rfl
    have hok := pendingOk_of_seqRm e
    refine ⟨hok, fun x hx i => ?_⟩
    obtain ⟨k'', e', hpos⟩ := made hok 0 (-1) (le_refl 0) (by decide)
    rw [e] at e'
    cases e'
    have hi := hpos x hx i
    rw [hfree x hx i] at hi
    by_contra hn
    rw [if_neg hn] at hi
    rw [← hi] at hn
    exact hn (by decide)
  · rintro ⟨hp, hmax⟩
    refine ⟨fun p0 p1 hc => ?_, fun p0 p1 q e => ?_⟩
    · rw [canSeqRm_neg, decide_eq_true_eq] at hc
      obtain ⟨k', e, hpos⟩ := made hp p0 p1 hc.1 hc.2
      refine ⟨k', e, fun x hx i => ?_⟩
      rw [hpos x hx i, if_pos (hmax x hx i)]
    · unfold seqRmPlan at e
      rw [if_pos (by decide)] at e
      split at e
      · cases e
      · rw [canSeqRm_neg, decide_eq_true_eq]
        exact ⟨(Option.some.inj e).symm, by omega⟩

/-- In every reachable state: for which sequences the removal promises are kept. -/
theorem reach_promises_iff (h : sys.Reach (fun _ _ => True) k) :
    (∀ s < k.metadata.cfg.seqToStreamSize,
      (k.Promises s ↔ k.PendingOk ∧ k.metadata.seqPosMax s < INT32_MAX)) ∧
    (k.PromisesAll ↔ k.PendingOk ∧
      ∀ x < k.metadata.cfg.nStream, ∀ i, (k.metadata.cells x).pos i < INT32_MAX) :=
  ⟨fun _ hs => (h.inv inv_inductive).promises_iff hs, (h.inv inv_inductive).promisesAll_iff⟩

/-- A unified cache of two groups. -/
def twoGroupsCfg : CacheCfg where
  nSeqMax := 1
  nStream := 1
  kvSize := 256
  allocationGroupSize := 128
  tailMetadataOnly := true

/-- A KVarN cache of two groups with one layer of two heads. -/
def twoGroups : KvarnCache where
  metadata := KvCache.create twoGroupsCfg none
  layers := [{ nHeadK := 2, nHeadV := 2 }]
  stageGroups := 2
  nGroupsPerStream := 2

theorem twoGroups_new : twoGroups.New :=
  ⟨⟨twoGroupsCfg, none, ⟨by decide, .inl rfl, fun _ => by decide⟩, by simp, rfl⟩, rfl, rfl⟩

/-- The cache with a token of sequence `0` at position `p`. -/
def tokenAt (p : Int) : KvarnCache :=
  (twoGroups.apply ⟨0, 0, [0], [[0]]⟩ (KvCache.oneToken 0 p)).1

theorem tokenAt_reach {p : Int} (hp : 0 ≤ p)
    (e : (twoGroups.apply ⟨0, 0, [0], [[0]]⟩ (KvCache.oneToken 0 p)).2 = .ok ()) :
    sys.Reach (fun _ _ => True) (tokenAt p) := by
  have ha : (Op.apply ⟨0, 0, [0], [[0]]⟩ (oneToken 0 p)).Asserts twoGroups := by
    intro q hq
    have hq' : q = ⟨0, 0, ⟨p, {}, [0]⟩, 0⟩ := by simpa [SlotInfo.placements, SlotInfo.cells,
      oneToken] using hq
    subst hq'
    refine ⟨?_, hp, nodup_singleton 0, ?_, fun _ _ => rfl⟩
    · show 0 < 256
      decide
    · intro s hs
      rw [mem_singleton.mp hs]
      decide
  exact .step (.init twoGroups_new) (fun _ ho => absurd ho (Set.notMem_empty _))
    ⟨ha, Prod.ext rfl e⟩ trivial

/-- A token at position `5`: the promises are kept. -/
theorem tokenAt_promises : (tokenAt 5).Promises 0 ∧ (tokenAt 5).PromisesAll := by
  have hr := tokenAt_reach (p := 5) (by decide) (by decide +kernel)
  have hp : (tokenAt 5).PendingOk := ⟨fun h => absurd h (by decide +kernel),
    fun h => absurd h (by decide +kernel)⟩
  obtain ⟨h1, h2⟩ := reach_promises_iff hr
  refine ⟨(h1 0 (by decide +kernel)).mpr ⟨hp, by decide +kernel⟩, h2.mpr ⟨hp, fun x hx i => ?_⟩⟩
  have hn : (tokenAt 5).metadata.cfg.nStream = 1 := by decide +kernel
  have hx0 : x = 0 := by omega
  subst hx0
  by_cases hi : i < 256
  · have key : ∀ i < 256, ((tokenAt 5).metadata.cells 0).pos i < INT32_MAX := by decide +kernel
    exact key i hi
  · have hk : (tokenAt 5).metadata.cfg.kvSize = 256 := by decide +kernel
    rw [((hr.inv inv_inductive).metadata.cells 0).out i (by omega)]
    decide

/-- A token at position `INT32_MAX`: the promises are not kept. -/
theorem promises_broken : ¬ ∀ k : KvarnCache, sys.Reach (fun _ _ => True) k →
    ∀ s < k.metadata.cfg.seqToStreamSize, k.Promises s := by
  intro h
  have hr := tokenAt_reach (p := INT32_MAX) (by decide) (by decide +kernel)
  have hp := h _ hr 0 (by decide +kernel)
  have hmax := (((hr.inv inv_inductive).promises_iff (by decide +kernel)).mp hp).2
  exact absurd hmax (by decide +kernel)

end KvarnCache
end BeeLlama
