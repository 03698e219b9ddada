import BeeLlama.Kv.Restore

/-!
# Runs of a structured cache

The live groups of a structured cache stay apart (`StageApart`) while tokens are decoded and cells
are removed. A self-contained restore rebuilds the flags of the sealed groups from the allocation
heads: a partly filled group with a head inside is not sealed any more, also one that was complete
before a removal of positions led back into it. `KeepsApart` is the condition under which no two of
these groups share a slot.

* `StageInv`: the invariant. A full group is sealed, so that a removal makes no group live, and an
  allocation head points behind a cell of its sequence.
* `stageInv_inductive`: every step keeps it.
* `reach_stageApart`: the groups are apart in every run, and the search throws for no slot.
* `reach_not_stageApart`: without the condition a restore makes two groups share a slot.
-/

namespace BeeLlama.KvCache

open KvCells List Function Nat Bool KvCache KvCells Cell

/-- A step of a structured cache. -/
inductive StageOp where
  /-- `find_slot` and `apply_ubatch`. -/
  | decode (u : Ubatch)
  | finishTailBatch (success payloadMayBeModified : Bool)
  | seqRm (seqId p0 p1 : Int)
  | seqKeep (s : Nat)
  /-- `state_read` of one sequence with `LLAMA_STATE_SEQ_FLAGS_SELF_CONTAINED`. -/
  | restore (s version : Nat) (m : Manifest)

/-- The step returned. -/
def StageOp.Step (st st' : KvCache) : StageOp → Prop
  | .decode u => u.Ok st.cfg ∧ ∃ st₁ i, st.findSlot u = (st₁, .ok (some i)) ∧
      st₁.applyUbatch i u = (st', .ok ())
  | .finishTailBatch success payload => st.finishTailBatch success payload = (st', .ok ())
  | .seqRm seqId p0 p1 => ∃ r, st.seqRm seqId p0 p1 = (st', .ok r)
  | .seqKeep s => st.seqKeep s = (st', .ok ())
  | .restore s version m => m.Positions ∧ st.restoreSelfContained s version m = .ok st'

/-- A structured cache from its constructor on. The restore sets `state_remap_group_size` to
`KVAR_N_GROUP`, which is also the size of the groups of the allocator. -/
def stageSys : Sys KvCache StageOp where
  init st := ∃ cfg tail, cfg.WF ∧ cfg.structured = true ∧
    cfg.stateRemapGroupSize = cfg.allocationGroupSize ∧
    (∀ t, tail = some t → TailStore.sys.init t ∧ t.cfg.nSeqMax = cfg.nSeqMax) ∧
    st = create cfg tail
  step st op st' := op.Step st st'

/-- The cells of stream `0` without sequence `s`. -/
def cellsWithout (st : KvCache) (s : Nat) : KvCells :=
  (sweep (rmCell s (rangeBegin (-1)) (rangeEnd (-1))) (st.cells 0)).1

/-- The allocation heads without sequence `s`. -/
def headsWithout (st : KvCache) (s t : Nat) : Nat :=
  if t = s then headOf (st.cellsWithout s) s else st.allocationSeqHeads t

/-- The group is partly filled. -/
def Partial (cfg : CacheCfg) (c : KvCells) (g : Nat) : Prop :=
  1 ≤ g ∧ g < cfg.nGroups ∧ 0 < groupUsed cfg c g ∧ groupUsed cfg c g < cfg.allocationGroupSize

/-- Without sequence `s`, no two partly filled groups with one slot have an allocation head inside.
-/
def KeepsApart (st : KvCache) (s : Nat) : Prop :=
  ∀ g h t t', t < st.cfg.nSeqMax → t' < st.cfg.nSeqMax →
    Partial st.cfg (st.cellsWithout s) g → Partial st.cfg (st.cellsWithout s) h →
    headInGroup st.cfg (st.headsWithout s t) g = true →
    headInGroup st.cfg (st.headsWithout s t') h = true →
    st.cfg.stageSlot g = st.cfg.stageSlot h → g = h

/-- The condition on a step: only a restore has one. -/
def StageOp.Keeps (st : KvCache) : StageOp → Prop
  | .restore s _ _ => st.KeepsApart s
  | _ => True

/-! ## The invariant -/

/-- The allocation heads point behind cells of their sequences. -/
def HeadsOk (st : KvCache) : Prop :=
  ∀ t, t < st.cfg.nSeqMax → st.allocationSeqHeads t ≠ 0 →
    t ∈ (st.cells 0).seq (st.allocationSeqHeads t - 1)

/-- The invariant of the runs. -/
structure StageInv (st : KvCache) : Prop where
  inv : st.Inv
  wf : st.cfg.WF
  structured : st.cfg.structured = true
  remap : st.cfg.stateRemapGroupSize = st.cfg.allocationGroupSize
  length : st.SealedLength
  full : FullSealed st.cfg (groupUsed st.cfg (st.cells 0)) st.allocationGroupSealed
  apart : st.StageApart
  heads : st.HeadsOk

section Steps

variable {st st' : KvCache}

theorem StageInv.nStream (h : st.StageInv) : st.cfg.nStream = 1 :=
  (of_decide_eq_true h.structured).2

theorem StageInv.group (h : st.StageInv) : 1 < st.cfg.allocationGroupSize :=
  (of_decide_eq_true h.structured).1

theorem StageInv.seqToStream (h : st.StageInv) (s : Nat) : st.cfg.seqToStream s = 0 :=
  if_neg (by rw [h.nStream]; omega)

theorem StageInv.grouped (h : st.StageInv) : Grouped st.cfg (st.cells 0) :=
  ⟨(h.inv.cells 0).size, h.group, (h.wf.groups h.group).1⟩

/-- A step that only frees cells. -/
theorem StageInv.frees (h : st.StageInv) (hinv : st'.Inv) (hcfg : st'.cfg = st.cfg)
    (hsealed : st'.allocationGroupSealed = st.allocationGroupSealed)
    (hcells : ∀ i, (st.cells 0).isEmpty i = true → (st'.cells 0).isEmpty i = true)
    (hheads : st'.HeadsOk) : st'.StageInv := by
  have hle : ∀ g, groupUsed st.cfg (st'.cells 0) g ≤ groupUsed st.cfg (st.cells 0) g := by
    intro g
    refine countP_mono_left fun i _ hi => ?_
    cases he : (st.cells 0).isEmpty i with
    | false => rfl
    | true => rw [hcells i he] at hi; exact hi
  refine ⟨hinv, hcfg ▸ h.wf, hcfg ▸ h.structured, ?_, ?_, ?_, ?_, hheads⟩
  · rw [hcfg]
    exact h.remap
  · unfold SealedLength
    rw [hsealed, hcfg]
    exact h.length
  · intro g h1 hlt hfull
    rw [hcfg] at hlt hfull
    rw [hsealed]
    exact h.full g h1 hlt (le_trans hfull (hle g))
  · -- A live group was live before: it was not full, since it is not sealed.
    have hlive : ∀ g, Live st.cfg (groupUsed st.cfg (st'.cells 0)) st'.allocationGroupSealed g →
        Live st.cfg (groupUsed st.cfg (st.cells 0)) st.allocationGroupSealed g := by
      intro g hl
      have hse := hl.sealed_eq
      rw [hsealed] at hse
      refine ⟨hl.pos, hl.lt, lt_of_lt_of_le hl.used_pos (hle g), ?_, hse⟩
      by_contra hn
      rw [h.full g hl.pos hl.lt (by omega)] at hse
      cases hse
    intro g g' hl hl' hslot
    rw [hcfg] at hl hl' hslot
    exact h.apart g g' (hlive g hl) (hlive g' hl') hslot

/-- The heads after a removal: those that are rebuilt, and those whose cell stays. -/
theorem HeadsOk.of_rebuilt (h : st.HeadsOk) (hcfg : st'.cfg = st.cfg)
    (hr : ∀ t, t < st.cfg.nSeqMax → st'.allocationSeqHeads t = headOf (st'.cells 0) t ∨
      (st'.allocationSeqHeads t = st.allocationSeqHeads t ∧
        ∀ i, t ∈ (st.cells 0).seq i → t ∈ (st'.cells 0).seq i)) : st'.HeadsOk := by
  intro t ht hne
  rw [hcfg] at ht
  rcases hr t ht with e | ⟨e, hstay⟩
  · rw [e] at hne ⊢
    exact (headOf_mem hne).1
  · rw [e] at hne ⊢
    exact hstay _ (h t ht hne)

/-! ## Removals -/

theorem sweepStream_cells (st : KvCache) (x : Nat) (f : KvCells → Nat → KvCells × Bool) :
    (st.sweepStream x f).cells x = (sweep f (st.cells x)).1 := update_self x _ st.cells

variable {k : Cell} {p0 p1 : Int} {st₁ : KvCache} {i : SlotInfo} {u : Ubatch}

theorem rmSeq_empty (s : Nat) (p0 p1 : Int) (h : k.pos = -1) : (k.rmSeq s p0 p1).pos = -1 := by
  unfold rmSeq erase
  split
  · split
    · rfl
    · exact h
  · exact h

theorem mem_rmSeq_of_ne {s t : Nat} (hne : t ≠ s) (h : t ∈ k.seq) : t ∈ (k.rmSeq s p0 p1).seq := by
  have hm : t ∈ k.seq.erase s := Finset.mem_erase.mpr ⟨hne, h⟩
  unfold rmSeq erase
  split
  · rw [if_neg (Finset.ne_empty_of_mem hm)]
    exact hm
  · exact h

theorem StageInv.seqRmUnchecked {s : Nat} (h : st.StageInv)
    (e : st.seqRmUnchecked s p0 p1 = (st', .ok ())) : st'.StageInv := by
  obtain ⟨hcells, hsealed, hcfg, halloc⟩ := seqRmUnchecked_alloc e
  have hc : st'.cells 0 = (sweep (rmCell s (rangeBegin p0) (rangeEnd p1)) (st.cells 0)).1 := by
    rw [hcells, h.seqToStream, update_self]
  obtain ⟨-, hcell⟩ := rmSeq_sweep (h.inv.cells 0).toCellsOk s (rangeBegin p0) (rangeEnd p1)
  refine h.frees (h.inv.seqRmUnchecked e).1 hcfg hsealed (fun i hi => ?_)
    (h.heads.of_rebuilt hcfg fun t ht => ?_)
  · simp only [KvCells.isEmpty, beq_iff_eq] at hi ⊢
    rw [hc, ← cell_pos, hcell]
    split
    · exact rmSeq_empty s _ _ hi
    · exact hi
  · rw [halloc]
    by_cases hts : t = s
    · subst hts
      rw [if_pos ⟨ht, h.structured⟩, update_self]
      exact .inl rfl
    · right
      refine ⟨?_, fun i hi => ?_⟩
      · split
        · exact update_of_ne hts _ _
        · rfl
      · rw [hc, ← cell_seq, hcell]
        split
        · exact mem_rmSeq_of_ne hts hi
        · exact hi

theorem rebuildAllocationHeads_alloc (hs : st.cfg.structured = true) {t : Nat}
    (ht : t < st.cfg.nSeqMax) :
    st.rebuildAllocationHeads.allocationSeqHeads t = headOf (st.cells 0) t := by
  have key : ∀ (l : List Nat) (st1 : KvCache), st1.cfg = st.cfg → st1.cells = st.cells →
      t ∈ l ∨ st1.allocationSeqHeads t = headOf (st.cells 0) t →
      (l.foldl (fun st s => st.rebuildAllocationHead s) st1).allocationSeqHeads t =
        headOf (st.cells 0) t := by
    intro l
    induction l with
    | nil => exact fun _ _ _ h => h.resolve_left not_mem_nil
    | cons s l ih =>
      intro st1 hcfg hcells hm
      have ha := rebuildAllocationHead_alloc st1 s
      obtain ⟨heads, eh⟩ := rebuildAllocationHead_eq st1 s
      refine ih _ (by dsimp only; rw [eh]; exact hcfg) (by dsimp only; rw [eh]; exact hcells) ?_
      rw [ha, hcfg, hcells]
      rcases hm with hm | hm
      · rcases mem_cons.mp hm with rfl | hm
        · right
          rw [if_pos ⟨ht, hs⟩, update_self]
        · exact .inl hm
      · right
        split
        · rw [update_apply]
          split
          · next e => rw [e]
          · exact hm
        · exact hm
  exact key _ st rfl rfl (.inl (mem_range.mpr ht))

/-- The marks of the tail change the tail only. -/
theorem foldl_mark_eq (l : List Nat) : ∀ st : KvCache, ∃ tail,
    l.foldl (fun st s => st.markIfIncomplete s) st = { st with tail := tail } := by
  induction l with
  | nil => exact fun st => ⟨_, rfl⟩
  | cons s l ih =>
    intro st
    obtain ⟨tail, et⟩ := ih (st.markIfIncomplete s)
    rw [foldl_cons, et]
    rcases markIfIncomplete_eq st s with em | ⟨t, -, em⟩ <;> rw [em] <;> exact ⟨_, rfl⟩

theorem rmAny_empty (p0 p1 : Int) (h : k.pos = -1) : (k.rmAny p0 p1).pos = -1 := by
  unfold rmAny
  split
  · rfl
  · exact h

theorem keep_empty (s : Nat) (h : k.pos = -1) : (k.keep s).pos = -1 := by
  unfold keep
  split
  · exact h
  · split
    · exact h
    · rfl

/-- A loop that only frees cells, and after which all heads are rebuilt. -/
theorem StageInv.rebuilt {f : KvCells → Nat → KvCells × Bool} {g : Cell → Cell} (h : st.StageInv)
    (hcell : ∀ j, (sweep f (st.cells 0)).1.cell j =
      if j < (st.cells 0).size then g ((st.cells 0).cell j) else (st.cells 0).cell j)
    (hg : ∀ k : Cell, k.pos = -1 → (g k).pos = -1) (hcfg : st₁.cfg = st.cfg)
    (hcells : st₁.cells 0 = (sweep f (st.cells 0)).1)
    (hsealed : st₁.allocationGroupSealed = st.allocationGroupSealed)
    (e : st₁.rebuildAllocationHeads = st') (hinv : st'.Inv) : st'.StageInv := by
  obtain ⟨heads, eh⟩ := rebuildAllocationHeads_eq st₁
  have halloc : ∀ t, t < st.cfg.nSeqMax → st'.allocationSeqHeads t = headOf (st₁.cells 0) t := by
    intro t ht
    rw [← e]
    exact rebuildAllocationHeads_alloc (by rw [hcfg]; exact h.structured) (by rwa [hcfg])
  rw [eh] at e
  subst e
  refine h.frees hinv hcfg hsealed (fun i hi => ?_)
    (h.heads.of_rebuilt hcfg fun t ht => .inl (halloc t ht))
  simp only [KvCells.isEmpty, beq_iff_eq] at hi ⊢
  rw [hcells, ← cell_pos, hcell]
  split
  · exact hg _ hi
  · exact hi

theorem StageInv.seqRmAllUnchecked (h : st.StageInv)
    (e : st.seqRmAllUnchecked p0 p1 = (st', .ok ())) : st'.StageInv := by
  have hinv := (h.inv.seqRmAllUnchecked e).1
  obtain ⟨st1, u1, e1, e⟩ := andThen_ok e
  obtain ⟨_, _, _, rfl, -⟩ := materializePendingCopies_eq e1
  obtain ⟨st2, u2, e2, e⟩ := andThen_ok e
  obtain ⟨_, rfl, -⟩ := tailSeqRm_eq e2
  have e := (Prod.mk.inj e).1
  rw [h.nStream, range_one, foldl_cons, foldl_nil] at e
  have hcell := (rmAny_sweep (h.inv.cells 0).toCellsOk (rangeBegin p0) (rangeEnd p1)).2
  have key : ∀ (st3 : KvCache) (l : List Nat), st3.cfg = st.cfg →
      st3.cells 0 = (sweep (rmAnyCell (rangeBegin p0) (rangeEnd p1)) (st.cells 0)).1 →
      st3.allocationGroupSealed = st.allocationGroupSealed →
      (l.foldl (fun st s => st.markIfIncomplete s) st3).rebuildAllocationHeads = st' →
      st'.StageInv := by
    intro st3 l hcfg hcells hsealed e
    obtain ⟨tail, et⟩ := foldl_mark_eq l st3
    rw [et] at e
    refine h.rebuilt hcell (fun k hk => rmAny_empty _ _ hk) ?_ ?_ ?_ e hinv
    · exact hcfg
    · exact hcells
    · exact hsealed
  refine key _ _ ?_ ?_ ?_ e
  · rfl
  · exact sweepStream_cells _ _ _
  · rfl

theorem StageInv.seqRm {seqId p0 p1 : Int} {r : Bool} (h : st.StageInv)
    (e : st.seqRm seqId p0 p1 = (st', .ok r)) : st'.StageInv := by
  unfold KvCache.seqRm at e
  split at e
  · cases e
    exact h
  · obtain ⟨st1, u1, e1, e⟩ := andThen_ok e
    cases e
    split at e1
    · exact h.seqRmAllUnchecked e1
    · split at e1
      · exact h.seqRmUnchecked e1
      · obtain ⟨_, _, -, e1⟩ := andThen_ok e1
        cases e1

theorem StageInv.seqKeep {s : Nat} (h : st.StageInv) (e : st.seqKeep s = (st', .ok ())) :
    st'.StageInv := by
  have hinv := (h.inv.seqKeep e).1
  obtain ⟨st1, u1, e1, e⟩ := andThen_ok e
  obtain ⟨_, _, _, rfl, -⟩ := materializePendingCopies_eq e1
  split at e
  · obtain ⟨st2, u2, e2, e⟩ := andThen_ok e
    obtain ⟨_, rfl, -⟩ := onTail_eq e2
    have e := (Prod.mk.inj e).1
    rw [h.seqToStream] at e
    refine h.rebuilt (keep_sweep (h.inv.cells 0).toCellsOk s).2 (fun k hk => keep_empty s hk)
      ?_ ?_ ?_ e hinv
    · rfl
    · exact sweepStream_cells _ _ _
    · rfl
  · cases e

theorem StageInv.finishTailBatch {success payload : Bool} (h : st.StageInv)
    (e : st.finishTailBatch success payload = (st', .ok ())) : st'.StageInv := by
  have hinv := (h.inv.finishTailBatch e).1
  unfold KvCache.finishTailBatch at e
  split at e
  · obtain ⟨st1, u1, e1, e⟩ := andThen_ok e
    obtain ⟨_, rfl, -⟩ := onTail_eq e1
    cases e
    exact h.frees hinv rfl rfl (fun _ hi => hi) h.heads
  · cases e
    exact h

/-! ## Decoding -/

theorem beginTail_eq (e : st.beginTail = (st', .ok ())) :
    ∃ tail gens, st' = { st with tail := tail, tailGenerationsBeforeBatch := gens } := by
  unfold beginTail at e
  split at e
  · dsimp only at e
    split at e
    · obtain ⟨_, rfl, -⟩ := onTail_eq e
      exact ⟨_, _, rfl⟩
    · obtain ⟨_, rfl, -⟩ := onTail_eq e
      exact ⟨_, _, rfl⟩
  · cases e
    exact ⟨_, _, rfl⟩

/-- A ubatch that goes to empty cells: nothing is purged. -/
theorem applyUbatch_empty (h : st.Inv) (hf : SlotFound st i u)
    (hempty : ∀ x j, (x, j) ∈ i.cells → (st.cells x).pos j = -1)
    (e : st.applyUbatch i u = (st', .ok ())) :
    st'.cells = placeCells u.isPos2d (i.placements u) st.cells ∧
      st'.allocationSeqHeads = placeHeads st.cfg (i.placements u) st.allocationSeqHeads ∧
      st'.allocationGroupSealed = st.allocationGroupSealed := by
  obtain ⟨st1, a1, e1, e⟩ := andThen_ok e
  have h1 := (h.beginTail e1).1
  obtain ⟨_, _, rfl⟩ := beginTail_eq e1
  obtain ⟨st2, rm, e2, e⟩ := andThen_ok e
  obtain ⟨ha, hrm⟩ := placeTokens_applied e2
  obtain ⟨st3, a3, e3, e⟩ := andThen_ok e
  cases e
  have hnone : ∀ s, rm s ≠ -1 → rm s < (st2.cells (st2.cfg.seqToStream s)).seqPosMin s := by
    intro s hs
    obtain ⟨j, hj, hmem, -⟩ := noted h1
      ⟨hf.ok, hf.strm, hf.idxs, hf.nodup, hf.length, hf.lt, hf.one⟩ hrm hs
    exact absurd (hempty _ _ hj) ((h.cells _).toInv.pos_ne_of_mem hmem)
  rw [purge_skip hnone e3]
  obtain ⟨heads, eh⟩ := moveHeads_eq st2 i
  rw [eh]
  obtain ⟨_, _, _, rfl⟩ := ha.eq
  exact ⟨rfl, rfl, rfl⟩

/-- A head stays, or it is behind a cell that got a token of the sequence. -/
theorem placeHeads_cases {cfg : CacheCfg} {t : Nat} : ∀ {ps : List Placement} {heads : Nat → Nat},
    placeHeads cfg ps heads t = heads t ∨
      ∃ p ∈ ps, t ∈ p.token.seqIds ∧ placeHeads cfg ps heads t = p.cell + 1 := by
  intro ps
  induction ps with
  | nil => exact .inl rfl
  | cons p ps ih =>
    intro heads
    rcases @ih (ownerHeads cfg p.cell p.token.seqIds heads) with e | ⟨q, hq, ht, e⟩
    · have e : placeHeads cfg (p :: ps) heads t = ownerHeads cfg p.cell p.token.seqIds heads t := e
      rw [e]
      unfold ownerHeads
      split
      · next hc => exact .inr ⟨p, mem_cons_self, hc.2, rfl⟩
      · exact .inl rfl
    · exact .inr ⟨q, mem_cons_of_mem p hq, ht, e⟩

/-- The cell of a placed token holds it: no other token of the ubatch has the cell. -/
theorem placed_seq {cells : Nat → KvCells} {ps : List Placement} {is2d : Bool}
    (hps : ∀ p ∈ ps, p.Ok st.cfg) (h : ∀ x, StreamOk st.cfg x (cells x))
    (hpw : ps.Pairwise fun p q => (p.stream, p.cell) ≠ (q.stream, q.cell)) {p : Placement}
    (hp : p ∈ ps) : (placeCells is2d ps cells p.stream).pos p.cell = p.token.pos ∧
      (placeCells is2d ps cells p.stream).seq p.cell = p.token.seqIds.toFinset := by
  obtain ⟨q, hq, hx, hi, k, hk⟩ := placeCells_mem is2d hps h ⟨p, hp, rfl, rfl⟩
  have hqp : q = p := by
    by_contra hne
    have hsym : Std.Symm fun p q : Placement => (p.stream, p.cell) ≠ (q.stream, q.cell) :=
      ⟨fun _ _ h => h.symm⟩
    exact hpw.forall hq hp hne (by rw [hx, hi])
  rw [hqp] at hk
  rw [← cell_pos, ← cell_seq, hk]
  exact ⟨rfl, rfl⟩

/-- The ubatch is in the cells that the search `a` found. -/
structure Decoded (st st' : KvCache) (u : Ubatch) (i : SlotInfo) (a : SearchState) : Prop where
  search : st.searchStructured u = (a, .ok true)
  slot : i = ⟨0, 0, [0], [a.idxs]⟩
  inv : st'.Inv
  cfg : st'.cfg = st.cfg
  sealed : st'.allocationGroupSealed = a.sealed
  heads : st'.allocationSeqHeads = placeHeads st.cfg (i.placements u) st.allocationSeqHeads
  placed : ∀ p ∈ i.placements u, p.stream = 0 ∧ p.cell ∈ a.idxs ∧ (st'.cells 0).pos p.cell ≠ -1 ∧
    (st'.cells 0).seq p.cell = p.token.seqIds.toFinset
  covers : ∀ j ∈ a.idxs, (st.cells 0).pos j = -1 ∧ ∃ p ∈ i.placements u, p.cell = j
  old : ∀ j, j ∉ a.idxs → (st'.cells 0).cell j = (st.cells 0).cell j

theorem decode_spec (h : st.Inv) (hs : st.cfg.structured = true) (hu : u.Ok st.cfg)
    (e₁ : st.findSlot u = (st₁, .ok (some i))) (e : st₁.applyUbatch i u = (st', .ok ())) :
    ∃ a, Decoded st st' u i a := by
  obtain ⟨-, hcells⟩ := findSlot_structured hs e₁
  obtain ⟨-, hf⟩ := findSlot_ok h hu e₁
  -- The search and the cells that it found.
  obtain ⟨a, hsearch, rfl, rfl⟩ : ∃ a, st.searchStructured u = (a, .ok true) ∧
      st₁ = { st with allocationGroupSealed := a.sealed } ∧ i = ⟨0, 0, [0], [a.idxs]⟩ := by
    unfold findSlot at e₁
    rw [if_pos hs] at e₁
    unfold findSlotStructured at e₁
    dsimp only at e₁
    split at e₁
    · cases e₁
    · cases e₁
    · next hr =>
      obtain ⟨rfl, e'⟩ := Prod.mk.inj e₁
      exact ⟨_, Prod.ext rfl hr, rfl, (Option.some.inj (Except.ok.inj e')).symm⟩
  have hempty : ∀ x j, (x, j) ∈ (⟨0, 0, [0], [a.idxs]⟩ : SlotInfo).cells →
      (st.cells x).pos j = -1 := by
    intro x j hm
    obtain ⟨rfl, hp⟩ := hcells x j hm
    exact hp
  have h1 : ({ st with allocationGroupSealed := a.sealed } : KvCache).Inv := ⟨h.cells, h.tail⟩
  have hf1 : SlotFound { st with allocationGroupSealed := a.sealed } ⟨0, 0, [0], [a.idxs]⟩ u :=
    ⟨hf.ok, hf.strm, hf.idxs, hf.nodup, hf.length, hf.lt, hf.one⟩
  obtain ⟨hinv, hcfg⟩ := h1.applyUbatch hf1.ok e
  obtain ⟨hc, halloc, hsealed⟩ := applyUbatch_empty h1 hf1 hempty e
  have hj : ∀ j, (0, j) ∈ (⟨0, 0, [0], [a.idxs]⟩ : SlotInfo).cells ↔ j ∈ a.idxs := by
    intro j
    simp [SlotInfo.cells]
  refine ⟨a, hsearch, rfl, hinv, hcfg, hsealed, halloc, fun p hp => ?_, fun j hm => ?_,
    fun j hm => ?_⟩
  · have hpc := mem_of_getElem? (SlotInfo.mem_placements hp).1
    have hz : p.stream = 0 := (hcells _ _ hpc).1
    have hpl := @placed_seq st st.cells _ u.isPos2d hf.ok h.cells hf.pairwise p hp
    have hpos := (hf.ok p hp).pos
    rw [hz] at hpc hpl
    rw [hc]
    exact ⟨hz, (hj _).mp hpc, by rw [hpl.1]; omega, hpl.2⟩
  · obtain ⟨p, hp, -, hpj⟩ := hf.named ((hj j).mpr hm)
    exact ⟨hempty 0 j ((hj j).mpr hm), p, hp, hpj⟩
  · rw [hc]
    exact placeCells_of_notMem u.isPos2d hf.ok h.cells fun hn => hm ((hj j).mp (named_mem hn))

/-- The groups hold what the search counted. -/
theorem Decoded.groupUsed {a : SearchState}
    (h : Decoded st st' u i a) (hc : Counted st.cfg (st.cells 0) a)
    (hr : ∀ j, a.reserved j = true ↔ j ∈ a.idxs) :
    KvCache.groupUsed st.cfg (st'.cells 0) = a.groupUsed := by
  funext g
  rw [hc]
  refine countP_congr fun j _ => ?_
  by_cases hj : j ∈ a.idxs
  · obtain ⟨-, p, hp, rfl⟩ := h.covers j hj
    rw [(hr _).mpr hj, Bool.or_true]
    simpa [KvCells.isEmpty] using (h.placed p hp).2.2.1
  · have hn : a.reserved j = false := by
      rw [← not_eq_true, hr]
      exact hj
    have := congrArg Cell.pos (h.old j hj)
    rw [hn, Bool.or_false]
    unfold KvCells.isEmpty
    rw [← cell_pos, this, cell_pos]

theorem StageInv.decode {st₁ : KvCache} {u : Ubatch} {i : SlotInfo} (h : st.StageInv)
    (hu : u.Ok st.cfg) (e₁ : st.findSlot u = (st₁, .ok (some i)))
    (e : st₁.applyUbatch i u = (st', .ok ())) : st'.StageInv := by
  obtain ⟨a, hd⟩ := decode_spec h.inv h.structured hu e₁ e
  have hs := (searchStructured_spec h.grouped h.length h.apart).2 a hd.search
  have hused := hd.groupUsed hs.used hs.reserved
  have hcfg := hd.cfg
  refine ⟨hd.inv, hcfg ▸ h.wf, hcfg ▸ h.structured, hcfg ▸ h.remap, ?_, ?_, ?_, ?_⟩
  · unfold SealedLength
    rw [hd.sealed, hcfg]
    exact .inr hs.length
  · rw [hd.sealed, hcfg, hused]
    exact hs.full
  · unfold StageApart
    rw [hd.sealed, hcfg, hused]
    exact hs.apart
  · intro t ht hne
    rw [hcfg] at ht
    rw [hd.heads] at hne ⊢
    rcases @placeHeads_cases st.cfg t (i.placements u) st.allocationSeqHeads with
      e | ⟨p, hp, htp, e⟩
    · rw [e] at hne ⊢
      have hm := h.heads t ht hne
      have hj : st.allocationSeqHeads t - 1 ∉ a.idxs := fun hj =>
        (h.inv.cells 0).toInv.pos_ne_of_mem hm (hd.covers _ hj).1
      rw [← cell_seq, hd.old _ hj]
      exact hm
    · rw [e, Nat.add_sub_cancel, (hd.placed p hp).2.2.2]
      exact mem_toFinset.mpr htp

/-! ## The newest cell -/

/-- Cell `i` is the newest one of the sequence among the first `n`: the first one of the greatest
position. -/
structure Newest (c : KvCells) (s n i : Nat) : Prop where
  lt : i < n
  mem : s ∈ c.seq i
  pos : -1 < c.pos i
  le : ∀ j, j < n → s ∈ c.seq j → c.pos j ≤ c.pos i
  first : ∀ j, j < i → s ∈ c.seq j → c.pos j < c.pos i

theorem Newest.unique {c : KvCells} {s n i j : Nat} (h : Newest c s n i) (h' : Newest c s n j) :
    i = j := by
  have hle := h.le j h'.lt h'.mem
  have hle' := h'.le i h.lt h.mem
  rcases lt_trichotomy i j with hij | hij | hij
  · have := h'.first i hij h.mem
    omega
  · exact hij
  · have := h.first j hij h'.mem
    omega

/-- What the loop of `rebuild_allocation_head` knows after `n` cells. -/
inductive NewestUpTo (c : KvCells) (s n : Nat) : Int × Option Nat → Prop where
  | nothing : (∀ j, j < n → s ∈ c.seq j → c.pos j ≤ -1) → NewestUpTo c s n (-1, none)
  | found (i : Nat) : Newest c s n i → NewestUpTo c s n (c.pos i, some i)

theorem NewestUpTo.step {c : KvCells} {s n : Nat} {a : Int × Option Nat}
    (h : NewestUpTo c s n a) : NewestUpTo c s (n + 1)
      (if c.seqHas n s && decide (c.pos n > a.1) then (c.pos n, some n) else a) := by
  have hlt : ∀ j, j < n + 1 → j = n ∨ j < n := fun j hj => by omega
  by_cases hc : s ∈ c.seq n ∧ c.pos n > a.1
  · rw [if_pos (by rw [and_eq_true]; exact ⟨decide_eq_true hc.1, decide_eq_true hc.2⟩)]
    cases h with
    | nothing hle =>
      refine .found n ⟨lt_succ_self n, hc.1, hc.2, fun j hj hm => ?_, fun j hj hm => ?_⟩
      · rcases hlt j hj with rfl | hj
        · exact le_refl _
        · exact le_trans (hle j hj hm) hc.2.le
      · exact lt_of_le_of_lt (hle j hj hm) hc.2
    | found i hi =>
      refine .found n ⟨lt_succ_self n, hc.1, lt_trans hi.pos hc.2, fun j hj hm => ?_,
        fun j hj hm => lt_of_le_of_lt (hi.le j hj hm) hc.2⟩
      rcases hlt j hj with rfl | hj
      · exact le_refl _
      · exact le_trans (hi.le j hj hm) hc.2.le
  · rw [if_neg (by
      rw [and_eq_true]
      exact fun h => hc ⟨of_decide_eq_true h.1, of_decide_eq_true h.2⟩)]
    cases h with
    | nothing hle =>
      refine .nothing fun j hj hm => ?_
      rcases hlt j hj with rfl | hj
      · exact not_lt.mp fun h => hc ⟨hm, h⟩
      · exact hle j hj hm
    | found i hi =>
      refine .found i ⟨lt_succ_of_lt hi.lt, hi.mem, hi.pos, fun j hj hm => ?_, hi.first⟩
      rcases hlt j hj with rfl | hj
      · exact not_lt.mp fun h => hc ⟨hm, h⟩
      · exact hi.le j hj hm

theorem newestCell_iff {c : KvCells} {s i : Nat} :
    newestCell c s = some i ↔ Newest c s c.size i := by
  have key : ∀ n, NewestUpTo c s n ((List.range n).foldl
      (fun (a : Int × Option Nat) i =>
        if c.seqHas i s && decide (c.pos i > a.1) then (c.pos i, some i) else a) (-1, none)) := by
    intro n
    induction n with
    | zero => exact .nothing fun j hj => absurd hj (Nat.not_lt_zero j)
    | succ n ih =>
      rw [range_succ, foldl_append]
      exact ih.step
  have h := key c.size
  unfold newestCell
  generalize (List.range c.size).foldl _ (-1, none) = a at h
  cases h with
  | nothing hle =>
    refine ⟨fun e => (by cases e), fun h => ?_⟩
    have := hle i h.lt h.mem
    have := h.pos
    omega
  | found j hj =>
    refine ⟨fun e => ?_, fun h => ?_⟩
    · cases e
      exact hj
    · rw [hj.unique h]

/-- The head of a sequence whose newest cell was there before is the same. -/
theorem headOf_eq_of_old {c c' : KvCells} {s : Nat} {D : Nat → Prop} (hsize : c'.size = c.size)
    (hold : ∀ i, ¬ D i → c'.cell i = c.cell i) (hD : ∀ i, D i → s ∉ c.seq i)
    (hne : headOf c' s ≠ 0) (hn : ¬ D (headOf c' s - 1)) : headOf c' s = headOf c s := by
  unfold headOf at hne hn ⊢
  cases he : newestCell c' s with
  | none => rw [he] at hne; exact absurd rfl hne
  | some i =>
    rw [he] at hn
    have h := newestCell_iff.mp he
    have hpos : ∀ j, ¬ D j → c'.pos j = c.pos j := fun j hj => congrArg Cell.pos (hold j hj)
    have hseq : ∀ j, ¬ D j → c'.seq j = c.seq j := fun j hj => congrArg Cell.seq (hold j hj)
    have hnot : ∀ j, s ∈ c.seq j → ¬ D j := fun j hj hd => hD j hd hj
    have : newestCell c s = some i := by
      refine newestCell_iff.mpr ⟨hsize ▸ h.lt, hseq i hn ▸ h.mem, hpos i hn ▸ h.pos,
        fun j hj hm => ?_, fun j hj hm => ?_⟩
      · rw [← hpos j (hnot j hm), ← hpos i hn]
        exact h.le j (hsize ▸ hj) (by rw [hseq j (hnot j hm)]; exact hm)
      · rw [← hpos j (hnot j hm), ← hpos i hn]
        exact h.first j hj (by rw [hseq j (hnot j hm)]; exact hm)
    rw [this]

/-! ## The restore -/

/-- The flags that the restore leaves. -/
theorem rebuilt_flag (hs : st.cfg.structured = true) {g : Nat} (hg : g < st.cfg.nGroups) :
    st.rebuildAllocationGroupSealed.allocationGroupSealed.getD g false =
      if g = 0 ∨ groupUsed st.cfg (st.cells 0) g = 0 then false
      else if groupUsed st.cfg (st.cells 0) g ≥ st.cfg.allocationGroupSize then true
      else !st.allocationCellUsesStage (g * st.cfg.allocationGroupSize) := by
  unfold rebuildAllocationGroupSealed
  rw [if_pos hs]
  rw [getD_eq_getElem?_getD, getElem?_map, getElem?_range hg]
  rfl

theorem rebuilt_length (hs : st.cfg.structured = true) :
    st.rebuildAllocationGroupSealed.allocationGroupSealed.length = st.cfg.nGroups := by
  unfold rebuildAllocationGroupSealed
  rw [if_pos hs]
  exact (length_map _).trans length_range

/-- The first cell of a group is read from the stage if a head is inside the group. -/
theorem usesStage_head {g : Nat} (hg : 1 ≤ g)
    (h : st.allocationCellUsesStage (g * st.cfg.allocationGroupSize) = true) :
    ∃ t, t < st.cfg.nSeqMax ∧ headInGroup st.cfg (st.allocationSeqHeads t) g = true := by
  unfold allocationCellUsesStage at h
  split at h
  · next hc =>
    have hpos := (of_decide_eq_true hc.1).1
    rw [Nat.mul_div_cancel g (by omega), or_eq_true, any_eq_true] at h
    rcases h with h | ⟨t, ht, h⟩
    · have := of_decide_eq_true h
      omega
    · exact ⟨t, mem_range.mp ht, h⟩
  · cases h

section Restore

variable {s : Nat} {saved : List SavedCell} {c : KvCells} {r : Remap}

/-- The group got saved cells. -/
def Destination (r : Remap) (g : Nat) : Prop := ∃ p ∈ r.groups, p.2 = g

theorem Restored.mem_group (R : Restored st st' s saved c r) (h : st.StageInv) {k : SavedCell}
    (hk : k ∈ saved) : Destination r (r.cell st.cfg k.sourceCell / st.cfg.allocationGroupSize) := by
  have hg := h.group
  refine ⟨_, R.groups.mem_at hk (R.sources k hk), ?_⟩
  unfold Remap.cell
  rw [h.remap, Nat.mul_comm, mul_add_div (by omega),
    div_eq_of_lt (mod_lt _ (by omega)), Nat.add_zero]

/-- The cells of the other groups stay. -/
theorem Restored.old_group (R : Restored st st' s saved c r) (h : st.StageInv) {i : Nat}
    (hi : ¬ Destination r (i / st.cfg.allocationGroupSize)) :
    (st'.cells 0).cell i = c.cell i :=
  R.old i fun _ hk hik => hi (hik ▸ R.mem_group h hk)

theorem Restored.old_used (R : Restored st st' s saved c r) (h : st.StageInv) {g : Nat}
    (hg : ¬ Destination r g) : groupUsed st.cfg (st'.cells 0) g = groupUsed st.cfg c g := by
  refine countP_congr fun i hi => ?_
  have hdiv := (mem_groupCells (by have := h.group; omega)).mp hi
  have := congrArg Cell.pos (R.old_group h (i := i) (by rw [hdiv]; exact hg))
  unfold KvCells.isEmpty
  rw [← cell_pos, this, cell_pos]

/-- A destination group was empty. -/
theorem Restored.empty_group (R : Restored st st' s saved c r) (h : st.StageInv) {i : Nat}
    (hi : Destination r (i / st.cfg.allocationGroupSize)) : c.pos i = -1 := by
  obtain ⟨p, hp, hpi⟩ := hi
  have hg := h.group
  have := R.groups.empty p hp (i % st.cfg.allocationGroupSize)
    (by rw [h.remap]; exact mod_lt i (by omega))
  rw [hpi, h.remap, Nat.mul_comm, div_add_mod] at this
  simpa [KvCells.isEmpty] using this

/-- All cells of a group that was saved complete are used. -/
theorem Restored.full_group (R : Restored st st' s saved c r) (h : st.StageInv) {p : Nat × Nat}
    (hp : p ∈ r.groups)
    (hfill : st.cfg.allocationGroupSize ≤ sourceGroupFill st.cfg saved p.1) :
    groupUsed st.cfg (st'.cells 0) p.2 = st.cfg.allocationGroupSize := by
  have hg := h.group
  unfold groupUsed
  rw [← groupCells_length p.2, countP_eq_length]
  intro i hi
  obtain ⟨k, hk, rfl⟩ := R.groups.full_cells (by omega) h.remap R.sources R.distinct hp hfill hi
  simpa [KvCells.isEmpty] using (R.new k hk).1

theorem Restored.pos_ne (R : Restored st st' s saved c r) (h : st.StageInv) {i t : Nat}
    (hm : t ∈ c.seq i) : c.pos i ≠ -1 := by
  have hok := (rmSeq_sweep (h.inv.cells 0).toCellsOk s (rangeBegin (-1)) (rangeEnd (-1))).1
  rw [R.without.pos]
  exact hok.toInv.pos_ne_of_mem (by rwa [← R.without.seq])

theorem Restored.heads_ok (R : Restored st st' s saved c r) (h : st.StageInv) : st'.HeadsOk := by
  intro t ht hne
  rw [R.cfg] at ht
  by_cases hts : t = s
  · rw [hts] at ht hne ⊢
    rw [R.head ht] at hne ⊢
    exact (headOf_mem hne).1
  · rw [R.heads t hts] at hne ⊢
    have hm := h.heads t ht hne
    have hc : t ∈ c.seq (st.allocationSeqHeads t - 1) := by
      rw [R.without.seq, ← cell_seq,
        (rmSeq_sweep (h.inv.cells 0).toCellsOk s (rangeBegin (-1)) (rangeEnd (-1))).2]
      split
      · exact mem_rmSeq_of_ne hts hm
      · exact hm
    rw [← cell_seq, R.old (st.allocationSeqHeads t - 1) fun k hk hik =>
      R.pos_ne h hc (by rw [hik]; exact R.free k hk)]
    exact hc

/-- A live group after the restore: a group that stayed, with an allocation head inside, or a
destination group with a free slot, which the head of the sequence is in. -/
theorem Restored.live (R : Restored st st' s saved c r) (h : st.StageInv) {g : Nat}
    (hl : Live st.cfg (groupUsed st.cfg (st'.cells 0)) st'.allocationGroupSealed g) :
    (Partial st.cfg (st.cellsWithout s) g ∧ ∃ t, t < st.cfg.nSeqMax ∧
      headInGroup st.cfg (st.headsWithout s t) g = true) ∨
    (stageOwner st.cfg c (st.cfg.stageSlot g) = none ∧
      headInGroup st.cfg (st'.allocationSeqHeads s) g = true) := by
  have hs : st'.cfg.structured = true := by
    rw [R.cfg]
    exact h.structured
  have hg := h.group
  -- The flag is down, so a head is inside.
  obtain ⟨t, ht, hh⟩ : ∃ t, t < st.cfg.nSeqMax ∧
      headInGroup st.cfg (st'.allocationSeqHeads t) g = true := by
    have hflag := hl.sealed_eq
    rw [R.sealed, rebuilt_flag hs (by rw [R.cfg]; exact hl.lt), R.cfg] at hflag
    have h1 := hl.pos
    have h2 := hl.used_pos
    have h3 := hl.used_lt
    rw [if_neg (by omega), if_neg (by omega), not_eq_false'] at hflag
    rw [← R.cfg] at hflag ⊢
    exact usesStage_head hl.pos hflag
  obtain ⟨hne, hmod, hdiv⟩ := of_decide_eq_true hh
  have hmem := R.heads_ok h t (by rw [R.cfg]; exact ht) hne
  by_cases hd : Destination r g
  · -- Only the restored sequence is in a destination group.
    have hts : t = s := by
      by_contra hts
      have hi : c.pos (st'.allocationSeqHeads t - 1) = -1 :=
        R.empty_group h (by rw [hdiv]; exact hd)
      by_cases hk : ∃ k ∈ saved, st'.allocationSeqHeads t - 1 = r.cell st.cfg k.sourceCell
      · obtain ⟨k, hk, hik⟩ := hk
        rw [hik, (R.new k hk).2] at hmem
        exact hts (Finset.mem_singleton.mp hmem)
      · rw [← cell_seq, R.old _ fun k hk' hik => hk ⟨k, hk', hik⟩] at hmem
        exact R.pos_ne h hmem hi
    rw [hts] at hh
    obtain ⟨p, hp, rfl⟩ := hd
    refine .inr ⟨R.groups.slot p hp ?_ ?_, hh⟩
    · exact stageAware_iff.mpr ⟨h.structured, h.remap, (h.wf.groups hg).2.1⟩
    · rw [h.remap]
      by_contra hn
      have := R.full_group h hp (by omega)
      have := hl.used_lt
      omega
  · have hused : groupUsed st.cfg (st.cellsWithout s) g = groupUsed st.cfg (st'.cells 0) g := by
      rw [R.old_used h hd, R.without.groupUsed]
      rfl
    refine .inl ⟨⟨hl.pos, hl.lt, hused ▸ hl.used_pos, hused ▸ hl.used_lt⟩, t, ht, ?_⟩
    unfold headsWithout
    by_cases hts : t = s
    · rw [if_pos hts]
      rw [hts] at ht hh hne hdiv
      rw [R.head ht] at hh hne hdiv
      have hn : ¬ Destination r ((headOf (st'.cells 0) s - 1) / st.cfg.allocationGroupSize) := by
        rw [hdiv]
        exact hd
      have hsize : (st'.cells 0).size = c.size := by
        have h₁ := (R.inv.cells 0).size
        have h₂ := (rmSeq_sweep (h.inv.cells 0).toCellsOk s (rangeBegin (-1))
          (rangeEnd (-1))).1.size
        rw [R.cfg] at h₁
        rw [R.without.size]
        exact h₁.trans h₂.symm
      have := headOf_eq_of_old (c := c) (D := fun i =>
          Destination r (i / st.cfg.allocationGroupSize)) hsize
        (fun i hi => R.old_group h hi)
        (fun i hi hm => R.pos_ne h hm (R.empty_group h hi)) hne hn
      rw [this, R.without.headOf] at hh
      exact hh
    · rw [if_neg hts, ← R.heads t hts]
      exact hh

theorem StageInv.restore {version : Nat} {m : Manifest} (h : st.StageInv) (hm : m.Positions)
    (hk : st.KeepsApart s) (e : st.restoreSelfContained s version m = .ok st') :
    st'.StageInv := by
  have hg := h.group
  obtain ⟨c, r, R⟩ := restoreSelfContained_spec h.inv h.structured (by rw [h.remap]; omega) hm e
  have hs : st'.cfg.structured = true := by
    rw [R.cfg]
    exact h.structured
  refine ⟨R.inv, R.cfg ▸ h.wf, hs, R.cfg ▸ h.remap, ?_, fun g h1 hlt hfull => ?_, ?_, R.heads_ok h⟩
  · right
    rw [R.sealed]
    exact rebuilt_length hs
  · rw [R.sealed, rebuilt_flag hs hlt]
    have : 0 < st'.cfg.allocationGroupSize := by
      rw [R.cfg]
      omega
    rw [if_neg (by omega), if_pos hfull]
  · -- A destination group has a slot that no group which stayed has.
    have hclash : ∀ g g', stageOwner st.cfg c (st.cfg.stageSlot g) = none →
        Partial st.cfg (st.cellsWithout s) g' → st.cfg.stageSlot g ≠ st.cfg.stageSlot g' := by
      intro g g' hfree hp hslot
      have hused : groupUsed st.cfg c g' = groupUsed st.cfg (st.cellsWithout s) g' := by
        rw [R.without.groupUsed]
        rfl
      have haware : stageAware st.cfg = true :=
        stageAware_iff.mpr ⟨h.structured, h.remap, (h.wf.groups hg).2.1⟩
      have := stageOwner_isSome (c := c) haware hp.1 hp.2.1 (hused ▸ hp.2.2.1) (hused ▸ hp.2.2.2)
      rw [← hslot, hfree] at this
      cases this
    intro g g' hl hl' hslot
    rw [R.cfg] at hl hl' hslot
    rcases R.live h hl with ⟨hp, t, ht, hh⟩ | ⟨hfree, hh⟩ <;>
      rcases R.live h hl' with ⟨hp', t', ht', hh'⟩ | ⟨hfree', hh'⟩
    · exact hk g g' t t' ht ht' hp hp' hh hh' hslot
    · exact absurd hslot.symm (hclash g' g hfree' hp)
    · exact absurd hslot (hclash g g' hfree hp')
    · exact (of_decide_eq_true hh).2.2.symm.trans (of_decide_eq_true hh').2.2

end Restore

end Steps

/-! ## Runs -/

theorem create_stageInv {st : KvCache} (h : stageSys.init st) : st.StageInv := by
  obtain ⟨cfg, tail, hwf, hs, hr, ht, rfl⟩ := h
  have hzero : ∀ g, groupUsed cfg ((create cfg tail).cells 0) g = 0 := by
    intro g
    refine countP_eq_zero.mpr fun i _ => ?_
    change ¬ (!((-1 : Int) == -1)) = true
    decide
  refine ⟨create_inv fun t et => (ht t et).1, hwf, hs, hr, .inl rfl, fun g h1 hlt hfull => ?_,
    fun g g' hl => ?_, fun t _ hne => absurd rfl hne⟩
  · have h2 := (of_decide_eq_true hs).1
    have := hzero g
    change cfg.allocationGroupSize ≤ groupUsed cfg ((create cfg tail).cells 0) g at hfull
    omega
  · have := hl.used_pos
    have h0 := hzero g
    change 0 < groupUsed cfg ((create cfg tail).cells 0) g at this
    omega

/-- Every step keeps the invariant. -/
theorem stageInv_inductive : stageSys.Inductive (fun st op => op.Keeps st) StageInv where
  init _ h := create_stageInv h
  step st op st' h _ hs hk := by
    cases op with
    | decode u =>
      obtain ⟨hu, st1, i, e1, e⟩ := hs
      exact h.decode hu e1 e
    | finishTailBatch success payload => exact h.finishTailBatch hs
    | seqRm seqId p0 p1 =>
      obtain ⟨r, e⟩ := hs
      exact h.seqRm e
    | seqKeep s => exact h.seqKeep hs
    | restore s version m => exact h.restore hs.1 hk hs.2

/-- In every run whose restores meet the condition no two live groups share a stage slot, and the
search throws for none. -/
theorem reach_stageApart {st : KvCache} (h : stageSys.Reach (fun st op => op.Keeps st) st) :
    (∀ g g', Live st.cfg (groupUsed st.cfg (st.cells 0)) st.allocationGroupSealed g →
      Live st.cfg (groupUsed st.cfg (st.cells 0)) st.allocationGroupSealed g' →
      (g - 1) % st.cfg.allocationStageGroups = (g' - 1) % st.cfg.allocationStageGroups → g = g') ∧
    ∀ u, (st.findSlot u).2 ≠ .error .stageAlias := by
  have hi := h.inv stageInv_inductive
  refine ⟨fun g g' hl hl' hmod => hi.apart g g' hl hl' ?_, fun u => ?_⟩
  · have h1 := hl.pos
    have h2 := hl'.pos
    unfold CacheCfg.stageSlot
    rw [if_neg (by omega), if_neg (by omega), hmod]
  · have hne := (searchStructured_spec (u := u) hi.grouped hi.length hi.apart).1
    unfold findSlot
    rw [if_pos hi.structured]
    unfold findSlotStructured
    dsimp only
    split
    · next e =>
      rw [e] at hne
      exact fun he => hne (congrArg Except.error (Except.error.inj he))
    · exact fun h => (by cases h)
    · exact fun h => (by cases h)

/-! ## Nine groups of two cells -/

/-- A structured cache of nine groups of two cells, with six stage slots besides that of group `0`.
-/
def nineGroups : KvCache :=
  create
    { nSeqMax := 3
      nStream := 1
      kvSize := 18
      allocationGroupSize := 2
      allocationStageGroups := 6
      stateRemapGroupSize := 2 } none

/-- A ubatch of `n` tokens of sequence `s` from position `0` on. -/
def prompt (s n : Nat) : Ubatch :=
  ⟨(List.range n).map fun (k : Nat) => ⟨k, {}, [s]⟩, [s], false⟩

/-- The saved state of a sequence with two tokens, in the cells `0` and `1`. -/
def savedPair : Manifest :=
  { savedNSeqMax := 3, bodyOnly := true,
    streams := [⟨[{ sourceCell := 0, pos := 0 }, { sourceCell := 1, pos := 1 }], [2]⟩] }

/-- The ubatch is decoded. -/
def decoded (st : KvCache) (u : Ubatch) (i : SlotInfo) : KvCache :=
  ((st.findSlot u).1.applyUbatch i u).1

/-- The sequence is restored. -/
def restored (st : KvCache) (s : Nat) (m : Manifest) : KvCache :=
  ((st.restoreSelfContained s LLAMA_KV_TAIL_STATE_VERSION m).toOption).getD st

theorem prompt_ok (cfg : CacheCfg) (h : cfg.nStream = 1) {s : Nat}
    (hs : s < LLAMA_MAX_SEQ) (n : Nat) :
    (prompt s n).Ok cfg where
  pos t ht := by
    obtain ⟨k, -, rfl⟩ := mem_map.mp ht
    exact Int.natCast_nonneg k
  nodup t ht := by
    obtain ⟨k, -, rfl⟩ := mem_map.mp ht
    exact nodup_singleton s
  lt t ht r hr := by
    obtain ⟨k, -, rfl⟩ := mem_map.mp ht
    rwa [mem_singleton.mp hr]
  unq := nodup_singleton s
  ne := cons_ne_nil s []
  equal h1 := by omega

theorem savedPair_positions : savedPair.Positions := by
  unfold Manifest.Positions
  decide

section Reach

variable {ok : KvCache → StageOp → Prop} {st : KvCache}

theorem Reach.decoded {u : Ubatch} {i : SlotInfo} (h : stageSys.Reach ok st) (hu : u.Ok st.cfg)
    (h₁ : (st.findSlot u).2 = .ok (some i))
    (h₂ : ((st.findSlot u).1.applyUbatch i u).2 = .ok ()) (hok : ok st (.decode u)) :
    stageSys.Reach ok (st.decoded u i) := by
  have hs : stageSys.step st (.decode u) (st.decoded u i) :=
    ⟨hu, _, i, COut.eq_of_snd h₁, COut.eq_of_snd h₂⟩
  exact h.step (fun _ ho => absurd ho (Set.notMem_empty _)) hs hok

theorem Reach.restored {s : Nat} {m : Manifest} (h : stageSys.Reach ok st) (hm : m.Positions)
    (hr : (st.restoreSelfContained s LLAMA_KV_TAIL_STATE_VERSION m).toOption.isSome = true)
    (hok : ok st (.restore s LLAMA_KV_TAIL_STATE_VERSION m)) :
    stageSys.Reach ok (st.restored s m) := by
  have hs : stageSys.step st (.restore s LLAMA_KV_TAIL_STATE_VERSION m) (st.restored s m) := by
    refine ⟨hm, ?_⟩
    unfold KvCache.restored
    cases he : st.restoreSelfContained s LLAMA_KV_TAIL_STATE_VERSION m with
    | error e => rw [he] at hr; cases hr
    | ok st' => rfl
  exact h.step (fun _ ho => absurd ho (Set.notMem_empty _)) hs hok

theorem Reach.removed {seqId p0 p1 : Int} {r : Bool} (h : stageSys.Reach ok st)
    (hr : (st.seqRm seqId p0 p1).2 = .ok r) (hok : ok st (.seqRm seqId p0 p1)) :
    stageSys.Reach ok (st.seqRm seqId p0 p1).1 := by
  have hs : stageSys.step st (.seqRm seqId p0 p1) (st.seqRm seqId p0 p1).1 := ⟨r, COut.eq_of_snd hr⟩
  exact h.step (fun _ ho => absurd ho (Set.notMem_empty _)) hs hok

end Reach

theorem nineGroups_reach (ok : KvCache → StageOp → Prop) : stageSys.Reach ok nineGroups :=
  .init ⟨_, none, ⟨by decide, .inl rfl, fun _ => by decide⟩, rfl, rfl, fun _ h => (by cases h), rfl⟩

/-- Sequence `0` with three tokens, beside the restored sequence `2`. -/
def besides : KvCache :=
  restored (decoded nineGroups (prompt 0 3) ⟨0, 0, [0], [[0, 1, 2]]⟩) 2 savedPair

theorem besides_stageApart : (∀ g g', Live besides.cfg (groupUsed besides.cfg (besides.cells 0))
        besides.allocationGroupSealed g →
      Live besides.cfg (groupUsed besides.cfg (besides.cells 0)) besides.allocationGroupSealed g' →
      (g - 1) % besides.cfg.allocationStageGroups = (g' - 1) % besides.cfg.allocationStageGroups →
      g = g') ∧
    ∀ u, (besides.findSlot u).2 ≠ .error .stageAlias := by
  refine reach_stageApart (Reach.restored (Reach.decoded (nineGroups_reach _)
    (prompt_ok _ rfl (by decide) 3) (by decide +kernel) (by decide +kernel) trivial)
    savedPair_positions (by decide +kernel) ?_)
  -- Group `1` is the only one that is partly filled.
  have hn : (decoded nineGroups (prompt 0 3) ⟨0, 0, [0], [[0, 1, 2]]⟩).cfg.nGroups = 9 := by
    decide +kernel
  have hone : ∀ g < 9, 1 ≤ g → 0 < groupUsed
      (decoded nineGroups (prompt 0 3) ⟨0, 0, [0], [[0, 1, 2]]⟩).cfg (cellsWithout
      (decoded nineGroups (prompt 0 3) ⟨0, 0, [0], [[0, 1, 2]]⟩) 2) g → g = 1 := by
    decide +kernel
  intro g g' t t' _ _ hp hp' _ _ _
  rw [hone g (hn ▸ hp.2.1) hp.1 hp.2.2.1, hone g' (hn ▸ hp'.2.1) hp'.1 hp'.2.2.1]

/-- The restore of sequence `2` unseals group `1`, which was complete before positions were removed
from it, and group `7` has its slot. -/
theorem reach_not_stageApart : ¬ ∀ st : KvCache,
    stageSys.Reach (fun _ op => match op with | .seqRm _ _ p1 => p1 < 0 | _ => True) st →
    (∀ g g', Live st.cfg (groupUsed st.cfg (st.cells 0)) st.allocationGroupSealed g →
      Live st.cfg (groupUsed st.cfg (st.cells 0)) st.allocationGroupSealed g' →
      (g - 1) % st.cfg.allocationStageGroups = (g' - 1) % st.cfg.allocationStageGroups → g = g') ∧
    ∀ u, (st.findSlot u).2 ≠ .error .stageAlias := by
  intro h
  have h1 := Reach.decoded (u := prompt 0 4) (i := ⟨0, 0, [0], [[0, 1, 2, 3]]⟩)
    (nineGroups_reach fun _ op => match op with | .seqRm _ _ p1 => p1 < 0 | _ => True)
    (prompt_ok _ rfl (by decide) 4) (by decide +kernel) (by decide +kernel) trivial
  have h2 := @Reach.removed _ _ 0 3 (-1) true h1 (by decide +kernel) (by decide)
  have h3 := Reach.decoded (u := prompt 1 11)
    (i := ⟨0, 0, [0], [[4, 5, 6, 7, 8, 9, 10, 11, 12, 13, 14]]⟩) h2
    (prompt_ok _ (by decide +kernel) (by decide) 11) (by decide +kernel) (by decide +kernel) trivial
  have h4 := Reach.restored (s := 2) h3 savedPair_positions (by decide +kernel) trivial
  exact (h _ h4).2 (prompt 1 1) (by decide +kernel)

end BeeLlama.KvCache
