import BeeLlama.Kv.TailSlots
import BeeLlama.Kv.TailCopy

/-!
# Which slots of the tail store are taken

`TailStore.Owned` lifts `SlotInv` to the store: the used slots of a sequence are those of its
entries and those that a pending copy into it acquired. Most operations keep it. Two need more:

* `commit_seq_cp` installs the list that `prepare_seq_cp` has chosen. It keeps `Owned` if the slots
  of that list are all still taken (`Committable`): an operation on the destination between the two
  calls can release such a slot, and nothing stops it.
* A rollback brings the saved used slots back. It keeps `Owned` if they are still held
  (`Restorable`): a copy that was pending at `begin_batch` and ended since has left its slots.

`prepareSeqCp_committable`: a copy can be committed right after `prepare_seq_cp`.
-/

namespace BeeLlama.TailStore

open List TailStore SeqTail

/-- The slots that a pending copy into sequence `s` acquired. -/
def acquired (st : TailStore) (s : Nat) : List Int :=
  match st.pendingSeqCp with
  | some p => if p.dst = s then p.acquiredSlots else []
  | none => []

/-- The used slots are those of the entries and those that a pending copy acquired. The extra slots
of a saved sequence are those of the copy that was pending at `begin_batch`; the copy may have
ended since. -/
structure Owned (st : TailStore) : Prop where
  seq : ∀ s, s < st.cfg.nSeqMax → SlotInv st.cfg s (st.acquired s) (st.seqs s).toSeqState
  pending : ∀ p, st.pendingSeqCp = some p → (p.destination.map (·.slot)).Nodup ∧
    ∀ x ∈ p.acquiredSlots, x ∈ p.destination.map (·.slot)
  batch : ∀ b, st.batchTransaction = some b → ∀ s, s < st.cfg.nSeqMax →
    ∃ extra, SlotInv st.cfg s extra (b.saved s) ∧ (st.acquired s = extra ∨ st.acquired s = [])

/-- The slots of the pending copy are all taken. -/
def Committable (st : TailStore) : Prop :=
  ∀ p, st.pendingSeqCp = some p → ∀ l, l < st.cfg.arenaStride →
    slotOf st.cfg p.dst l ∈ p.destination.map (·.slot) → (st.seqs p.dst).used l = true

/-- The saved used slots are held by saved entries or by the present pending copy. -/
def Restorable (st : TailStore) : Prop :=
  ∀ b, st.batchTransaction = some b → ∀ s, s < st.cfg.nSeqMax → ∀ l, l < st.cfg.arenaStride →
    (b.saved s).used l = true →
      slotOf st.cfg s l ∈ (b.saved s).entries.map (·.slot) ∨ slotOf st.cfg s l ∈ st.acquired s

section Frame

variable {st st' : TailStore}

theorem acquired_none (h : st.pendingSeqCp = none) (s : Nat) : st.acquired s = [] := by
  simp [acquired, h]

/-- A change of the sequences only. -/
theorem Owned.of_seqs (h : st.Owned) (hcfg : st'.cfg = st.cfg)
    (hp : st'.pendingSeqCp = st.pendingSeqCp) (hb : st'.batchTransaction = st.batchTransaction)
    (hs : ∀ s, s < st.cfg.nSeqMax → SlotInv st.cfg s (st.acquired s) (st'.seqs s).toSeqState) :
    st'.Owned := by
  have ha : st'.acquired = st.acquired := by funext s; simp only [acquired, hp]
  refine ⟨?_, ?_, ?_⟩
  · rw [hcfg, ha]; exact hs
  · rw [hp]; exact h.pending
  · rw [hcfg, hb, ha]; exact h.batch

theorem Owned.setSeq {s : Nat} {t : SeqTail} (h : st.Owned)
    (ht : SlotInv st.cfg s (st.acquired s) t.toSeqState) : (st.setSeq s t).Owned := by
  refine h.of_seqs rfl rfl rfl fun r hr => ?_
  by_cases e : r = s
  · subst e; simpa [TailStore.setSeq] using ht
  · simpa [TailStore.setSeq, Function.update_of_ne e] using h.seq r hr

theorem Owned.mapSeqs {f : Nat → SeqTail → SeqTail} (h : st.Owned) (hf : ∀ s, s < st.cfg.nSeqMax →
      SlotInv st.cfg s (st.acquired s) (f s (st.seqs s)).toSeqState) : (st.mapSeqs f).Owned := by
  refine h.of_seqs rfl rfl rfl fun r hr => ?_
  rw [mapSeqs_seqs st hr]
  exact hf r hr

/-- A loop over the sequences whose body succeeds. -/
theorem Owned.forSeqs {f : Nat → SeqTail → SeqTail × Except TailError Unit} (h : st.Owned)
    (hok : ∀ s, s < st.cfg.nSeqMax → (f s (st.seqs s)).2 = .ok ())
    (hf : ∀ s, s < st.cfg.nSeqMax →
      SlotInv st.cfg s (st.acquired s) (f s (st.seqs s)).1.toSeqState) :
    (st.forSeqs f).1.Owned := by
  rw [forSeqs_ok hok]
  exact h.mapSeqs (f := fun s t => (f s t).1) hf

/-- A store without entries. -/
theorem owned_of_empty (hs : ∀ s, s < st.cfg.nSeqMax → st.seqs s = {})
    (hp : st.pendingSeqCp = none) (hb : st.batchTransaction = none) : st.Owned where
  seq s h := by
    rw [hs s h, acquired_none hp]
    exact SlotInv.empty
  pending p e := by rw [hp] at e; cases e
  batch b e := by rw [hb] at e; cases e

end Frame

/-! ## Batches -/

section Batch

variable {st st' : TailStore}

theorem Owned.beginBatch (hi : st.Inv) (h : st.Owned) (e : st.beginBatch = (st', .ok ())) :
    st'.Owned := by
  unfold TailStore.beginBatch at e
  split at e
  · cases e
  · cases e
    have hm : (st.mapSeqs fun s t => t.trim st.cfg s st.cfg.limit).Owned :=
      h.mapSeqs fun s hs => slotInv_trim (hi.seq s hs).toListInv (h.seq s hs) _
    refine ⟨hm.seq, hm.pending, fun b hb s hs => ?_⟩
    by_cases hc : st.cfg.compactStorage = true
    · simp only [hc, if_true, Option.some.injEq] at hb
      subst hb
      exact ⟨st.acquired s, h.seq s hs, .inl rfl⟩
    · simp only [hc] at hb
      exact h.batch b (by simpa using hb) s hs

/-- A saved sequence, for the copy that is pending now. -/
theorem Owned.saved {b : TailBatch} (h : st.Owned) (hr : st.Restorable)
    (hb : st.batchTransaction = some b) {s : Nat} (hs : s < st.cfg.nSeqMax) :
    SlotInv st.cfg s (st.acquired s) (b.saved s) := by
  obtain ⟨extra, hi, rfl | he⟩ := h.batch b hb s hs
  · exact hi
  · rw [he]
    exact
      { hi with
        extraNodup := nodup_nil
        extraArena := by simp
        disjoint := by simp
        used := fun l hl => by
          constructor
          · intro hu
            have := hr b hb s hs l hl hu
            rwa [he] at this
          · intro hu
            exact (hi.used l hl).mpr (.inl (by simpa using hu)) }

theorem Owned.finishBatch {success payload : Bool} (hi : st.Inv) (h : st.Owned)
    (hr : success = false → st.Restorable)
    (e : st.finishBatch success payload = (st', .ok ())) : st'.Owned := by
  cases hc : st.cfg.compactStorage with
  | false =>
    simp only [TailStore.finishBatch, hc, Bool.not_false, if_true] at e
    cases e
    exact ⟨h.seq, h.pending, h.batch⟩
  | true =>
    cases hb : st.batchTransaction with
    | none =>
      simp only [TailStore.finishBatch, hc, hb, Bool.not_true, Bool.false_eq_true, if_false] at e
      cases e
      exact h
    | some b =>
      cases success with
      | true =>
        simp only [TailStore.finishBatch, hc, hb, Bool.not_true, Bool.false_eq_true, if_false,
          if_true] at e
        cases e
        exact ⟨h.seq, h.pending, fun b hb => by cases hb⟩
      | false =>
        rw [finishBatch_rollback hi hc hb] at e
        cases e
        have hbi := hi.batch b hb
        have hm : (st.mapSeqs fun s t =>
            (rollbackSeq st.cfg b payload s (t.load (b.saved s))).1).Owned := by
          refine h.mapSeqs fun s hs => ?_
          have hl : ListInv st.cfg s ((st.seqs s).load (b.saved s)).entries := hbi.list s hs
          have hsi : SlotInv st.cfg s (st.acquired s) ((st.seqs s).load (b.saved s)).toSeqState :=
            h.saved (hr rfl) hb hs
          rw [(rollbackSeq_spec hl (hbi.sorted s hs)).2.2]
          split
          · exact (slotInv_dropAll
              (t := ((st.seqs s).load (b.saved s)).rebuildIndex.1) hl hsi).congr rfl rfl
          · exact hsi
        exact ⟨hm.seq, hm.pending, fun b hb => by cases hb⟩

theorem Owned.noteCurrent (h : st.Owned) (s : Nat) (e : TailEntry) (row : Nat) :
    (st.noteCurrent s e row).1.Owned := by
  unfold TailStore.noteCurrent
  split
  · exact h
  · next b hb =>
    split
    · split
      · exact h
      · refine ⟨h.seq, h.pending, fun b' hb' => ?_⟩
        simp only [Option.some.injEq] at hb'
        subst hb'
        exact h.batch b hb
    · exact h

theorem Owned.commit {seqId position : Int} {identity : TailIdentity} {ordinal row : Nat} {x : Int}
    (hi : st.Inv) (h : st.Owned)
    (e : st.commit seqId identity position ordinal row = (st', .ok x)) : st'.Owned := by
  by_cases hv : st.validSeq seqId = true ∧ st.cfg.nTokens ≠ 0
  · obtain ⟨-, hs⟩ := validSeq_iff.mp hv.1
    rcases commit_eq identity position ordinal row hv.1 hv.2 with ⟨t, er, ht, e'⟩ | ⟨t, ht, e'⟩
    · rw [e'] at e
      cases e
    · rw [e'] at e
      have hn := Owned.noteCurrent (h.setSeq (slotInv_commit (hi.seq _ hs) (h.seq _ hs) ht))
        seqId.toNat ⟨identity, position, ordinal, t.retained identity⟩ row
      rw [e] at hn
      exact hn
  · rw [commit_invalid hv] at e
    cases e
    exact h

theorem Owned.recycle (hi : st.Inv) (h : st.Owned) (stream cell generation : Nat) :
    (st.recycle stream cell generation).Owned := by
  have hm : (st.mapSeqs fun s t => (t.recycle st.cfg s stream cell generation).1).Owned :=
    h.mapSeqs fun s hs => slotInv_recycle (hi.seq s hs) (h.seq s hs) _ _ _
  refine ⟨hm.seq, hm.pending, fun b hb => ?_⟩
  obtain ⟨b0, hb0, rfl⟩ := Option.map_eq_some_iff.mp hb
  exact h.batch b0 hb0

end Batch

/-! ## Sequence operations -/

section Seq

variable {st st' : TailStore}

/-- Flags of the pending copy change. -/
theorem Owned.of_pendingFlags (h : st.Owned) {flags count : PendingCp → Nat} :
    ({ st with pendingSeqCp := st.pendingSeqCp.map fun p =>
        { p with degradationFlags := flags p, recoveryCommits := count p } } :
      TailStore).Owned := by
  have ha : ({ st with pendingSeqCp := st.pendingSeqCp.map fun p =>
      { p with degradationFlags := flags p, recoveryCommits := count p } } : TailStore).acquired =
      st.acquired := by
    funext s
    unfold acquired
    cases st.pendingSeqCp <;> rfl
  refine ⟨fun s hs => ?_, fun p hp => ?_, fun b hb s hs => ?_⟩
  · rw [ha]; exact h.seq s hs
  · obtain ⟨p0, hp0, rfl⟩ := Option.map_eq_some_iff.mp hp
    exact h.pending p0 hp0
  · rw [ha]; exact h.batch b hb s hs

theorem Owned.markDegraded (h : st.Owned) (seqId : Int) (flags : Nat) :
    (st.markDegraded seqId flags).Owned := by
  unfold TailStore.markDegraded
  simp only
  split
  · have hm : (st.mapSeqs fun _ t => t.degrade flags).Owned :=
      h.mapSeqs fun s hs => (h.seq s hs).congr rfl rfl
    exact hm.of_pendingFlags
  · split
    · next hv =>
      obtain ⟨-, hs⟩ := validSeq_iff.mp hv
      split
      · exact h.of_pendingFlags
      · exact h.setSeq ((h.seq _ hs).congr rfl rfl)
    · exact h

theorem Owned.invalidateSlots (hi : st.Inv) (h : st.Owned) (slots : List Int) (flags : Nat) :
    (st.invalidateSlots slots flags).1.Owned :=
  h.forSeqs (fun s hs => (invalidateSlots_spec (hi.seq s hs) slots flags).1) fun s hs =>
    slotInv_invalidateSlots (hi.seq s hs).toListInv (h.seq s hs) slots flags

theorem Owned.seqRm (hi : st.Inv) (h : st.Owned) (seqId p0 p1 : Int) :
    (st.seqRm seqId p0 p1).1.Owned := by
  unfold TailStore.seqRm
  split
  · next hv =>
    obtain ⟨-, hs⟩ := validSeq_iff.mp hv
    exact h.setSeq (slotInv_seqRm (hi.seq _ hs).toListInv (h.seq _ hs) p0 p1)
  · exact h

theorem Owned.seqRmCell (hi : st.Inv) (h : st.Owned) (seqId : Int) (stream cell : Nat) :
    (st.seqRmCell seqId stream cell).1.Owned := by
  unfold TailStore.seqRmCell
  split
  · next hv =>
    obtain ⟨-, hs⟩ := validSeq_iff.mp hv
    exact h.setSeq (slotInv_seqRmCell (hi.seq _ hs).toListInv (h.seq _ hs) stream cell)
  · exact h

theorem Owned.seqKeep (hi : st.Inv) (h : st.Owned) (seqId : Int) : (st.seqKeep seqId).1.Owned := by
  refine h.forSeqs (fun s hs => ?_) fun s hs => ?_
  · split
    · rfl
    · exact (seqRm_spec (hi.seq s hs) 0 (-1)).1
  · split
    · exact h.seq s hs
    · exact slotInv_seqRm (hi.seq s hs).toListInv (h.seq s hs) 0 (-1)

theorem Owned.seqAdd (hi : st.Inv) (h : st.Owned) (seqId p0 p1 shift : Int) :
    (st.seqAdd seqId p0 p1 shift).1.Owned := by
  unfold TailStore.seqAdd
  split
  · exact h.forSeqs (fun s hs => (seqAdd_spec (hi.seq s hs) _ _ _).1) fun s hs =>
      slotInv_seqAdd (hi.seq s hs).toListInv (h.seq s hs) _ _ _
  · exact h

theorem Owned.seqDiv (hi : st.Inv) (h : st.Owned) (seqId p0 p1 divisor : Int) :
    (st.seqDiv seqId p0 p1 divisor).1.Owned := by
  unfold TailStore.seqDiv
  split
  · exact h.forSeqs (fun s hs => (seqDiv_spec (hi.seq s hs) _ _ _).1) fun s hs =>
      slotInv_seqDiv (hi.seq s hs).toListInv (h.seq s hs) _ _ _
  · exact h

theorem Owned.restore {seqId position x : Int} {identity : TailIdentity} {ordinal l : Nat}
    (h : st.Owned) (e : st.restore seqId identity position ordinal l = (st', .ok x)) :
    st'.Owned := by
  unfold TailStore.restore at e
  split at e
  · cases e
  · next hv =>
    simp only [Bool.or_eq_true, Bool.not_eq_true', decide_eq_true_eq, not_or, Bool.not_eq_false]
      at hv
    obtain ⟨-, hs⟩ := validSeq_iff.mp hv.1.1.1.1
    obtain ⟨rfl, hx⟩ := Prod.mk.inj e
    exact h.setSeq (slotInv_restore (h.seq _ hs) (Nat.not_le.mp hv.1.1.1.2) (Prod.ext rfl hx))

theorem Owned.setCursor {s c : Nat} (h : st.Owned) (hs : s < st.cfg.nSeqMax) :
    (st.setSeq s { st.seqs s with cursor := c }).Owned :=
  h.setSeq ((h.seq s hs).congr rfl rfl)

theorem Owned.restoreWriteCursor (h : st.Owned) (seqId : Int) (c : Nat) :
    (st.restoreWriteCursor seqId c).1.Owned := by
  unfold TailStore.restoreWriteCursor
  split
  · exact h
  · next hv =>
    simp only [Bool.or_eq_true, Bool.not_eq_true', decide_eq_true_eq, not_or, Bool.not_eq_false]
      at hv
    exact h.setCursor (validSeq_iff.mp hv.1.1.1.1).2

theorem Owned.resetWriteCursor (hi : st.Inv) (h : st.Owned) (seqId : Int) :
    (st.resetWriteCursor seqId).1.Owned := by
  unfold TailStore.resetWriteCursor
  split
  · exact h
  · next hv =>
    simp only [Bool.or_eq_true, Bool.not_eq_true', not_or, Bool.not_eq_false] at hv
    obtain ⟨-, hs⟩ := validSeq_iff.mp hv.1.1
    have hr := h.seqRm hi seqId (-1) (-1)
    have he : st.seqRm seqId (-1) (-1) = ((st.seqRm seqId (-1) (-1)).1, .ok ()) :=
      Prod.ext rfl (hi.seqRm seqId (-1) (-1)).1
    rw [he]
    exact hr.setCursor (by rw [seqRm_cfg]; exact hs)

theorem Owned.clone {source : TailStore} (hsi : source.Inv) (hs : source.Owned)
    (e : st.cloneLogicalStateFrom source = (st', .ok ())) : st'.Owned := by
  unfold cloneLogicalStateFrom at e
  split at e
  · cases e
  · next hcfg =>
    split at e
    · cases e
    · next hn =>
      have hcfg : st.cfg = source.cfg := not_not.mp hcfg
      simp only [Bool.or_eq_true, not_or, Option.not_isSome_iff_eq_none] at hn
      have hm : ∀ s, s < st.cfg.nSeqMax → (st.copyFrom source).seqs s =
          (st.seqs s).load (source.seqs s).toSeqState := fun s h' => if_pos h'
      rw [forSeqs_ok fun s h' => by
        rw [hm s h', rebuildIndex_ok_iff]
        exact (hsi.seq s (by rw [← hcfg]; exact h')).keys] at e
      cases e
      refine ⟨fun s h' => ?_, (fun p hp => nomatch hp), (fun b hb => nomatch hb)⟩
      rw [mapSeqs_seqs (st.copyFrom source) h', hm s h']
      have := hs.seq s (by rw [← hcfg]; exact h')
      rw [acquired_none hn.1.2, ← hcfg] at this
      exact this

end Seq

/-! ## Sequence copies -/

section Copy

variable {cfg : TailCfg} {d : Nat} {t t' : SeqTail} {st st' : TailStore}

/-- The slots of the loop: given out, reusable, and of surviving entries still to come. -/
structure SlotsApart (t : SeqTail) (a : Assigned) (reusable kept : List Int) : Prop where
  nodup : (a.destination.map (·.slot) ++ reusable ++ kept).Nodup
  taken : ∀ x ∈ a.destination.map (·.slot) ++ reusable ++ kept,
    x ∈ t.entries.map (·.slot) ∨ x ∈ a.acquired
  acquired : ∀ x ∈ a.acquired, x ∈ a.destination.map (·.slot)

/-- A reusable or free slot goes to the destination. -/
theorem SlotsApart.copy {a : Assigned} {c : Candidate} {slot : Int}
    {reusable reusable' kept : List Int} (h : SlotsApart t a reusable kept) (acquired : List Int)
    (hp : (slot :: (a.destination.map (·.slot) ++ reusable' ++ kept)).Nodup)
    (ht : ∀ x ∈ slot :: (a.destination.map (·.slot) ++ reusable' ++ kept),
      x ∈ t'.entries.map (·.slot) ∨ x ∈ acquired)
    (ha : ∀ x ∈ acquired, x ∈ a.acquired ∨ x = slot) :
    SlotsApart t' { a.copy c slot with acquired := acquired } reusable' kept := by
  have e : ((a.copy c slot).destination.map (·.slot) ++ reusable' ++ kept).Perm
      (slot :: (a.destination.map (·.slot) ++ reusable' ++ kept)) := by
    simp only [Assigned.copy, map_append, map_cons, map_nil, append_assoc, singleton_append]
    exact perm_middle
  refine ⟨e.nodup_iff.mpr hp, fun x hx => ht x (e.mem_iff.mp hx), fun x hx => ?_⟩
  show x ∈ (a.copy c slot).destination.map (·.slot)
  simp only [Assigned.copy, map_append, mem_append, map_cons, map_nil, mem_singleton]
  exact (ha x hx).imp_left (h.acquired x)

/-- A surviving entry goes to the destination. -/
theorem SlotsApart.keep {a : Assigned} {e : TailEntry} {reusable kept : List Int}
    (h : SlotsApart t a reusable (e.slot :: kept)) :
    SlotsApart t { a with destination := a.destination ++ [e] } reusable kept := by
  have hp : ((a.destination ++ [e]).map (·.slot) ++ reusable ++ kept).Perm
      (a.destination.map (·.slot) ++ reusable ++ e.slot :: kept) := by
    simp only [map_append, map_cons, map_nil, append_assoc, singleton_append]
    exact List.Perm.append_left _ perm_middle.symm
  refine ⟨hp.nodup_iff.mpr h.nodup, fun x hx => h.taken x (hp.mem_iff.mp hx), fun x hx => ?_⟩
  show x ∈ (a.destination ++ [e]).map (·.slot)
  rw [map_append]
  exact mem_append_left _ (h.acquired x hx)

/-- The loop of `prepare_seq_cp`. -/
theorem assignSlots_slots (cs : List Candidate) :
    ∀ (reusable : List Int) (a : Assigned) (t : SeqTail), SlotInv cfg d a.acquired t.toSeqState →
      SlotsApart t a reusable (keptSlots cs) → ∀ (t' : SeqTail) (a' : Assigned),
      assignSlots cfg d cs reusable a t = (t', .ok a') →
      SlotInv cfg d a'.acquired t'.toSeqState ∧ ∃ r, SlotsApart t' a' r [] := by
  induction cs with
  | nil =>
    intro reusable a t h hs t' a' e
    unfold assignSlots at e
    obtain ⟨rfl, e⟩ := Prod.mk.inj e
    obtain rfl : a = a' := by simpa using e
    exact ⟨h, reusable, hs⟩
  | cons c cs ih =>
    intro reusable a t h hs t' a' e
    unfold assignSlots at e
    split at e
    · next hc =>
      have hk : keptSlots (c :: cs) = keptSlots cs := by simp [keptSlots, hc]
      rw [hk] at hs
      split at e
      · next slot hl =>
        -- the last reusable slot moves to the destination
        obtain ⟨rest, rfl⟩ := getLast?_eq_some_iff.mp hl
        rw [dropLast_concat] at e
        have hp : (slot :: (a.destination.map (·.slot) ++ rest ++ keptSlots cs)).Perm
            (a.destination.map (·.slot) ++ (rest ++ [slot]) ++ keptSlots cs) := by
          rw [← append_assoc, append_assoc _ [slot]]
          exact perm_middle.symm
        exact ih rest (a.copy c slot) t h
          (hs.copy a.acquired (hp.nodup_iff.mpr hs.nodup)
            (fun x hx => hs.taken x (hp.mem_iff.mp hx)) fun x hx => .inl hx) t' a' e
      · next hl =>
        obtain rfl := getLast?_eq_none_iff.mp hl
        rcases acquire_cases cfg d t with ⟨l, hlt, hf, hq⟩ | hq
        · -- a free slot: it is none of the taken ones
          rw [hq] at e
          simp only at e
          have hfree : slotOf cfg d l ∉ a.destination.map (·.slot) ++ [] ++ keptSlots cs := by
            intro hx
            have := (h.used l hlt).mpr (hs.taken _ hx)
            simp [hf] at this
          have hi := SlotInv.extra_perm (slotInv_acquire
            (c := (l + 1) % cfg.arenaStride) h hlt hf)
            (perm_append_singleton (slotOf cfg d l) a.acquired).symm
          exact ih [] { a.copy c (slotOf cfg d l) with
              acquired := a.acquired ++ [slotOf cfg d l] } _ hi
            (hs.copy _ (nodup_cons.mpr ⟨hfree, hs.nodup⟩)
              (fun x hx => by
                rcases mem_cons.mp hx with rfl | hx
                · exact .inr (by simp)
                · exact (hs.taken x hx).imp_right (mem_append_left _))
              fun x hx => by simpa using hx) t' a' e
        · rw [hq] at e
          simp only at e
          cases e
    · next hc =>
      have hk : keptSlots (c :: cs) = c.entry.slot :: keptSlots cs := by simp [keptSlots, hc]
      rw [hk] at hs
      exact ih reusable { a with destination := a.destination ++ [c.entry] } t h hs.keep t' a' e

/-- The retained candidates fit the loop. -/
theorem slotsApart_retained (h : st.Owned) {src dst srcStream dstStream : Nat} {p0 p1 : Int}
    (hd : dst < st.cfg.nSeqMax) :
    SlotsApart (st.seqs dst) {} (st.retainedCandidates src dst srcStream dstStream p0 p1).2
      (keptSlots (st.retainedCandidates src dst srcStream dstStream p0 p1).1) := by
  have hinv := h.seq dst hd
  generalize hr : st.retainedCandidates src dst srcStream dstStream p0 p1 = r
  have hk : (keptSlots r.1).Subperm ((st.seqs dst).entries.map (·.slot)) := by
    rw [← hr]
    exact keptSlots_retained ..
  have hk' : (keptSlots r.1).Nodup := by
    obtain ⟨l, hl, hsub⟩ := hk
    exact hl.nodup_iff.mp (hinv.slots.sublist hsub)
  have hr2 : r.2 = ((st.seqs dst).entries.map (·.slot)).filter fun x =>
      decide (x ∉ keptSlots r.1) := by
    rw [← hr]; rfl
  refine ⟨?_, fun x hx => .inl ?_, by simp⟩
  · simp only [map_nil, nil_append]
    refine nodup_append.mpr ⟨by rw [hr2]; exact hinv.slots.filter _, hk', ?_⟩
    rintro x hx y hy rfl
    rw [hr2, mem_filter, decide_eq_true_eq] at hx
    exact hx.2 hy
  · simp only [map_nil, nil_append, mem_append] at hx
    rcases hx with hx | hx
    · rw [hr2] at hx
      exact mem_of_mem_filter hx
    · exact hk.subset hx

/-- `prepare_seq_cp` outside a batch keeps `Owned`, and the copy can be committed. -/
theorem Owned.prepareSeqCp {src dst p0 p1 : Int} {srcStream dstStream : Nat}
    {copies : List TailSlotCopy} (hi : st.Inv) (h : st.Owned) (hb : st.inBatch = false)
    (e : st.prepareSeqCp src dst srcStream dstStream p0 p1 = (st', .ok copies)) :
    st'.Owned ∧ (st.pendingSeqCp = none → st'.Committable) := by
  rcases prepareSeqCp_cases e with rfl | ⟨t, a, flags, count, hd, hp, ha, rfl⟩
  · refine ⟨h, fun hp p hp' => ?_⟩
    rw [hp] at hp'
    cases hp'
  · have hinv := h.seq _ hd
    rw [acquired_none hp] at hinv
    obtain ⟨hs, r, hap⟩ := assignSlots_slots _ _ {} _ hinv (slotsApart_retained h hd) _ _ ha
    have htaken : ∀ x ∈ a.destination.map (·.slot), x ∈ t.entries.map (·.slot) ∨ x ∈ a.acquired :=
      fun x hx => hap.taken x (by simp [hx])
    refine ⟨⟨fun s hs' => ?_, fun p hp' => ?_, fun b hb' => ?_⟩, fun _ p hp' l hl hx => ?_⟩
    · by_cases e : s = dst.toNat
      · subst e
        simpa [TailStore.setSeq, acquired] using hs
      · have h1 := h.seq s hs'
        rw [acquired_none hp] at h1
        simpa [TailStore.setSeq, acquired, Function.update_of_ne e, Ne.symm e] using h1
    · cases hp'
      have hnd := hap.nodup
      simp only [append_nil] at hnd
      exact ⟨(nodup_append.mp hnd).1, hap.acquired⟩
    · have := (hi.batch b hb').inBatch
      rw [hb] at this
      cases this
    · cases hp'
      have := (hs.used l hl).mpr (htaken _ hx)
      simpa [TailStore.setSeq] using this

/-- The installed copy: the used slots are those of the installed entries. -/
theorem slotInv_installCp {p : PendingCp} (hl : ListInv cfg p.dst t.entries)
    (h : SlotInv cfg p.dst p.acquiredSlots t.toSeqState)
    (hp : (p.destination.map (·.slot)).Nodup)
    (ha : ∀ x ∈ p.acquiredSlots, x ∈ p.destination.map (·.slot))
    (hc : ∀ l, l < cfg.arenaStride → slotOf cfg p.dst l ∈ p.destination.map (·.slot) →
      t.used l = true) :
    SlotInv cfg p.dst [] (installCp cfg p t).toSeqState := by
  have hslots : (installCp cfg p t).entries.map (·.slot) = p.destination.map (·.slot) :=
    ofEntries_map (·.slot) _
  refine
    { slots := by rw [hslots]; exact hp
      extraNodup := nodup_nil
      extraArena := by simp
      disjoint := by simp
      used := fun l hlt => ?_ }
  have har : ∀ x ∈ (t.entries.map (·.slot)).filter
      (fun x => decide (x ∉ p.destination.map (·.slot))), InArena cfg p.dst x := fun x hx =>
    arena_map hl x (mem_of_mem_filter hx)
  rw [hslots]
  show (t.releaseAll cfg p.dst _).used l = true ↔ _
  rw [releaseAll_used har, h.used l hlt, mem_filter, decide_eq_true_eq]
  simp only [not_mem_nil, or_false]
  constructor
  · rintro ⟨hu | hu, hn⟩
    · exact not_not.mp fun hx => hn ⟨hu, hx⟩
    · exact ha _ hu
  · intro hx
    exact ⟨(h.used l hlt).mp (hc l hlt hx), fun hn => hn.2 hx⟩

/-- Ending a copy: the destination gets a tail of its own, and no slot is acquired any more. -/
theorem Owned.endCp {p : PendingCp} {t : SeqTail} (h : st.Owned) (hp : st.pendingSeqCp = some p)
    (ht : SlotInv st.cfg p.dst [] t.toSeqState) :
    ({ st.setSeq p.dst t with pendingSeqCp := none } : TailStore).Owned := by
  refine ⟨fun s hs => ?_, (fun q hq => nomatch hq), fun b hb s hs => ?_⟩
  · show SlotInv st.cfg s [] ((st.setSeq p.dst t).seqs s).toSeqState
    by_cases e : s = p.dst
    · subst e; simpa [TailStore.setSeq] using ht
    · have h1 := h.seq s hs
      have : st.acquired s = [] := by simp [acquired, hp, Ne.symm e]
      rw [this] at h1
      simpa [TailStore.setSeq, Function.update_of_ne e] using h1
  · obtain ⟨extra, hi, -⟩ := h.batch b hb s hs
    exact ⟨extra, hi, .inr rfl⟩

/-- The slots of the destination of a pending copy. -/
theorem Owned.seq_dst {p : PendingCp} (hi : st.Inv) (h : st.Owned) (hp : st.pendingSeqCp = some p) :
    SlotInv st.cfg p.dst p.acquiredSlots (st.seqs p.dst).toSeqState := by
  have := h.seq p.dst (hi.pending p hp).dst
  simpa [acquired, hp] using this

theorem Owned.commitSeqCp (hi : st.Inv) (h : st.Owned) (hc : st.Committable)
    (e : st.commitSeqCp = (st', .ok ())) : st'.Owned := by
  cases hp : st.pendingSeqCp with
  | none =>
    simp only [TailStore.commitSeqCp, hp] at e
    cases e
    exact h
  | some p =>
    obtain ⟨-, rfl⟩ := commitSeqCp_eq hp e
    obtain ⟨hnd, hacq⟩ := h.pending p hp
    have hl := (hi.seq _ (hi.pending p hp).dst).toListInv
    have hs := slotInv_installCp hl (h.seq_dst hi hp) hnd hacq (hc p hp)
    exact h.endCp hp (hs.congr rfl rfl)

theorem Owned.cancelSeqCp (hi : st.Inv) (h : st.Owned) : st.cancelSeqCp.Owned := by
  unfold TailStore.cancelSeqCp
  split
  · exact h
  · next p hp => exact h.endCp hp (slotInv_releaseExtra (h.seq_dst hi hp))

end Copy

end BeeLlama.TailStore
