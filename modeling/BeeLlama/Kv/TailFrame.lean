import BeeLlama.Kv.TailBatch
import BeeLlama.Lib.Fallible

/-!
# What the calls inside a batch leave as they are

Most operations change the tails of the sequences only (`Aside`). All but the ones that begin or end
a batch or drop the store keep the saved sequences of its transaction and, but for `commit`, its
rows (`apply_aside`). None of these makes a sequence longer than its limit (`apply_noLonger`), and
one that throws leaves the store (`apply_error`).

No operation changes the constants (`apply_cfg`), so the arenas of every store fit in its slots
(`fits_inductive`).
-/

namespace BeeLlama.TailStore

open TailStore SeqTail

/-- The saved sequences and the rows of a transaction. -/
def SameRows (b b' : TailBatch) : Prop := b'.saved = b.saved ∧ b'.current = b.current

/-- The constants, the phase and the transaction are the same. -/
structure Aside (st st' : TailStore) : Prop where
  cfg : st'.cfg = st.cfg
  inBatch : st'.inBatch = st.inBatch
  batch : Option.Rel SameRows st.batchTransaction st'.batchTransaction

/-- The calls that go on with the batch that is open, if there is one. -/
def Op.GoesOn : Op → Prop
  | .beginBatch => False
  | .finishBatch .. => False
  | .clear => False
  | .clone _ => False
  | _ => True

/-- The call is a `commit`. -/
def Op.IsCommit : Op → Prop
  | .commit .. => True
  | _ => False

/-- The call starts or ends a sequence copy. -/
def Op.Copies : Op → Prop
  | .prepareSeqCp .. => True
  | .commitSeqCp => True
  | .cancelSeqCp => True
  | _ => False

section

variable {st st₁ st₂ : TailStore}

theorem optionRel_sameRows (o : Option TailBatch) : Option.Rel SameRows o o := by
  cases o with
  | none => exact .none
  | some b => exact .some ⟨rfl, rfl⟩

theorem Aside.of_eq (hcfg : st₁.cfg = st.cfg) (hin : st₁.inBatch = st.inBatch)
    (hb : st₁.batchTransaction = st.batchTransaction) : Aside st st₁ :=
  ⟨hcfg, hin, hb ▸ optionRel_sameRows _⟩

theorem Aside.refl (st : TailStore) : Aside st st := .of_eq rfl rfl rfl

/-- `st₁` differs from `st` in the sequences only. -/
def SeqsOnly (st st₁ : TailStore) : Prop := st₁ = { st with seqs := st₁.seqs }

theorem SeqsOnly.refl (st : TailStore) : SeqsOnly st st := rfl

theorem SeqsOnly.setSeq (s : Nat) (t : SeqTail) : SeqsOnly st (st.setSeq s t) := rfl

theorem SeqsOnly.trans (h : SeqsOnly st st₁) (h' : SeqsOnly st₁ st₂) : SeqsOnly st st₂ := by
  unfold SeqsOnly at h h' ⊢
  rw [h', h]

theorem SeqsOnly.aside (h : SeqsOnly st st₁) : Aside st st₁ := by
  unfold SeqsOnly at h
  refine .of_eq ?_ ?_ ?_ <;> rw [h]

theorem SeqsOnly.pending (h : SeqsOnly st st₁) : st₁.pendingSeqCp = st.pendingSeqCp := by
  unfold SeqsOnly at h
  rw [h]

/-- A loop over the sequences, also one that throws. -/
theorem seqsOnly_forList {f : Nat → SeqTail → SeqTail × Except TailError Unit} {l : List Nat} :
    SeqsOnly st (forList f l st).1 := by
  induction l generalizing st with
  | nil => exact .refl st
  | cons s l ih =>
    unfold forList
    split
    · exact .setSeq s _
    · exact .trans (.setSeq s _) ih

theorem seqsOnly_seqRm (seqId p0 p1 : Int) : SeqsOnly st (st.seqRm seqId p0 p1).1 := by
  unfold seqRm
  split
  · exact .setSeq _ _
  · exact .refl st

/-- The operations on the sequences. -/
theorem apply_seqsOnly {op : Op} (h : op.GoesOn) (hc : ¬ op.IsCommit) (hcp : ¬ op.Copies)
    (hr : ∀ stream cell generation, op ≠ .recycle stream cell generation)
    (hd : ∀ seqId flags, op ≠ .markDegraded seqId flags) : SeqsOnly st (op.apply st).1 := by
  cases op with
  | beginBatch => exact absurd h id
  | finishBatch => exact absurd h id
  | clear => exact absurd h id
  | clone => exact absurd h id
  | commit => exact absurd trivial hc
  | prepareSeqCp => exact absurd trivial hcp
  | commitSeqCp => exact absurd trivial hcp
  | cancelSeqCp => exact absurd trivial hcp
  | recycle stream cell generation => exact absurd rfl (hr stream cell generation)
  | markDegraded seqId flags => exact absurd rfl (hd seqId flags)
  | seqRm seqId p0 p1 => exact seqsOnly_seqRm seqId p0 p1
  | seqRmCell seqId stream cell =>
    show SeqsOnly st (st.seqRmCell seqId stream cell).1
    unfold seqRmCell
    split
    · exact .setSeq _ _
    · exact .refl st
  | seqKeep seqId => exact seqsOnly_forList
  | seqAdd seqId p0 p1 shift =>
    show SeqsOnly st (st.seqAdd seqId p0 p1 shift).1
    unfold seqAdd
    split
    · exact seqsOnly_forList
    · exact .refl st
  | seqDiv seqId p0 p1 divisor =>
    show SeqsOnly st (st.seqDiv seqId p0 p1 divisor).1
    unfold seqDiv
    split
    · exact seqsOnly_forList
    · exact .refl st
  | invalidateSlots slots flags => exact seqsOnly_forList
  | resetWriteCursor seqId =>
    show SeqsOnly st (st.resetWriteCursor seqId).1
    have hrm := @seqsOnly_seqRm st seqId (-1) (-1)
    unfold resetWriteCursor
    split
    · exact .refl st
    · split
      · next e => exact congrArg Prod.fst e ▸ hrm
      · next e => exact (congrArg Prod.fst e ▸ hrm).trans (.setSeq _ _)
  | restoreWriteCursor seqId cursor =>
    show SeqsOnly st (st.restoreWriteCursor seqId cursor).1
    unfold restoreWriteCursor
    split
    · exact .refl st
    · exact .setSeq _ _
  | restore seqId identity position ordinal localSlot =>
    show SeqsOnly st (st.restore seqId identity position ordinal localSlot).1
    unfold restore
    split
    · exact .refl st
    · exact .setSeq _ _

theorem markDegraded_aside (seqId : Int) (flags : Nat) :
    Aside st (st.markDegraded seqId flags) := by
  unfold markDegraded
  split
  · exact .of_eq rfl rfl rfl
  · split
    · split <;> exact .of_eq rfl rfl rfl
    · exact .refl st

theorem prepareSeqCp_aside (src dst : Int) (srcStream dstStream : Nat) (p0 p1 : Int) :
    Aside st (st.prepareSeqCp src dst srcStream dstStream p0 p1).1 := by
  unfold prepareSeqCp
  split
  · exact .refl st
  · split
    · exact .refl st
    · dsimp only
      split <;> exact .of_eq rfl rfl rfl

theorem commitSeqCp_aside : Aside st st.commitSeqCp.1 := by
  unfold commitSeqCp
  split
  · exact .refl st
  · dsimp only
    split <;> exact .of_eq rfl rfl rfl

theorem cancelSeqCp_aside : Aside st st.cancelSeqCp := by
  unfold cancelSeqCp
  split
  · exact .refl st
  · exact .of_eq rfl rfl rfl

/-- Every call that goes on with a batch, but for `commit`. -/
theorem apply_aside {op : Op} (h : op.GoesOn) (hc : ¬ op.IsCommit) : Aside st (op.apply st).1 := by
  by_cases hcp : op.Copies
  · cases op with
    | prepareSeqCp src dst srcStream dstStream p0 p1 => exact prepareSeqCp_aside ..
    | commitSeqCp => exact commitSeqCp_aside
    | cancelSeqCp => exact cancelSeqCp_aside
    | _ => exact absurd hcp id
  by_cases hr : ∃ stream cell generation, op = .recycle stream cell generation
  · obtain ⟨stream, cell, generation, rfl⟩ := hr
    refine ⟨rfl, rfl, ?_⟩
    show Option.Rel SameRows st.batchTransaction (st.batchTransaction.map _)
    cases st.batchTransaction with
    | none => exact .none
    | some b => exact .some ⟨rfl, rfl⟩
  by_cases hd : ∃ seqId flags, op = .markDegraded seqId flags
  · obtain ⟨seqId, flags, rfl⟩ := hd
    exact markDegraded_aside seqId flags
  exact (apply_seqsOnly h hc hcp (fun _ _ _ e => hr ⟨_, _, _, e⟩)
    fun _ _ e => hd ⟨_, _, e⟩).aside

/-- No call but `prepare_seq_cp` makes a copy pending. -/
theorem apply_pending {op : Op} (h : op.GoesOn) (hc : ¬ op.IsCommit) (hcp : ¬ op.Copies)
    (hp : st.pendingSeqCp = none) : (op.apply st).1.pendingSeqCp = none := by
  by_cases hr : ∃ stream cell generation, op = .recycle stream cell generation
  · obtain ⟨stream, cell, generation, rfl⟩ := hr
    exact hp
  by_cases hd : ∃ seqId flags, op = .markDegraded seqId flags
  · obtain ⟨seqId, flags, rfl⟩ := hd
    show (st.markDegraded seqId flags).pendingSeqCp = none
    unfold markDegraded
    rw [hp]
    split
    · rfl
    · split
      · exact hp
      · exact hp
  rw [(apply_seqsOnly h hc hcp (fun _ _ _ e => hr ⟨_, _, _, e⟩)
    fun _ _ e => hd ⟨_, _, e⟩).pending]
  exact hp

end

/-! ## How many entries a call leaves -/

section NoLonger

variable {st st₁ st₂ : TailStore}

/-- No sequence gets longer, but for one shorter than its limit. -/
def NoLonger (st st' : TailStore) : Prop :=
  ∀ s, s < st.cfg.nSeqMax →
    (st'.seqs s).entries.length ≤ max (st.seqs s).entries.length st.cfg.limit

theorem NoLonger.refl (st : TailStore) : NoLonger st st := fun _ _ => Nat.le_max_left _ _

theorem NoLonger.trans (h : NoLonger st st₁) (hcfg : st₁.cfg = st.cfg) (h' : NoLonger st₁ st₂) :
    NoLonger st st₂ := fun s hs => by
  have h2 := h' s (by rw [hcfg]; exact hs)
  rw [hcfg] at h2
  have h1 := h s hs
  omega

theorem NoLonger.setSeq {s : Nat} {t : SeqTail}
    (h : t.entries.length ≤ max (st.seqs s).entries.length st.cfg.limit) :
    NoLonger st (st.setSeq s t) := fun r _ => by
  by_cases e : r = s
  · subst e
    simpa [TailStore.setSeq] using h
  · simp [TailStore.setSeq, Function.update_of_ne e]

theorem NoLonger.mapSeqs {f : Nat → SeqTail → SeqTail} (h : ∀ s, s < st.cfg.nSeqMax →
      (f s (st.seqs s)).entries.length ≤ max (st.seqs s).entries.length st.cfg.limit) :
    NoLonger st (st.mapSeqs f) := fun s hs => by
  rw [mapSeqs_seqs st hs]
  exact h s hs

theorem NoLonger.forSeqs {f : Nat → SeqTail → SeqTail × Except TailError Unit}
    (hok : ∀ s, s < st.cfg.nSeqMax → (f s (st.seqs s)).2 = .ok ())
    (h : ∀ s, s < st.cfg.nSeqMax →
      (f s (st.seqs s)).1.entries.length ≤ max (st.seqs s).entries.length st.cfg.limit) :
    NoLonger st (st.forSeqs f).1 := by
  rw [forSeqs_ok hok]
  exact NoLonger.mapSeqs (f := fun s t => (f s t).1) h

theorem length_le_max {a b c : Nat} (h : a ≤ b) : a ≤ max b c :=
  Nat.le_trans h (Nat.le_max_left _ _)

theorem seqRm_noLonger (h : st.Inv) (seqId p0 p1 : Int) : NoLonger st (st.seqRm seqId p0 p1).1 := by
  unfold seqRm
  split
  · next hv =>
    refine NoLonger.setSeq (length_le_max ?_)
    rw [(seqRm_spec (h.seq _ (validSeq_iff.mp hv).2) p0 p1).2.2]
    exact List.length_filter_le _ _
  · exact .refl st

/-- A call inside a batch that is no `commit`. -/
theorem apply_noLonger (h : st.Inv) (hin : st.inBatch = true) {op : Op} (hg : op.GoesOn)
    (hc : ¬ op.IsCommit) (hcp : ¬ op.Copies) : NoLonger st (op.apply st).1 := by
  cases op with
  | beginBatch => exact absurd hg id
  | finishBatch => exact absurd hg id
  | clear => exact absurd hg id
  | clone => exact absurd hg id
  | commit => exact absurd trivial hc
  | prepareSeqCp => exact absurd trivial hcp
  | commitSeqCp => exact absurd trivial hcp
  | cancelSeqCp => exact absurd trivial hcp
  | recycle stream cell generation =>
    exact NoLonger.mapSeqs (f := fun s t => (t.recycle st.cfg s stream cell generation).1)
      fun s hs => length_le_max
        (recycle_spec (h.seq s hs) stream cell generation).2.1.length_le
  | markDegraded seqId flags =>
    show NoLonger st (st.markDegraded seqId flags)
    unfold markDegraded
    split
    · exact NoLonger.mapSeqs (f := fun _ t => t.degrade flags) fun s _ => Nat.le_max_left _ _
    · split
      · split
        · exact .refl st
        · exact NoLonger.setSeq (Nat.le_max_left _ _)
      · exact .refl st
  | seqRm seqId p0 p1 => exact seqRm_noLonger h seqId p0 p1
  | seqRmCell seqId stream cell =>
    show NoLonger st (st.seqRmCell seqId stream cell).1
    unfold seqRmCell
    split
    · next hv =>
      refine NoLonger.setSeq (length_le_max ?_)
      rw [(seqRmCell_spec (h.seq _ (validSeq_iff.mp hv).2) stream cell).2.2]
      exact List.length_filter_le _ _
    · exact .refl st
  | seqKeep seqId =>
    refine NoLonger.forSeqs (fun s hs => ?_) fun s hs => ?_
    · split
      · rfl
      · exact (seqRm_spec (h.seq s hs) 0 (-1)).1
    · split
      · exact Nat.le_max_left _ _
      · refine length_le_max ?_
        rw [(seqRm_spec (h.seq s hs) 0 (-1)).2.2]
        exact List.length_filter_le _ _
  | seqAdd seqId p0 p1 shift =>
    show NoLonger st (st.seqAdd seqId p0 p1 shift).1
    unfold seqAdd
    split
    · exact NoLonger.forSeqs (fun s hs => (seqAdd_spec (h.seq s hs) _ _ _).1)
        fun s hs => (seqAdd_spec (h.seq s hs) _ _ _).2.2.2.2
    · exact .refl st
  | seqDiv seqId p0 p1 divisor =>
    show NoLonger st (st.seqDiv seqId p0 p1 divisor).1
    unfold seqDiv
    split
    · exact NoLonger.forSeqs (fun s hs => (seqDiv_spec (h.seq s hs) _ _ _).1)
        fun s hs => (seqDiv_spec (h.seq s hs) _ _ _).2.2.2
    · exact .refl st
  | invalidateSlots slots flags =>
    exact NoLonger.forSeqs (fun s hs => (invalidateSlots_spec (h.seq s hs) slots flags).1)
      fun s hs => length_le_max
        (invalidateSlots_spec (h.seq s hs) slots flags).2.2.length_le
  | resetWriteCursor seqId =>
    show NoLonger st (st.resetWriteCursor seqId).1
    have hrm := seqRm_noLonger h seqId (-1) (-1)
    unfold resetWriteCursor
    split
    · exact .refl st
    · split
      · next e => exact congrArg Prod.fst e ▸ hrm
      · next st' e =>
        have hst' : st' = (st.seqRm seqId (-1) (-1)).1 := (congrArg Prod.fst e).symm
        rw [hst']
        exact hrm.trans seqRm_cfg (NoLonger.setSeq (Nat.le_max_left _ _))
  | restoreWriteCursor seqId cursor =>
    show NoLonger st (st.restoreWriteCursor seqId cursor).1
    unfold restoreWriteCursor
    rw [if_pos (by simp [hin])]
    exact .refl st
  | restore seqId identity position ordinal localSlot =>
    show NoLonger st (st.restore seqId identity position ordinal localSlot).1
    unfold restore
    rw [if_pos (by simp [hin])]
    exact .refl st

end NoLonger

/-! ## The calls that throw -/

/-- A call on the store alone: no part of a copy, and it reads no other store. -/
def Op.Direct : Op → Prop
  | .prepareSeqCp .. => False
  | .commitSeqCp => False
  | .cancelSeqCp => False
  | .clone _ => False
  | _ => True

section Throws

variable {st st' : TailStore}

theorem setSeq_eq_self (st : TailStore) (s : Nat) : st.setSeq s (st.seqs s) = st := by
  unfold setSeq
  rw [Function.update_eq_self]

theorem finishBatch_ok (h : st.Inv) (success payload : Bool) :
    (st.finishBatch success payload).2 = .ok () := by
  cases hc : st.cfg.compactStorage with
  | false => simp [finishBatch, hc]
  | true =>
    cases hb : st.batchTransaction with
    | none => simp [finishBatch, hc, hb]
    | some b =>
      cases success with
      | true => simp [finishBatch, hc, hb]
      | false => rw [finishBatch_rollback h hc hb]

/-- A call that throws leaves the store, but for `commit`. -/
theorem apply_error (h : st.Inv) {op : Op} (hd : op.Direct) (hc : ¬ op.IsCommit) {er : TailError}
    (e : (op.apply st).2 = .error er) :
    (op.apply st).1 = st ∧ (∀ s n, er ≠ .arenaExhausted s n) := by
  have hok : ∀ {o : Out Unit}, o.2 = .ok () → o.2 = .error er → False := fun h h' => by
    rw [h] at h'
    cases h'
  cases op with
  | beginBatch =>
    change st.beginBatch.2 = _ at e
    show st.beginBatch.1 = st ∧ _
    unfold beginBatch at e ⊢
    split at e
    · next hb =>
      rw [if_pos hb]
      obtain rfl := Except.error.inj e
      exact ⟨rfl, fun _ _ => nofun⟩
    · cases e
  | finishBatch success payload => exact (hok (finishBatch_ok h success payload) e).elim
  | clear => cases e
  | clone => exact hd.elim
  | commit => exact absurd trivial hc
  | prepareSeqCp => exact hd.elim
  | commitSeqCp => exact hd.elim
  | cancelSeqCp => exact hd.elim
  | recycle => cases e
  | markDegraded => cases e
  | seqRm seqId p0 p1 => exact (hok (h.seqRm seqId p0 p1).1 e).elim
  | seqRmCell => exact (hok h.seqRmCell.1 e).elim
  | seqKeep => exact (hok h.seqKeep.1 e).elim
  | seqAdd => exact (hok h.seqAdd.1 e).elim
  | seqDiv => exact (hok h.seqDiv.1 e).elim
  | invalidateSlots => exact (hok h.invalidateSlots.1 e).elim
  | resetWriteCursor => exact (hok h.resetWriteCursor.1 e).elim
  | restoreWriteCursor seqId cursor =>
    change (st.restoreWriteCursor seqId cursor).2 = _ at e
    show (st.restoreWriteCursor seqId cursor).1 = st ∧ _
    unfold restoreWriteCursor at e ⊢
    split at e
    · next hv =>
      rw [if_pos hv]
      obtain rfl := Except.error.inj e
      exact ⟨rfl, fun _ _ => nofun⟩
    · cases e
  | restore seqId identity position ordinal localSlot =>
    change ((st.restore seqId identity position ordinal localSlot).2.map fun _ => ()) = _ at e
    show (st.restore seqId identity position ordinal localSlot).1 = st ∧ _
    unfold restore at e ⊢
    split at e
    · next hv =>
      rw [if_pos hv]
      obtain rfl := Except.error.inj e
      exact ⟨rfl, fun _ _ => nofun⟩
    · next hv =>
      rw [if_neg hv]
      unfold SeqTail.restore at e ⊢
      split at e
      · next hx =>
        rw [if_pos hx]
        obtain rfl := Except.error.inj e
        exact ⟨setSeq_eq_self st _, fun _ _ => nofun⟩
      · cases e

end Throws

/-! ## The constants -/

section Constants

variable {st st' : TailStore}

theorem forSeqs_cfg (f : Nat → SeqTail → SeqTail × Except TailError Unit) :
    (st.forSeqs f).1.cfg = st.cfg :=
  (seqsOnly_forList (f := f)).aside.cfg

theorem beginBatch_cfg : st.beginBatch.1.cfg = st.cfg := by
  unfold beginBatch
  split <;> rfl

theorem finishBatch_cfg (success payload : Bool) :
    (st.finishBatch success payload).1.cfg = st.cfg := by
  unfold finishBatch
  split
  · rfl
  · split
    · rfl
    · next b _ =>
      dsimp only
      split
      · rfl
      · have h := @forSeqs_cfg (st.mapSeqs fun s t => t.load (b.saved s))
          (rollbackSeq st.cfg b payload)
        split
        · next e => exact (congrArg (fun o => o.1.cfg) e).symm.trans h
        · next e => exact (congrArg (fun o => o.1.cfg) e).symm.trans h

theorem apply_cfg (op : Op) : (op.apply st).1.cfg = st.cfg := by
  by_cases hg : op.GoesOn
  · by_cases hc : op.IsCommit
    · cases op with
      | commit => exact commit_cfg ..
      | _ => exact hc.elim
    · exact (apply_aside hg hc).cfg
  · cases op with
    | beginBatch => exact beginBatch_cfg
    | finishBatch success payload => exact finishBatch_cfg success payload
    | clear => rfl
    | clone source =>
      show (st.cloneLogicalStateFrom source).1.cfg = st.cfg
      unfold cloneLogicalStateFrom
      split
      · rfl
      · split
        · rfl
        · exact forSeqs_cfg _
    | _ => exact absurd trivial hg

/-- The arenas are among the slots, and each has room for the newest entries. -/
structure Fits (cfg : TailCfg) : Prop where
  arenas : cfg.nSeqMax * cfg.arenaStride ≤ cfg.nSlots
  int32 : cfg.nSlots ≤ INT32_MAX
  limit : cfg.limit ≤ cfg.arenaStride

theorem sys_init_fits (h : sys.init st) : Fits st.cfg := by
  rcases h with ⟨nTokens, nSeqMax, arenaStride, sinkSlots, e⟩ | ⟨nTokens, rollbackTokens, nSeqMax,
    historyStride, sinkSlots, e⟩
  · unfold create at e
    obtain ⟨n, hn, e⟩ := bind_ok e
    obtain ⟨hn, hle⟩ := checkedTailSlotCount_ok hn
    split at e
    · cases e
    · next hs =>
      cases e
      refine ⟨?_, hle, show nTokens ≤ arenaStride by omega⟩
      show nSeqMax * arenaStride ≤ n
      rw [hn, Nat.mul_comm]
      exact Nat.le_add_right _ _
  · unfold createCompact at e
    obtain ⟨limit, -, e⟩ := bind_ok e
    obtain ⟨n, hn, e⟩ := bind_ok e
    obtain ⟨hn, hle⟩ := checkedTailSlotCount_ok hn
    split at e
    · cases e
    · next hs =>
      cases e
      refine ⟨?_, hle, show limit ≤ historyStride by omega⟩
      show nSeqMax * historyStride ≤ n
      rw [hn, Nat.mul_comm]
      exact Nat.le_add_right _ _

theorem fits_inductive (ok : TailStore → Op → Prop) : sys.Inductive ok fun st => Fits st.cfg where
  init _ h := sys_init_fits h
  step st op st' h _ e _ := by
    have hcfg : st'.cfg = st.cfg := by
      rw [← @apply_cfg st op, e]
    rw [hcfg]
    exact h

/-- A slot of an arena is one of the store. -/
theorem Fits.lt_nSlots {cfg : TailCfg} (h : Fits cfg) {s : Nat} (hs : s < cfg.nSeqMax) {x : Int}
    (hx : InArena cfg s x) : x < cfg.nSlots := by
  have hle : (s + 1) * cfg.arenaStride ≤ cfg.nSlots :=
    Nat.le_trans (Nat.mul_le_mul_right _ hs) h.arenas
  exact Int.lt_of_lt_of_le (inArena_iff.mp hx).2 (Int.ofNat_le.mpr hle)

/-- In every run the entries have slots of the store, and two sequences share none. -/
theorem reach_slots (h : sys.Reach (fun _ _ => True) st) {s : Nat} (hs : s < st.cfg.nSeqMax)
    {n : TailNode} (hn : n ∈ (st.seqs s).entries) :
    0 ≤ n.slot ∧ n.slot < st.cfg.nSlots ∧ ∀ s' < st.cfg.nSeqMax,
      ∀ n' ∈ (st.seqs s').entries, n'.slot = n.slot → s' = s := by
  have hi := h.inv (inv_inductive _)
  have ha := (hi.seq s hs).arena n hn
  exact ⟨InArena.nonneg ha, (h.inv (fits_inductive _)).lt_nSlots hs ha, fun s' hs' n' hn' e =>
    InArena.eq (e ▸ (hi.seq s' hs').arena n' hn') ha⟩

theorem reach_slots_oneEntry : ∃ n ∈ (oneEntry.seqs 0).entries, n.slot < 4 :=
  ⟨_, .head _, (reach_slots oneEntry_reach (show 0 < 2 by decide) (.head _)).2.1⟩

end Constants

end BeeLlama.TailStore
