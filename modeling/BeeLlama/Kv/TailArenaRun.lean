import BeeLlama.Kv.TailArena

/-!
# Runs with the arenas of a layout

`arenaSys` is a store made for a layout, with the calls of batches, removals, shifts and copies that
are committed at once. It counts the commits of a batch (`Metered`).

* `room_inductive`: in every run the used slots are those of the entries, nothing is pending, and a
  batch of the standard store has added no more entries than it has made commits.
* `arenas_suffice`: so no call of a run throws `arena exhausted`, the slots are below `total_slots`,
  and the byte counts of the plan are exact.
-/

namespace BeeLlama.TailStore

open TailStore SeqTail

/-! ## Runs -/

/-- A store and the commits of each sequence since `begin_batch`. -/
structure Metered where
  st : TailStore
  commits : Nat → Nat := fun _ => 0

/-- What a caller does: a call, or a copy that is committed at once. -/
inductive ArenaCall where
  | call (op : Op)
  | seqCpRemap (src dst : Int) (srcStream dstStream : Nat) (p0 p1 : Int)
  | seqCp (src dst p0 p1 : Int)

/-- The commits since `begin_batch`, after the call. -/
def Op.count (commits : Nat → Nat) : Op → Nat → Nat
  | .beginBatch => fun _ => 0
  | .commit seqId .. => fun s => if seqId = s then commits s + 1 else commits s
  | _ => commits

/-- A batch commits at most `nUbatch` tokens of a sequence. -/
def Op.WithinBatch (nUbatch : Nat) (m : Metered) : Op → Prop
  | .commit seqId .. => m.st.inBatch = true → ∀ s : Nat, seqId = s → m.commits s < nUbatch
  | _ => True

namespace ArenaCall

/-- The outcome of the call. -/
def out (st : TailStore) : ArenaCall → Out Unit
  | .call op => op.apply st
  | .seqCpRemap src dst srcStream dstStream p0 p1 =>
    Out.void (st.seqCpRemap src dst srcStream dstStream p0 p1)
  | .seqCp src dst p0 p1 => st.seqCp src dst p0 p1

def count (commits : Nat → Nat) : ArenaCall → Nat → Nat
  | .call op => op.count commits
  | _ => commits

/-- Copies are made outside batches. -/
def Within (nUbatch : Nat) (m : Metered) : ArenaCall → Prop
  | .call op => op.Direct ∧ op.WithinBatch nUbatch m
  | _ => m.st.inBatch = false

/-- A copy is committed. -/
def Committed (st : TailStore) : ArenaCall → Prop
  | .call _ => True
  | c => (c.out st).2 = .ok ()

/-- The slots that the call returns. -/
def slots (st : TailStore) : ArenaCall → List Int
  | .call (.commit seqId identity position ordinal row) =>
    (st.commit seqId identity position ordinal row).2.toOption.toList
  | .call (.restore seqId identity position ordinal localSlot) =>
    (st.restore seqId identity position ordinal localSlot).2.toOption.toList
  | .call _ => []
  | .seqCpRemap src dst srcStream dstStream p0 p1 =>
    ((st.seqCpRemap src dst srcStream dstStream p0 p1).2.toOption.getD []).flatMap
      fun c => [c.srcSlot, c.dstSlot]
  | .seqCp .. => []

end ArenaCall

/-- The store is made for a layout with `totalSlots` slots. -/
inductive MadeFor (nTokens nSeqMax nUbatch totalSlots : Nat) (st : TailStore) : Prop where
  | standard (l : TailLayout) (hl : tailLayoutFor nTokens nSeqMax nUbatch = .ok l)
    (htotal : l.totalSlots = totalSlots)
    (hst : create nTokens nSeqMax l.arenaStride l.sinkSlots = .ok st)
  | compact (rollbackTokens : Nat) (l : TailCompactLayout)
    (hl : tailCompactLayoutFor nTokens rollbackTokens nSeqMax nUbatch = .ok l)
    (htotal : l.historySlots = totalSlots)
    (hst : createCompact nTokens l.rollbackTokens nSeqMax l.historyStride 0 = .ok st)

/-- The store and the counts after a call. -/
def Metered.next (m : Metered) (c : ArenaCall) : Metered := ⟨(c.out m.st).1, c.count m.commits⟩

/-- The runs of a store made for a layout. A call may throw; a copy has to be committed. -/
def arenaSys (nTokens nSeqMax nUbatch totalSlots : Nat) : Sys Metered ArenaCall where
  init m := MadeFor nTokens nSeqMax nUbatch totalSlots m.st ∧ m.commits = fun _ => 0
  step m c m' := m' = m.next c ∧ c.Committed m.st

/-- The arenas have room: the used slots are those of the entries, also in what a batch saved, and
a batch of the standard store adds at most one entry for each commit. -/
structure Room (nUbatch : Nat) (m : Metered) : Prop where
  inv : m.st.Inv
  owned : m.st.Owned
  fits : Fits m.st.cfg
  idle : m.st.pendingSeqCp = none
  saved : ∀ b, m.st.batchTransaction = some b → ∀ s, s < m.st.cfg.nSeqMax →
    SlotInv m.st.cfg s [] (b.saved s)
  stride : m.st.cfg.compactStorage = false → m.st.cfg.nTokens + nUbatch ≤ m.st.cfg.arenaStride
  batch : m.st.cfg.compactStorage = false → m.st.inBatch = true →
    ∀ s, s < m.st.cfg.nSeqMax →
      (m.st.seqs s).entries.length ≤ m.st.cfg.nTokens + m.commits s ∧ m.commits s ≤ nUbatch

section Steps

variable {st : TailStore} {commits : Nat → Nat} {nUbatch : Nat}

theorem Room.slot (h : Room nUbatch ⟨st, commits⟩) {s : Nat} (hs : s < st.cfg.nSeqMax) :
    SlotInv st.cfg s [] (st.seqs s).toSeqState := by
  have := h.owned.seq s hs
  rwa [acquired_none h.idle] at this

theorem Room.restorable (h : Room nUbatch ⟨st, commits⟩) : st.Restorable := by
  intro b hb s hs l hl hu
  rcases ((h.saved b hb s hs).used l hl).mp hu with hm | hm
  · exact .inl hm
  · cases hm

/-- What `commit` finds. -/
theorem Room.commit_eq (h : Room nUbatch ⟨st, commits⟩) {seqId : Int}
    (hv : st.validSeq seqId = true ∧ st.cfg.nTokens ≠ 0)
    (hw : st.inBatch = true → ∀ s : Nat, seqId = s → commits s < nUbatch)
    (identity : TailIdentity) (position : Int) (ordinal row : Nat) :
    ∃ t, (st.seqs seqId.toNat).commit st.cfg seqId.toNat st.inBatch identity position ordinal =
        (t, .ok ()) ∧
      st.commit seqId identity position ordinal row =
        (st.setSeq seqId.toNat t).noteCurrent seqId.toNat
          ⟨identity, position, ordinal, t.retained identity⟩ row := by
  obtain ⟨hid, hs⟩ := validSeq_iff.mp hv.1
  have hroom : (st.cfg.compactStorage = true ∨ st.inBatch = false) ∨
      (st.seqs seqId.toNat).entries.length < st.cfg.arenaStride := by
    by_cases hc : st.cfg.compactStorage = true
    · exact .inl (.inl hc)
    · by_cases hin : st.inBatch = true
      · have hc : st.cfg.compactStorage = false := by simpa using hc
        have hlen := (h.batch hc hin _ hs).1
        have hlt := hw hin seqId.toNat hid
        have hstride := h.stride hc
        refine .inr ?_
        change (st.seqs seqId.toNat).entries.length ≤ st.cfg.nTokens + commits seqId.toNat at hlen
        change st.cfg.nTokens + nUbatch ≤ st.cfg.arenaStride at hstride
        omega
      · exact .inl (.inr (by simpa using hin))
  obtain ⟨t, ht⟩ := commit_room (h.inv.seq _ hs) (h.slot hs) h.fits.limit
    (h.inv.cfg.limit_pos hv.2) hroom identity position ordinal
  rcases TailStore.commit_eq identity position ordinal row hv.1 hv.2 with
    ⟨t', er, ht', -⟩ | ⟨t', ht', e⟩
  · rw [ht] at ht'
    cases ht'
  · exact ⟨t', ht', e⟩

/-- The count of a commit. -/
theorem count_commit {seqId position : Int} {identity : TailIdentity} {ordinal row s : Nat}
    (hle : commits s ≤ nUbatch) (hw : ∀ s : Nat, seqId = s → commits s < nUbatch) :
    commits s ≤ (Op.commit seqId identity position ordinal row).count commits s ∧
      (Op.commit seqId identity position ordinal row).count commits s ≤ nUbatch ∧
      (seqId = s → (Op.commit seqId identity position ordinal row).count commits s =
        commits s + 1) := by
  show commits s ≤ (if seqId = s then commits s + 1 else commits s) ∧
    (if seqId = s then commits s + 1 else commits s) ≤ nUbatch ∧
    (seqId = s → (if seqId = s then commits s + 1 else commits s) = commits s + 1)
  split
  · next hs =>
    have := hw s hs
    exact ⟨by omega, by omega, fun _ => rfl⟩
  · next hs => exact ⟨Nat.le_refl _, hle, fun h => absurd h hs⟩

theorem Room.commit (h : Room nUbatch ⟨st, commits⟩) (seqId : Int) (identity : TailIdentity)
    (position : Int) (ordinal row : Nat)
    (hw : st.inBatch = true → ∀ s : Nat, seqId = s → commits s < nUbatch) :
    Room nUbatch ⟨(st.commit seqId identity position ordinal row).1,
      (Op.commit seqId identity position ordinal row).count commits⟩ := by
  have hcfg : (st.commit seqId identity position ordinal row).1.cfg = st.cfg := commit_cfg ..
  have hin : (st.commit seqId identity position ordinal row).1.inBatch = st.inBatch :=
    commit_inBatch ..
  obtain ⟨hpend, hsaved⟩ := commit_saved st seqId identity position ordinal row
  have howned : (st.commit seqId identity position ordinal row).1.Owned ∧
      ∀ s, s < st.cfg.nSeqMax →
        (((st.commit seqId identity position ordinal row).1.seqs s).entries.length ≤
          (st.seqs s).entries.length ∨ seqId = s ∧
        ((st.commit seqId identity position ordinal row).1.seqs s).entries.length ≤
          (st.seqs s).entries.length + 1) := by
    by_cases hv : st.validSeq seqId = true ∧ st.cfg.nTokens ≠ 0
    · obtain ⟨hid, hs⟩ := validSeq_iff.mp hv.1
      obtain ⟨t, ht, e⟩ := h.commit_eq hv hw identity position ordinal row
      rw [e]
      refine ⟨Owned.noteCurrent (h.owned.setSeq
        (slotInv_commit (h.inv.seq _ hs) (h.owned.seq _ hs) ht)) _ _ _, fun s _ => ?_⟩
      rw [(noteCurrent_seqs _ _ _ _).1]
      by_cases hss : s = seqId.toNat
      · subst hss
        refine .inr ⟨hid, ?_⟩
        have := commit_length (h.inv.seq _ hs) ht
        simpa [setSeq] using this
      · exact .inl (by simp [setSeq, Function.update_of_ne hss])
    · rw [commit_invalid hv]
      exact ⟨h.owned, fun s _ => .inl (Nat.le_refl _)⟩
  refine ⟨h.inv.commit .., howned.1, by rw [hcfg]; exact h.fits, hpend.trans h.idle,
    fun b hb s hs => ?_, by rw [hcfg]; exact h.stride, fun hc hin' s hs => ?_⟩
  · obtain ⟨b0, hb0, hbs⟩ := hsaved b hb
    rw [hcfg] at hs ⊢
    rw [hbs]
    exact h.saved b0 hb0 s hs
  · rw [hcfg] at hc hs ⊢
    rw [hin] at hin'
    obtain ⟨hlen, hle⟩ := h.batch hc hin' s hs
    obtain ⟨hmono, hle', hadd⟩ := @count_commit commits nUbatch seqId position identity ordinal row
      s hle (hw hin')
    refine ⟨?_, hle'⟩
    rcases howned.2 s hs with hs' | ⟨hid, hs'⟩
    · exact Nat.le_trans hs' (Nat.le_trans hlen (Nat.add_le_add_left hmono _))
    · refine Nat.le_trans hs' ?_
      show _ ≤ st.cfg.nTokens + (Op.commit seqId identity position ordinal row).count commits s
      rw [hadd hid]
      exact Nat.succ_le_succ hlen

/-- A call that goes on with a batch. -/
theorem Room.goesOn (h : Room nUbatch ⟨st, commits⟩) {op : Op} (hg : op.GoesOn)
    (hc : ¬ op.IsCommit) (hcp : ¬ op.Copies) (hinv : (op.apply st).1.Inv)
    (howned : (op.apply st).1.Owned) : Room nUbatch ⟨(op.apply st).1, commits⟩ := by
  have ha := @apply_aside st op hg hc
  refine ⟨hinv, howned, by rw [ha.cfg]; exact h.fits, apply_pending hg hc hcp h.idle,
    fun b hb s hs => ?_, by rw [ha.cfg]; exact h.stride, fun hc' hin s hs => ?_⟩
  · have hrel := ha.batch
    cases hb0 : st.batchTransaction with
    | none =>
      rw [hb0, hb] at hrel
      cases hrel
    | some b0 =>
      rw [hb0, hb] at hrel
      cases hrel with
      | some hsame =>
        rw [ha.cfg] at hs ⊢
        rw [hsame.1]
        exact h.saved b0 hb0 s hs
  · rw [ha.cfg] at hc' hs ⊢
    rw [ha.inBatch] at hin
    obtain ⟨hlen, hle⟩ := h.batch hc' hin s hs
    refine ⟨?_, hle⟩
    have hno := apply_noLonger h.inv hin hg hc hcp s hs
    have hlim : st.cfg.limit = st.cfg.nTokens := by
      rw [TailCfg.limit, hc']
      rfl
    rw [hlim] at hno
    exact Nat.le_trans hno (Nat.max_le.mpr ⟨hlen, Nat.le_add_right _ _⟩)

theorem Room.beginBatch (h : Room nUbatch ⟨st, commits⟩) :
    Room nUbatch ⟨st.beginBatch.1, fun _ => 0⟩ := by
  by_cases hb : (st.cfg.compactStorage && st.batchTransaction.isSome) = true
  · -- the call throws
    have e : st.beginBatch.1 = st := by
      unfold TailStore.beginBatch
      rw [if_pos hb]
    rw [e]
    refine ⟨h.inv, h.owned, h.fits, h.idle, h.saved, h.stride, fun hc => ?_⟩
    rw [Bool.and_eq_true] at hb
    exact absurd hc (by rw [hb.1]; decide)
  · have e : st.beginBatch = (st.beginBatch.1, .ok ()) := by
      unfold TailStore.beginBatch
      rw [if_neg hb]
    have hinv := h.inv.beginBatch e
    have hcfg : st.beginBatch.1.cfg = st.cfg := beginBatch_cfg
    have hpend : st.beginBatch.1.pendingSeqCp = st.pendingSeqCp := by
      unfold TailStore.beginBatch
      rw [if_neg hb]
      rfl
    refine ⟨hinv, h.owned.beginBatch h.inv e, by rw [hcfg]; exact h.fits, hpend.trans h.idle,
      fun b hb' s hs => ?_, by rw [hcfg]; exact h.stride, fun hc _ s hs => ?_⟩
    · have hc := (hinv.batch b hb').compact
      rw [hcfg] at hc hs ⊢
      rw [(beginBatch_saved hc e).2] at hb'
      cases hb'
      exact h.slot hs
    · rw [hcfg] at hc hs ⊢
      refine ⟨?_, Nat.zero_le _⟩
      have := beginBatch_length e hs
      simpa [TailCfg.limit, hc] using this

theorem Room.finishBatch (h : Room nUbatch ⟨st, commits⟩) (success payload : Bool) :
    Room nUbatch ⟨(st.finishBatch success payload).1, commits⟩ := by
  have e : st.finishBatch success payload = ((st.finishBatch success payload).1, .ok ()) :=
    Prod.ext rfl (finishBatch_ok h.inv success payload)
  have hinv := h.inv.finishBatch e
  have hcfg : (st.finishBatch success payload).1.cfg = st.cfg := finishBatch_cfg ..
  obtain ⟨hpend, hno, hend⟩ : (st.finishBatch success payload).1.pendingSeqCp = st.pendingSeqCp ∧
      (st.cfg.compactStorage = true → (st.finishBatch success payload).1.batchTransaction = none) ∧
      (st.cfg.compactStorage = false → (st.finishBatch success payload).1.inBatch = false) := by
    cases hc : st.cfg.compactStorage with
    | false => simp [TailStore.finishBatch, hc]
    | true =>
      cases hb : st.batchTransaction with
      | none => simp [TailStore.finishBatch, hc, hb]
      | some b =>
        cases success with
        | true => simp [TailStore.finishBatch, hc, hb]
        | false =>
          rw [finishBatch_rollback h.inv hc hb]
          exact ⟨rfl, fun _ => rfl, fun h => by cases h⟩
  refine ⟨hinv, h.owned.finishBatch h.inv (fun _ => h.restorable) e, by rw [hcfg]; exact h.fits,
    hpend.trans h.idle, fun b hb s hs => ?_, by rw [hcfg]; exact h.stride, fun hc hin => ?_⟩
  · have hc := (hinv.batch b hb).compact
    rw [hcfg] at hc
    rw [hno hc] at hb
    cases hb
  · rw [hcfg] at hc
    rw [hend hc] at hin
    cases hin

theorem Room.clear (h : Room nUbatch ⟨st, commits⟩) : Room nUbatch ⟨st.clear, commits⟩ :=
  ⟨h.inv.clear, owned_of_empty (fun _ hs => if_pos hs) rfl rfl, h.fits, rfl, fun _ => nofun,
    h.stride, fun _ => nofun⟩

/-- A call on the store alone. -/
theorem Room.apply (h : Room nUbatch ⟨st, commits⟩) {op : Op} (hd : op.Direct)
    (hw : op.WithinBatch nUbatch ⟨st, commits⟩) :
    Room nUbatch ⟨(op.apply st).1, op.count commits⟩ := by
  by_cases hc : op.IsCommit
  · cases op with
    | commit seqId identity position ordinal row =>
      exact h.commit seqId identity position ordinal row hw
    | _ => exact hc.elim
  by_cases hg : op.GoesOn
  · have hcp : ¬ op.Copies := by
      cases op with
      | prepareSeqCp => exact hd.elim
      | commitSeqCp => exact hd.elim
      | cancelSeqCp => exact hd.elim
      | _ => exact id
    have hcount : op.count commits = commits := by
      cases op with
      | beginBatch => exact absurd hg id
      | commit => exact absurd trivial hc
      | _ => rfl
    rw [hcount]
    cases hr : (op.apply st).2 with
    | error er =>
      rw [(apply_error h.inv hd hc hr).1]
      exact h
    | ok u =>
      have e : op.apply st = ((op.apply st).1, .ok ()) := Prod.ext rfl hr
      have hsrc : ∀ o, op.source = some o → False := by
        cases op with
        | clone => exact absurd hg id
        | _ => exact fun o ho => by cases ho
      refine h.goesOn hg hc hcp (h.inv.apply (fun o ho => (hsrc o ho).elim) e) ?_
      cases op with
      | seqDiv seqId p0 p1 divisor => exact h.owned.seqDiv h.inv seqId p0 p1 divisor
      | prepareSeqCp => exact hd.elim
      | commitSeqCp => exact hd.elim
      | finishBatch => exact absurd hg id
      | _ => exact h.owned.apply h.inv (fun o ho => (hsrc o ho).elim) trivial trivial e
  · cases op with
    | beginBatch => exact h.beginBatch
    | finishBatch success payload => exact h.finishBatch success payload
    | clear => exact h.clear
    | clone => exact hd.elim
    | _ => exact absurd trivial hg

/-- `seq_cp` is a `seq_cp_remap` in a store without a pending copy. -/
theorem seqCp_eq (hp : st.pendingSeqCp = none) (src dst p0 p1 : Int) :
    ∃ stream, st.seqCp src dst p0 p1 = Out.void (st.seqCpRemap src dst stream stream p0 p1) := by
  unfold seqCp
  split
  · next hv =>
    refine ⟨0, ?_⟩
    unfold seqCpRemap prepareSeqCp commitSeqCp
    rw [if_pos hv]
    dsimp only
    rw [hp]
    rfl
  · refine ⟨((st.seqs src.toNat).entries.head?.map (·.identity.stream)).getD 0, ?_⟩
    dsimp only
    unfold Out.void
    split
    · next e => rw [e]; rfl
    · next e => rw [e]; rfl

theorem seqCpRemap_cfg (src dst : Int) (srcStream dstStream : Nat) (p0 p1 : Int) :
    (st.seqCpRemap src dst srcStream dstStream p0 p1).1.cfg = st.cfg := by
  have h1 := (@prepareSeqCp_aside st src dst srcStream dstStream p0 p1).cfg
  unfold seqCpRemap
  split
  · next e =>
    rw [e] at h1
    exact h1
  · next st1 copies e =>
    rw [e] at h1
    have h2 := (@commitSeqCp_aside st1).cfg
    split
    · next e2 =>
      rw [e2] at h2
      exact h2.trans h1
    · next e2 =>
      rw [e2] at h2
      exact h2.trans h1

/-- A copy finds its slots; its end may throw at a cell that is there twice. -/
theorem Room.seqCpRemap_cases (h : Room nUbatch ⟨st, commits⟩) (src dst : Int)
    (srcStream dstStream : Nat) (p0 p1 : Int) :
    ∃ st₁ copies, st.prepareSeqCp src dst srcStream dstStream p0 p1 = (st₁, .ok copies) ∧
      ((∃ st₂, st₁.commitSeqCp = (st₂, .ok ()) ∧
        st.seqCpRemap src dst srcStream dstStream p0 p1 = (st₂, .ok copies)) ∨
      ∃ st₂, st.seqCpRemap src dst srcStream dstStream p0 p1 = (st₂, .error .duplicateCell)) := by
  obtain ⟨st₁, copies, e⟩ :=
    prepareSeqCp_room h.owned h.fits h.idle src dst srcStream dstStream p0 p1
  refine ⟨st₁, copies, e, ?_⟩
  unfold seqCpRemap
  rw [e]
  dsimp only
  unfold commitSeqCp
  cases hp : st₁.pendingSeqCp with
  | none => exact .inl ⟨_, rfl, rfl⟩
  | some p =>
    unfold rebuildIndex
    dsimp only
    split
    · next he =>
      split at he
      · cases he
      · obtain rfl := Except.error.inj (Prod.mk.inj he).2
        exact .inr ⟨_, rfl⟩
    · exact .inl ⟨_, rfl, rfl⟩

theorem Room.seqCpRemap (h : Room nUbatch ⟨st, commits⟩) (hb : st.inBatch = false)
    {src dst : Int} {srcStream dstStream : Nat} {p0 p1 : Int}
    (hok : (st.seqCpRemap src dst srcStream dstStream p0 p1).2.isOk = true) :
    Room nUbatch ⟨(st.seqCpRemap src dst srcStream dstStream p0 p1).1, commits⟩ := by
  obtain ⟨st1, copies, e1, hcp⟩ := h.seqCpRemap_cases src dst srcStream dstStream p0 p1
  obtain ⟨st2, e2, e⟩ : ∃ st2, st1.commitSeqCp = (st2, .ok ()) ∧
      st.seqCpRemap src dst srcStream dstStream p0 p1 = (st2, .ok copies) := by
    rcases hcp with hcp | ⟨st2, e⟩
    · exact hcp
    · rw [e] at hok
      cases hok
  obtain ⟨ho1, hc1⟩ := h.owned.prepareSeqCp h.inv hb e1
  have hi1 := h.inv.prepareSeqCp e1
  have ha1 : Aside st st1 := by
    have := @prepareSeqCp_aside st src dst srcStream dstStream p0 p1
    rwa [e1] at this
  have ha2 : Aside st1 st2 := by
    have := @commitSeqCp_aside st1
    rwa [e2] at this
  have hcfg : st2.cfg = st.cfg := ha2.cfg.trans ha1.cfg
  have hin : st2.inBatch = false := (ha2.inBatch.trans ha1.inBatch).trans hb
  have hi2 := hi1.commitSeqCp e2
  have hidle : st2.pendingSeqCp = none := by
    cases hp : st1.pendingSeqCp with
    | none =>
      unfold commitSeqCp at e2
      rw [hp] at e2
      obtain rfl := (Prod.mk.inj e2).1
      exact hp
    | some p => rw [(commitSeqCp_eq hp e2).2]
  rw [e]
  refine ⟨hi2, ho1.commitSeqCp hi1 (hc1 h.idle) e2, by rw [hcfg]; exact h.fits, hidle,
    fun b hb' => ?_, by rw [hcfg]; exact h.stride, fun _ hin' => ?_⟩
  · have := (hi2.batch b hb').inBatch
    rw [hin] at this
    cases this
  · rw [hin] at hin'
    cases hin'

end Steps

/-! ## Every run -/

section Run

variable {nTokens nSeqMax nUbatch totalSlots : Nat} {m : Metered}

/-- A store made for a layout has its slots, and arenas with room for a batch. -/
theorem MadeFor.spec {st : TailStore} (h : MadeFor nTokens nSeqMax nUbatch totalSlots st) :
    sys.init st ∧ st.cfg.nSlots = totalSlots ∧
      (st.cfg.compactStorage = false → st.cfg.nTokens + nUbatch ≤ st.cfg.arenaStride) := by
  cases h with
  | standard l hl htotal hst =>
    refine ⟨.inl ⟨_, _, _, _, hst⟩, ?_⟩
    have hspec := tailLayoutFor_ok hl
    unfold create at hst
    rw [hspec.create] at hst
    change (if _ then _ else _) = _ at hst
    split at hst
    · cases hst
    · cases hst
      exact ⟨htotal, fun _ => hspec.room⟩
  | compact rollbackTokens l hl htotal hst =>
    refine ⟨.inr ⟨_, _, _, _, _, hst⟩, ?_⟩
    have hspec := tailCompactLayoutFor_ok hl
    unfold createCompact at hst
    obtain ⟨limit, -, hst⟩ := bind_ok hst
    rw [hspec.create] at hst
    split at hst
    · cases hst
    · cases hst
      exact ⟨htotal, nofun⟩

theorem room_inductive : (arenaSys nTokens nSeqMax nUbatch totalSlots).Inductive
      (fun m c => c.Within nUbatch m) fun m => Room nUbatch m ∧ m.st.cfg.nSlots = totalSlots where
  init m h := by
    obtain ⟨hmade, -⟩ := h
    obtain ⟨hinit, hslots, hstride⟩ := hmade.spec
    obtain ⟨hcfg, hnew⟩ := sys_init hinit
    obtain ⟨st, commits⟩ := m
    refine ⟨⟨inv_of_new hcfg hnew, owned_of_empty (fun s _ => ?_) ?_ ?_, sys_init_fits hinit, ?_,
      fun b hb => ?_, hstride, fun _ hin => ?_⟩, hslots⟩
    · exact congrFun (congrArg seqs hnew) s
    · exact congrArg pendingSeqCp hnew
    · exact congrArg batchTransaction hnew
    · exact congrArg pendingSeqCp hnew
    · have hnone : st.batchTransaction = none := congrArg batchTransaction hnew
      change st.batchTransaction = some b at hb
      rw [hnone] at hb
      cases hb
    · have hfalse : st.inBatch = false := congrArg inBatch hnew
      change st.inBatch = true at hin
      rw [hfalse] at hin
      cases hin
  step m c m' h _ hstep hok := by
    obtain ⟨st, commits⟩ := m
    obtain ⟨hroom, hslots⟩ := h
    obtain ⟨rfl, hcommitted⟩ := hstep
    have hremap : ∀ {src dst : Int} {srcStream dstStream : Nat} {p0 p1 : Int},
        (Out.void (st.seqCpRemap src dst srcStream dstStream p0 p1)).2 = .ok () →
        (st.seqCpRemap src dst srcStream dstStream p0 p1).2.isOk = true := by
      intro src dst srcStream dstStream p0 p1 hr
      obtain ⟨a, e⟩ := Out.void_ok (Prod.ext rfl hr)
      rw [e]
      rfl
    have hroom' : Room nUbatch ⟨(c.out st).1, c.count commits⟩ := by
      cases c with
      | call op => exact hroom.apply hok.1 hok.2
      | seqCpRemap src dst srcStream dstStream p0 p1 =>
        exact hroom.seqCpRemap hok (hremap hcommitted)
      | seqCp src dst p0 p1 =>
        obtain ⟨stream, e⟩ := seqCp_eq hroom.idle src dst p0 p1
        have hr : (st.seqCp src dst p0 p1).2 = .ok () := hcommitted
        rw [e] at hr
        show Room nUbatch ⟨(st.seqCp src dst p0 p1).1, commits⟩
        rw [e]
        exact hroom.seqCpRemap hok (hremap hr)
    have hcfg : (c.out st).1.cfg = st.cfg := by
      cases c with
      | call op => exact apply_cfg op
      | seqCpRemap src dst srcStream dstStream p0 p1 => exact seqCpRemap_cfg ..
      | seqCp src dst p0 p1 =>
        obtain ⟨stream, e⟩ := seqCp_eq hroom.idle src dst p0 p1
        show (st.seqCp src dst p0 p1).1.cfg = st.cfg
        rw [e]
        exact seqCpRemap_cfg ..
    refine ⟨hroom', ?_⟩
    show (c.out st).1.cfg.nSlots = totalSlots
    rw [hcfg]
    exact hslots

/-- A call that may follow does not run out of slots. -/
theorem Room.not_exhausted (h : Room nUbatch m) {c : ArenaCall} (hw : c.Within nUbatch m)
    (s n : Nat) : (c.out m.st).2 ≠ .error (.arenaExhausted s n) := by
  obtain ⟨st, commits⟩ := m
  have hremap : ∀ (src dst : Int) (srcStream dstStream : Nat) (p0 p1 : Int),
      (Out.void (st.seqCpRemap src dst srcStream dstStream p0 p1)).2 ≠
        .error (.arenaExhausted s n) := fun src dst srcStream dstStream p0 p1 => by
    obtain ⟨st1, copies, -, ⟨st2, -, e⟩ | ⟨st2, e⟩⟩ :=
      h.seqCpRemap_cases src dst srcStream dstStream p0 p1
    · rw [e]
      nofun
    · rw [e]
      nofun
  cases c with
  | seqCpRemap src dst srcStream dstStream p0 p1 =>
    exact hremap src dst srcStream dstStream p0 p1
  | seqCp src dst p0 p1 =>
    obtain ⟨stream, e⟩ := seqCp_eq h.idle src dst p0 p1
    show (st.seqCp src dst p0 p1).2 ≠ _
    rw [e]
    exact hremap src dst stream stream p0 p1
  | call op =>
    by_cases hc : op.IsCommit
    · cases op with
      | commit seqId identity position ordinal row =>
        show ((st.commit seqId identity position ordinal row).2.map fun _ => ()) ≠ _
        by_cases hv : st.validSeq seqId = true ∧ st.cfg.nTokens ≠ 0
        · obtain ⟨t, -, e⟩ := h.commit_eq hv hw.2 identity position ordinal row
          rw [e]
          unfold noteCurrent
          split
          · nofun
          · split
            · split <;> nofun
            · nofun
        · rw [commit_invalid hv]
          nofun
      | _ => exact hc.elim
    · intro e
      exact (apply_error h.inv hw.1 hc e).2 s n rfl

/-- A slot that `commit` returns. -/
theorem commit_slot {st : TailStore} (h : st.Inv) {seqId position : Int} {identity : TailIdentity}
    {ordinal row : Nat} {x : Int}
    (e : (st.commit seqId identity position ordinal row).2 = .ok x) :
    x = LLAMA_KV_TAIL_BODY_SLOT ∨ ∃ s, s < st.cfg.nSeqMax ∧ InArena st.cfg s x := by
  by_cases hv : st.validSeq seqId = true ∧ st.cfg.nTokens ≠ 0
  · obtain ⟨-, hs⟩ := validSeq_iff.mp hv.1
    rcases commit_eq identity position ordinal row hv.1 hv.2 with
      ⟨t, er, -, e'⟩ | ⟨t, ht, e'⟩
    · rw [e'] at e
      cases e
    · have hx : x = t.retained identity := by
        rw [e'] at e
        unfold noteCurrent at e
        split at e
        · exact (Except.ok.inj e).symm
        · split at e
          · split at e
            · cases e
            · exact (Except.ok.inj e).symm
          · exact (Except.ok.inj e).symm
      rw [hx]
      exact (retained_cases (commit_spec (h.seq _ hs) ht).1 identity).imp_right
        fun ha => ⟨_, hs, ha⟩
  · rw [commit_invalid hv] at e
    exact .inl (Except.ok.inj e).symm

/-- A slot that `restore` returns. -/
theorem restore_slot {st : TailStore} {seqId position : Int} {identity : TailIdentity}
    {ordinal l : Nat} {x : Int} (e : (st.restore seqId identity position ordinal l).2 = .ok x) :
    ∃ s, s < st.cfg.nSeqMax ∧ InArena st.cfg s x := by
  unfold restore at e
  split at e
  · cases e
  · next hv =>
    simp only [Bool.or_eq_true, Bool.not_eq_true', decide_eq_true_eq, not_or, Bool.not_eq_false]
      at hv
    refine ⟨seqId.toNat, (validSeq_iff.mp hv.1.1.1.1).2, l, Nat.not_le.mp hv.1.1.1.2, ?_⟩
    unfold SeqTail.restore at e
    split at e
    · cases e
    · exact (Except.ok.inj e).symm

theorem mem_toOption {α ε : Type} {r : Except ε α} {x : α} (h : x ∈ r.toOption.toList) :
    r = .ok x := by
  cases r with
  | error er => cases h
  | ok a => rw [List.mem_singleton.mp h]

/-- The slots that a call returns are slots of the store. -/
theorem Room.slots (h : Room nUbatch m) (c : ArenaCall) :
    ∀ x ∈ c.slots m.st, x = LLAMA_KV_TAIL_BODY_SLOT ∨ 0 ≤ x ∧ x < m.st.cfg.nSlots := by
  obtain ⟨st, commits⟩ := m
  have harena : ∀ {s : Nat} {x : Int}, s < st.cfg.nSeqMax → InArena st.cfg s x →
      0 ≤ x ∧ x < st.cfg.nSlots := fun hs hx => ⟨InArena.nonneg hx, h.fits.lt_nSlots hs hx⟩
  intro x hx
  cases c with
  | seqCp => cases hx
  | seqCpRemap src dst srcStream dstStream p0 p1 =>
    obtain ⟨st1, copies, e1, ⟨st2, -, e⟩ | ⟨st2, e⟩⟩ :=
      h.seqCpRemap_cases src dst srcStream dstStream p0 p1
    · change x ∈ ((st.seqCpRemap src dst srcStream dstStream p0 p1).2.toOption.getD
        []).flatMap _ at hx
      rw [e] at hx
      obtain ⟨c, hc, hx⟩ := List.mem_flatMap.mp hx
      obtain ⟨⟨s, hs, hsrc⟩, d, hd, hdst⟩ := prepareSeqCp_slots h.inv e1 c hc
      rcases List.mem_pair.mp hx with rfl | rfl
      · exact .inr (harena hs hsrc)
      · exact .inr (harena hd hdst)
    · change x ∈ ((st.seqCpRemap src dst srcStream dstStream p0 p1).2.toOption.getD
        []).flatMap _ at hx
      rw [e] at hx
      cases hx
  | call op =>
    cases op with
    | commit seqId identity position ordinal row =>
      exact (commit_slot h.inv (mem_toOption hx)).imp_right fun ⟨s, hs, ha⟩ => harena hs ha
    | restore seqId identity position ordinal localSlot =>
      obtain ⟨s, hs, ha⟩ := restore_slot (mem_toOption hx)
      exact .inr (harena hs ha)
    | _ => cases hx

/-- The constructors take the layouts. -/
theorem create_layout {l : TailLayout} (h : l.Spec nTokens nSeqMax nUbatch) :
    ∃ st, create nTokens nSeqMax l.arenaStride l.sinkSlots = .ok st := by
  unfold create
  rw [h.create]
  refine ⟨_, if_neg fun hc => ?_⟩
  have := h.room
  omega

theorem createCompact_layout {rollbackTokens : Nat} {l : TailCompactLayout}
    (h : l.Spec nTokens rollbackTokens nSeqMax nUbatch) :
    ∃ st, createCompact nTokens l.rollbackTokens nSeqMax l.historyStride 0 = .ok st := by
  have hlimit : checkedTailHistoryLimit nTokens l.rollbackTokens = .ok l.historyStride := by
    have hle : ¬ nTokens + l.rollbackTokens > UINT32_MAX := by
      have h1 := h.int32.1
      have h2 : INT32_MAX ≤ UINT32_MAX := by decide
      have h3 := h.stride
      have h4 := h.rollback
      omega
    rw [h.stride, ← h.rollback]
    exact if_neg hle
  unfold createCompact
  rw [hlimit, h.create]
  exact ⟨_, if_neg (Nat.lt_irrefl _)⟩

end Run

/-- The layouts are exact and the constructors take them. In every run of a store made for one no
call throws `arena exhausted`, and the slots that calls return are less than `total_slots`, which
fits `int32_t`. The byte counts of every plan are exact. -/
theorem arenas_suffice (nTokens nSeqMax nUbatch : Nat) :
    (∀ l, tailLayoutFor nTokens nSeqMax nUbatch = .ok l → l.Spec nTokens nSeqMax nUbatch ∧
      ∃ st, create nTokens nSeqMax l.arenaStride l.sinkSlots = .ok st) ∧
    (∀ rollbackTokens l, tailCompactLayoutFor nTokens rollbackTokens nSeqMax nUbatch = .ok l →
      l.Spec nTokens rollbackTokens nSeqMax nUbatch ∧
      ∃ st, createCompact nTokens l.rollbackTokens nSeqMax l.historyStride 0 = .ok st) ∧
    (∀ totalSlots m,
      (arenaSys nTokens nSeqMax nUbatch totalSlots).Reach (fun m c => c.Within nUbatch m) m →
      totalSlots ≤ INT32_MAX ∧ ∀ c : ArenaCall, c.Within nUbatch m →
        (∀ s n, (c.out m.st).2 ≠ .error (.arenaExhausted s n)) ∧
        ∀ x ∈ c.slots m.st, x = LLAMA_KV_TAIL_BODY_SLOT ∨ 0 ≤ x ∧ x < totalSlots) ∧
    ∀ request plan, tailStoragePlanFor request = .ok plan → plan.Exact request := by
  refine ⟨fun l hl => ?_, fun rollbackTokens l hl => ?_, fun totalSlots m hr => ?_,
    fun request plan e => tailStoragePlanFor_exact e⟩
  · exact ⟨tailLayoutFor_ok hl, create_layout (tailLayoutFor_ok hl)⟩
  · exact ⟨tailCompactLayoutFor_ok hl, createCompact_layout (tailCompactLayoutFor_ok hl)⟩
  · obtain ⟨hroom, hslots⟩ := hr.inv room_inductive
    refine ⟨hslots ▸ hroom.fits.int32, fun c hw => ⟨hroom.not_exhausted hw, fun x hx => ?_⟩⟩
    rw [← hslots]
    exact hroom.slots c x hx

/-! ## A run -/

/-- The calls may be made one after the other. -/
def Follow (nUbatch : Nat) : List ArenaCall → Metered → Prop
  | [], _ => True
  | c :: cs, m => c.Committed m.st ∧ c.Within nUbatch m ∧ Follow nUbatch cs (m.next c)

theorem reach_follow {nTokens nSeqMax nUbatch totalSlots : Nat} {cs : List ArenaCall} :
    ∀ {m : Metered},
      (arenaSys nTokens nSeqMax nUbatch totalSlots).Reach (fun m c => c.Within nUbatch m) m →
      Follow nUbatch cs m →
      (arenaSys nTokens nSeqMax nUbatch totalSlots).Reach (fun m c => c.Within nUbatch m)
        (cs.foldl Metered.next m) := by
  induction cs with
  | nil =>
    intro m h _
    exact h
  | cons c cs ih =>
    intro m h ⟨hc, hw, hcs⟩
    exact ih (h.step (fun _ ho => ho.elim) ⟨rfl, hc⟩ hw) hcs

/-- A batch of three tokens in a compact store with two slots for each sequence, then a copy. -/
def smallBatch : List ArenaCall :=
  [.call .beginBatch, .call (.commit 0 ⟨0, 0, 1⟩ 0 0 0), .call (.commit 0 ⟨0, 1, 1⟩ 1 1 1),
    .call (.commit 0 ⟨0, 2, 1⟩ 2 2 2), .call (.finishBatch true false), .seqCpRemap 0 1 0 0 0 9]

/-- The store after it. -/
def afterSmallBatch : Metered := smallBatch.foldl Metered.next ⟨compactTwo, fun _ => 0⟩

theorem afterSmallBatch_reach :
    (arenaSys 2 2 3 4).Reach (fun m c => c.Within 3 m) afterSmallBatch := by
  have hw : ∀ {m : Metered} {identity position ordinal row}, m.commits 0 < 3 →
      (Op.commit 0 identity position ordinal row).WithinBatch 3 m := fun h _ s hs => by
    obtain rfl : s = 0 := by omega
    exact h
  refine reach_follow (.init ⟨.compact 0 ⟨2, 4, 0, 5⟩ rfl rfl rfl, rfl⟩) ?_
  exact ⟨trivial, ⟨trivial, trivial⟩, trivial, ⟨trivial, hw (by decide)⟩, trivial,
    ⟨trivial, hw (by decide)⟩, trivial, ⟨trivial, hw (by decide)⟩, trivial, ⟨trivial, trivial⟩, rfl,
    rfl, trivial⟩

/-- Eight rows of a quantized body with a standard overlay. -/
def overlayRequest : TailStorageRequest where
  requestedBodyTypeK := .q8_0
  requestedBodyTypeV := .q8_0
  exactType := .f16
  requestedTokens := 2
  effectiveTokens := 2
  nSeqMax := 2
  nUbatch := 3
  visibilityWindow := 0
  physicalBodyRows := 8
  requestedBodyBytesPerRow := 34
  promotionBytesPerRow := 30
  overlayBytesPerRow := 64
  nativeCapable := false
  alreadyExact := false
  hasOwnedBody := true
  hasSharedBody := false
  shadowKCapable := true
  shadowVCapable := true

/-- The arena is full, and the next batch has a slot nevertheless. -/
theorem arenas_suffice_smallBatch : ((afterSmallBatch.st.seqs 0).entries.length = 2 ∧
      (afterSmallBatch.st.seqs 1).entries.length = 2) ∧
    (∀ s n, (afterSmallBatch.st.commit 1 ⟨0, 3, 1⟩ 3 3 UINT32_MAX).2.map (fun _ => ()) ≠
      .error (.arenaExhausted s n)) ∧
    (⟨256, 3, 515⟩ : TailLayout).Spec 2 2 3 ∧
    ∃ plan, tailStoragePlanFor overlayRequest = .ok plan ∧ plan.Exact overlayRequest := by
  obtain ⟨hl, -, hrun, hplan⟩ := arenas_suffice 2 2 3
  refine ⟨by decide, ((hrun 4 _ afterSmallBatch_reach).2
    (.call (.commit 1 ⟨0, 3, 1⟩ 3 3 UINT32_MAX)) ⟨trivial, fun h => ?_⟩).1, (hl _ rfl).1, ?_⟩
  · cases h
  · have hok : (tailStoragePlanFor overlayRequest).isOk = true := by decide +kernel
    cases e : tailStoragePlanFor overlayRequest with
    | error er =>
      rw [e] at hok
      cases hok
    | ok plan => exact ⟨plan, rfl, hplan _ _ e⟩

end BeeLlama.TailStore
