import BeeLlama.Kv.StageRun

/-!
# The flags of the sealed groups in a run

Only the structured search and the self-contained restore write the flags of the sealed groups.

* `Op.call_flags`: every other call leaves them.
* `groupSys`: a structured cache with all its calls and the restore.
* `groupInv_inductive`: the cells keep their invariant, there is a flag for every group or for none,
  and group `0` is never sealed.
-/

namespace BeeLlama.KvCache

open List SearchState KvCache

/-- There is a flag for every group or for none, and group `0` is not sealed. -/
structure FlagsOk (st : KvCache) : Prop where
  length : st.SealedLength
  zero : st.allocationGroupSealed.getD 0 false = false

/-- The configuration and the flags are the same. -/
def SameFlags (st st' : KvCache) : Prop :=
  st'.cfg = st.cfg ∧ st'.allocationGroupSealed = st.allocationGroupSealed

section Same

variable {st st₁ st' : KvCache}

theorem SameFlags.refl (st : KvCache) : SameFlags st st := ⟨rfl, rfl⟩

theorem SameFlags.trans (h : SameFlags st st₁) (h' : SameFlags st₁ st') : SameFlags st st' :=
  ⟨h'.1.trans h.1, h'.2.trans h.2⟩

theorem SameFlags.ok (h : SameFlags st st') (hf : st.FlagsOk) : st'.FlagsOk := by
  obtain ⟨hcfg, hs⟩ := h
  refine ⟨?_, hs ▸ hf.zero⟩
  unfold SealedLength
  rw [hs, hcfg]
  exact hf.length

/-! ## The parts of the calls -/

theorem SameFlags.rebuildAllocationHead (st : KvCache) (s : Nat) :
    SameFlags st (st.rebuildAllocationHead s) := by
  obtain ⟨_, e⟩ := rebuildAllocationHead_eq st s
  rw [e]
  exact .refl st

theorem SameFlags.rebuildAllocationHeads (st : KvCache) :
    SameFlags st st.rebuildAllocationHeads := by
  obtain ⟨_, e⟩ := rebuildAllocationHeads_eq st
  rw [e]
  exact .refl st

theorem SameFlags.markIfIncomplete (st : KvCache) (s : Nat) :
    SameFlags st (st.markIfIncomplete s) := by
  rcases markIfIncomplete_eq st s with e | ⟨_, -, e⟩ <;> rw [e] <;> exact .refl st

theorem SameFlags.setHead (st : KvCache) (x head : Nat) : SameFlags st (st.setHead x head) :=
  ⟨rfl, rfl⟩

theorem SameFlags.foldl_mark (st : KvCache) (l : List Nat) :
    SameFlags st (l.foldl (fun st s => st.markIfIncomplete s) st) := by
  obtain ⟨_, e⟩ := foldl_mark_eq l st
  rw [e]
  exact .refl st

theorem SameFlags.markMoved (st : KvCache) (s : Nat) (moved : Bool) (p0 p1 : Int) :
    SameFlags st (st.markMoved s moved p0 p1) := by
  unfold KvCache.markMoved
  split <;> exact .refl st

theorem SameFlags.foldl_sweep (f : KvCells → Nat → KvCells × Bool) (l : List Nat) :
    ∀ st : KvCache, SameFlags st (l.foldl (fun st x => st.sweepStream x f) st) := by
  induction l with
  | nil => exact fun st => .refl st
  | cons x l ih => exact fun st => ih (st.sweepStream x f)

theorem SameFlags.onTail {α : Type} {f : TailStore → TailStore × Except TailError α}
    (e : st.onTail f = (st', .ok ())) : SameFlags st st' := by
  obtain ⟨_, rfl, -⟩ := onTail_eq e
  exact .refl st

theorem SameFlags.materialize (e : st.materializePendingCopies = (st', .ok ())) :
    SameFlags st st' := by
  obtain ⟨_, _, _, rfl, -⟩ := materializePendingCopies_eq e
  exact .refl st

variable {p0 p1 : Int} {s : Nat}

theorem SameFlags.queueTailCopies {src dst : Nat}
    (e : st.queueTailCopies src dst p0 p1 = (st', .ok ())) : SameFlags st st' := by
  unfold KvCache.queueTailCopies at e
  split at e
  · cases e
    exact .refl st
  · split at e
    · cases e
    · cases e
      exact .refl st

theorem SameFlags.seqRmUnchecked
    (e : st.seqRmUnchecked s p0 p1 = (st', .ok ())) : SameFlags st st' := by
  obtain ⟨_, _, _, _, _, rfl, -⟩ := seqRmUnchecked_eq e
  exact .refl st

theorem SameFlags.tailSeqRm {seqs : List Nat}
    (e : st.tailSeqRm seqs p0 p1 = (st', .ok ())) : SameFlags st st' := by
  obtain ⟨_, rfl, -⟩ := tailSeqRm_eq e
  exact .refl st

theorem SameFlags.seqRmAllUnchecked
    (e : st.seqRmAllUnchecked p0 p1 = (st', .ok ())) : SameFlags st st' := by
  obtain ⟨st₁, u1, e1, e⟩ := andThen_ok e
  obtain ⟨st2, u2, e2, e⟩ := andThen_ok e
  cases e
  have h := (SameFlags.materialize e1).trans (.tailSeqRm e2)
  exact h.trans ((SameFlags.foldl_sweep _ _ st2).trans
    ((SameFlags.foldl_mark _ _).trans (.rebuildAllocationHeads _)))

/-! ## The calls -/

theorem SameFlags.seqRm {seqId p0 p1 : Int} {r : Bool}
    (e : st.seqRm seqId p0 p1 = (st', .ok r)) : SameFlags st st' := by
  unfold KvCache.seqRm at e
  split at e
  · cases e
    exact .refl st
  obtain ⟨st₁, u1, e1, e⟩ := andThen_ok e
  cases e
  split at e1
  · exact .seqRmAllUnchecked e1
  split at e1
  · exact .seqRmUnchecked e1
  · obtain ⟨_, _, -, e1⟩ := andThen_ok e1
    cases e1

theorem SameFlags.seqRmCell {s cellIdx : Nat} (e : st.seqRmCell s cellIdx = (st', .ok ())) :
    SameFlags st st' := by
  unfold KvCache.seqRmCell at e
  split at e
  · dsimp only at e
    split at e
    · obtain ⟨st₁, u1, e1, e⟩ := andThen_ok e
      cases e
      obtain ⟨_, rfl, -⟩ := onTail_eq e1
      exact (SameFlags.markIfIncomplete { st.setCells _ _ with tail := _ } s).trans
        (.rebuildAllocationHead _ s)
    · cases e
      exact .refl st
  · cases e

theorem SameFlags.seqCp {src dst : Nat}
    (e : st.seqCp src dst p0 p1 = (st', .ok ())) : SameFlags st st' := by
  obtain ⟨st₁, u1, e1, e⟩ := andThen_ok e
  refine (SameFlags.materialize e1).trans ?_
  split at e
  · split at e
    · obtain ⟨st2, u2, e2, e⟩ := andThen_ok e
      refine (SameFlags.queueTailCopies e2).trans ?_
      split at e
      · obtain ⟨rfl, -⟩ := Prod.mk.inj e
        exact .refl st2
      · cases e
        exact (SameFlags.markIfIncomplete (st2.setCells _ _) dst).trans
          (.rebuildAllocationHead _ dst)
    · split at e
      · obtain ⟨st2, u2, e2, e⟩ := andThen_ok e
        cases e
        have h : SameFlags st₁ (st₁.copyStream src dst) := .refl st₁
        exact (h.trans (.queueTailCopies e2)).trans ((SameFlags.markIfIncomplete st2 dst).trans
          ((SameFlags.setHead _ _ _).trans (.rebuildAllocationHead _ dst)))
      · cases e
  · cases e

theorem SameFlags.seqKeep (e : st.seqKeep s = (st', .ok ())) : SameFlags st st' := by
  obtain ⟨st₁, u1, e1, e⟩ := andThen_ok e
  refine (SameFlags.materialize e1).trans ?_
  split at e
  · obtain ⟨st2, u2, e2, e⟩ := andThen_ok e
    cases e
    have hs : SameFlags st2 (st2.sweepStream (st2.cfg.seqToStream s) fun c i => c.seqKeep i s) :=
      .refl st2
    exact (SameFlags.onTail e2).trans (hs.trans (.rebuildAllocationHeads _))
  · cases e

theorem SameFlags.seqAdd {p0 p1 shift : Int}
    (e : st.seqAdd s p0 p1 shift = (st', .ok ())) : SameFlags st st' := by
  obtain ⟨st₁, u1, e1, e⟩ := andThen_ok e
  refine (SameFlags.materialize e1).trans ?_
  split at e
  · obtain ⟨st2, u2, e2, e⟩ := andThen_ok e
    have h := (SameFlags.onTail e2).trans (.markMoved st2 s (decide (shift ≠ 0)) p0 p1)
    dsimp only at e
    split at e
    · cases e
      exact h
    · cases e
      exact h.trans (.rebuildAllocationHead (KvCache.setHead _ _ _) s)
  · cases e

theorem SameFlags.seqDiv {p0 p1 d : Int} (e : st.seqDiv s p0 p1 d = (st', .ok ())) :
    SameFlags st st' := by
  obtain ⟨st₁, u1, e1, e⟩ := andThen_ok e
  refine (SameFlags.materialize e1).trans ?_
  split at e
  · obtain ⟨st2, u2, e2, e⟩ := andThen_ok e
    have h := (SameFlags.onTail e2).trans (.markMoved st2 s (decide (d ≠ 1)) p0 p1)
    dsimp only at e
    split at e
    · cases e
      exact h
    · cases e
      exact h.trans (.rebuildAllocationHead (setCells _ _ _) s)
  · cases e

theorem SameFlags.update (e : st.update = (st', .ok ())) : SameFlags st st' := by
  obtain ⟨st₁, u1, e1, e⟩ := andThen_ok e
  refine (SameFlags.materialize e1).trans ?_
  split at e <;> obtain ⟨rfl, -⟩ := Prod.mk.inj e <;> exact .refl st₁

theorem SameFlags.finishTailBatch {success payload : Bool}
    (e : st.finishTailBatch success payload = (st', .ok ())) : SameFlags st st' := by
  unfold KvCache.finishTailBatch at e
  split at e
  · obtain ⟨st₁, u1, e1, e⟩ := andThen_ok e
    cases e
    have h : SameFlags st st₁ := .onTail e1
    exact h
  · cases e
    exact .refl st

theorem SameFlags.purge {rm : Nat → Int} : ∀ {ss : List Nat} {st : KvCache},
    purge rm ss st = (st', .ok ()) → SameFlags st st' := by
  intro ss
  induction ss with
  | nil =>
    intro st e
    obtain ⟨rfl, -⟩ := Prod.mk.inj e
    exact .refl st
  | cons s ss ih =>
    intro st e
    obtain ⟨st₁, u, e1, e⟩ := andThen_ok e
    refine SameFlags.trans ?_ (ih e)
    unfold purgeSeq at e1
    split at e1
    · cases e1
      exact .refl st
    split at e1
    · dsimp only at e1
      split at e1
      · exact .seqRmUnchecked e1
      · cases e1
        exact .refl st
    · cases e1

theorem SameFlags.applyUbatch {i : SlotInfo} {u : Ubatch}
    (e : st.applyUbatch i u = (st', .ok ())) : SameFlags st st' := by
  obtain ⟨st₁, a1, e1, e⟩ := andThen_ok e
  obtain ⟨_, _, rfl⟩ := beginTail_eq e1
  obtain ⟨st2, rm, e2, e⟩ := andThen_ok e
  obtain ⟨ha, -⟩ := placeTokens_applied e2
  obtain ⟨st3, a3, e3, e⟩ := andThen_ok e
  cases e
  have h3 := SameFlags.purge e3
  obtain ⟨_, _, _, rfl⟩ := ha.eq
  obtain ⟨_, eh⟩ := moveHeads_eq st3 i
  rw [eh]
  exact h3

end Same

/-! ## The search -/

section Search

variable {cfg : CacheCfg} {c : KvCells} {oneSeq : Bool}

theorem set_zero {l : List Bool} {g : Nat} (hg : 0 < g) (b : Bool) :
    (l.set g b).getD 0 false = l.getD 0 false := by
  rw [getD_eq_getElem?_getD, getElem?_set_ne (by omega), getD_eq_getElem?_getD]

/-- The number of the flags and the one of group `0` are the same. -/
def FlagZero (a a' : SearchState) : Prop :=
  a'.sealed.length = a.sealed.length ∧ a'.sealed.getD 0 false = a.sealed.getD 0 false

theorem FlagZero.trans {a a₁ a' : SearchState} (h : FlagZero a a₁) (h' : FlagZero a₁ a') :
    FlagZero a a' := ⟨h'.1.trans h.1, h'.2.trans h.2⟩

theorem FlagZero.seedGroup (a : SearchState) {g : Nat} (hg : 0 < g) :
    FlagZero a (a.seedGroup cfg g).1 := by
  unfold SearchState.seedGroup
  split
  · exact ⟨length_set, set_zero hg _⟩
  split
  · exact ⟨length_set, set_zero hg _⟩
  split
  · exact ⟨rfl, rfl⟩
  · dsimp only
    split <;> exact ⟨rfl, rfl⟩

theorem FlagZero.seedGroups : ∀ {gs : List Nat} {a : SearchState}, (∀ g ∈ gs, 0 < g) →
    FlagZero a (SearchState.seedGroups cfg gs a).1 := by
  intro gs
  induction gs with
  | nil => exact fun _ => ⟨rfl, rfl⟩
  | cons g gs ih =>
    intro a hg
    have h : FlagZero a (a.seedGroup cfg g).1 := FlagZero.seedGroup a (hg g mem_cons_self)
    unfold SearchState.seedGroups
    split
    · next e => rwa [e] at h
    · next e =>
      rw [e] at h
      exact h.trans (ih fun k hk => hg k (mem_cons_of_mem g hk))

theorem FlagZero.take (a : SearchState) (left idx : Nat) (t : UToken) :
    FlagZero a (a.take cfg oneSeq left t idx) := by
  unfold SearchState.take FlagZero
  dsimp only
  split
  · next h => exact ⟨length_set, set_zero (of_decide_eq_true h).2 _⟩
  · exact ⟨rfl, rfl⟩

theorem FlagZero.placeAll : ∀ {ts : List UToken} {a : SearchState},
    FlagZero a (a.placeAll cfg c oneSeq ts).1 := by
  intro ts
  induction ts with
  | nil => exact ⟨rfl, rfl⟩
  | cons t ts ih =>
    intro a
    unfold SearchState.placeAll
    split
    · exact ⟨rfl, rfl⟩
    split
    · exact ⟨rfl, rfl⟩
    split
    · exact ⟨rfl, rfl⟩
    · next a1 e =>
      obtain ⟨idx, -, -, rfl⟩ := place_eq_some e
      exact FlagZero.trans (.take a _ idx t) ih

end Search

section Runs

variable {st st' : KvCache}

/-- The search leaves a flag for every group. -/
theorem searchStructured_flags (u : Ubatch) (hf : st.FlagsOk) :
    (st.searchStructured u).1.sealed.length = st.cfg.nGroups ∧
      (st.searchStructured u).1.sealed.getD 0 false = false := by
  have hseed : FlagZero st.searchStart (seedGroups st.cfg
      (List.range st.cfg.nGroups).tail st.searchStart).1 :=
    FlagZero.seedGroups fun g hg => (mem_range_tail.mp hg).1
  have h : FlagZero st.searchStart (st.searchStructured u).1 := by
    unfold searchStructured
    rw [seed_searchStart]
    split
    · next e =>
      rw [e] at hseed
      exact hseed
    · next e =>
      rw [e] at hseed
      exact hseed.trans .placeAll
  rw [h.1, h.2, searchStart_length, searchStart_flag hf.length]
  exact ⟨rfl, hf.zero⟩

theorem FlagsOk.findSlot {u : Ubatch} {r : Except KvError (Option SlotInfo)} (hf : st.FlagsOk)
    (e : st.findSlot u = (st', r)) : st'.FlagsOk ∧ st'.cfg = st.cfg := by
  unfold KvCache.findSlot at e
  split at e
  · obtain ⟨hl, h0⟩ := searchStructured_flags u hf
    unfold findSlotStructured at e
    dsimp only at e
    split at e <;> obtain ⟨rfl, -⟩ := Prod.mk.inj e <;> exact ⟨⟨.inr hl, h0⟩, rfl⟩
  · cases e
    exact ⟨hf, rfl⟩

theorem FlagsOk.trial {states' : List Saved} {r : Bool} :
    ∀ {us : List Ubatch} {st : KvCache} {states : List Saved}, st.FlagsOk →
    KvCache.trial us st states = (st', states', .ok r) → st'.FlagsOk := by
  intro us
  induction us with
  | nil =>
    intro st states hf e
    cases e
    exact hf
  | cons u us ih =>
    intro st states hf e
    unfold KvCache.trial at e
    split at e
    · cases e
    · next ef =>
      cases e
      exact (hf.findSlot ef).1
    · next ef =>
      split at e
      · cases e
      · next ea => exact ih ((SameFlags.applyUbatch ea).ok (hf.findSlot ef).1) e

theorem SameFlags.restoreSaved (st : KvCache) (s : Saved) : SameFlags st (st.restoreSaved s) := by
  unfold KvCache.restoreSaved
  generalize ((s.sinfo.strm.zip s.sinfo.idxs).zip s.cells).zipIdx = l
  induction l generalizing st with
  | nil => exact .refl st
  | cons p l ih => exact ih _

theorem SameFlags.restoreAll : ∀ (l : List Saved) (st : KvCache),
    SameFlags st (l.foldl KvCache.restoreSaved st) := by
  intro l
  induction l with
  | nil => exact .refl
  | cons s l ih => exact fun st => (SameFlags.restoreSaved st s).trans (ih _)

/-- Every call keeps a flag for every group or for none, and that of group `0`. -/
theorem FlagsOk.call {op : Op} (hf : st.FlagsOk) (e : op.call st = (st', .ok ())) :
    st'.FlagsOk := by
  cases op with
  | findSlot u =>
    obtain ⟨st₁, r, e1, e⟩ := andThen_ok e
    cases e
    exact (hf.findSlot e1).1
  | prepare us =>
    obtain ⟨st₁, r, e1, e⟩ := andThen_ok e
    cases e
    obtain ⟨st2, states, success, et, rfl, -⟩ := prepare_ok e1
    have h1 : ({ st with tailPreparing := true } : KvCache).FlagsOk := ⟨hf.length, hf.zero⟩
    have h2 : st2.FlagsOk := h1.trial et
    exact (SameFlags.restoreAll states { st2 with tailPreparing := false }).ok ⟨h2.length, h2.zero⟩
  | applyUbatch i u => exact (SameFlags.applyUbatch e).ok hf
  | finishTailBatch success payload => exact (SameFlags.finishTailBatch e).ok hf
  | seqRm seqId p0 p1 =>
    obtain ⟨st₁, r, e1, e⟩ := andThen_ok e
    cases e
    exact (SameFlags.seqRm e1).ok hf
  | seqRmCell s cellIdx => exact (SameFlags.seqRmCell e).ok hf
  | seqCp src dst p0 p1 => exact (SameFlags.seqCp e).ok hf
  | seqKeep s => exact (SameFlags.seqKeep e).ok hf
  | seqAdd s p0 p1 shift => exact (SameFlags.seqAdd e).ok hf
  | seqDiv s p0 p1 d => exact (SameFlags.seqDiv e).ok hf
  | update => exact (SameFlags.update e).ok hf
  | clear data =>
    cases e
    exact ⟨hf.length, hf.zero⟩

end Runs

/-! ## Runs with restores -/

/-- A step of a structured cache. -/
inductive GroupOp where
  | call (op : Op)
  /-- `state_read` of one sequence with `LLAMA_STATE_SEQ_FLAGS_SELF_CONTAINED`. -/
  | restore (s version : Nat) (m : Manifest)

/-- The step returned. -/
def GroupOp.Step (st st' : KvCache) : GroupOp → Prop
  | .call op => op.Asserts st ∧ op.call st = (st', .ok ())
  | .restore s version m => m.Positions ∧ st.restoreSelfContained s version m = .ok st'

/-- The condition of a call; a restore has none. -/
def GroupOp.KeepsUsed (st : KvCache) : GroupOp → Prop
  | .call op => op.KeepsUsed st
  | .restore _ _ _ => True

/-- A structured cache from its constructor on. `set_state_remap_group_size` refuses a group of no
cells. -/
def groupSys : Sys KvCache GroupOp where
  init st := sys.init st ∧ st.cfg.structured = true ∧ 0 < st.cfg.stateRemapGroupSize
  step st op st' := op.Step st st'

/-- The invariant of these runs. -/
structure GroupInv (st : KvCache) : Prop where
  inv : st.Inv
  wf : st.cfg.WF
  structured : st.cfg.structured = true
  remap : 0 < st.cfg.stateRemapGroupSize
  flags : st.FlagsOk

section Invariant

variable {st st' : KvCache}

theorem GroupInv.grouped (h : st.GroupInv) : Grouped st.cfg (st.cells 0) :=
  have hg := (of_decide_eq_true h.structured).1
  ⟨(h.inv.cells 0).size, hg, (h.wf.groups hg).1⟩

theorem GroupInv.restore {s version : Nat} {m : Manifest} (h : st.GroupInv) (hm : m.Positions)
    (e : st.restoreSelfContained s version m = .ok st') : st'.GroupInv := by
  obtain ⟨c, r, R⟩ := restoreSelfContained_spec h.inv h.structured h.remap hm e
  have hs : st'.cfg.structured = true := by
    rw [R.cfg]
    exact h.structured
  refine ⟨R.inv, R.cfg ▸ h.wf, hs, R.cfg ▸ h.remap, ?_, ?_⟩
  · right
    rw [R.sealed]
    exact rebuilt_length hs
  · rw [R.sealed]
    by_cases h0 : 0 < st'.cfg.nGroups
    · rw [rebuilt_flag hs h0, if_pos (.inl rfl)]
    · rw [getD_eq_default _ _ (by rw [rebuilt_length hs]; omega)]

/-- Every step keeps the invariant. -/
theorem groupInv_inductive : groupSys.Inductive (fun st op => op.KeepsUsed st) GroupInv where
  init st := by
    rintro ⟨⟨cfg, tail, hwf, ht, rfl⟩, hs, hr⟩
    exact ⟨create_inv fun t h => (ht t h).1, hwf, hs, hr, .inl rfl, rfl⟩
  step st op st' h _ hstep hk := by
    cases op with
    | call op =>
      obtain ⟨hinv, hcfg⟩ := h.inv.call hstep.1 hk hstep.2
      exact ⟨hinv, hcfg ▸ h.wf, hcfg ▸ h.structured, hcfg ▸ h.remap, h.flags.call hstep.2⟩
    | restore s version m => exact h.restore hstep.1 hstep.2

end Invariant

end BeeLlama.KvCache
