import BeeLlama.Kv.TailBatch
import Mathlib.Data.Nat.Bitwise

/-!
# The provenance of the exact tail (`snapshot_provenance`, `restore_provenance`)

A state file has for each sequence the degradation flags and the recovery counter. Two readers
check these records: `restore_provenance` of the store and, before it, the manifest reader of the
cache (`stateV2ReadProvenance`).

* `Carries P`: the flags and counters of the sequences, of the pending copy and of the saved batch
  all have `P`. A property that the few changes of flags and counters keep (`Stable`) is carried
  along every run, also over calls that throw (`carries_inductive`).
* `reach_provenance_roundTrips`: the records of a reachable store come back if and only if none of
  them has a flag outside `known_flags`, and the runs that raise no such flag keep that.
-/

namespace BeeLlama.TailStore

open List Function TailStore SeqTail

/-- `known_flags` of the two readers. -/
def knownFlags : Nat :=
  LLAMA_KV_TAIL_DEGRADED_BODY_ONLY_STATE ||| LLAMA_KV_TAIL_DEGRADED_HISTORICAL_OP |||
    LLAMA_KV_TAIL_DEGRADED_STATE_RESTORE

/-- `flags & ~known_flags`. -/
def unknownFlags (flags : Nat) : Nat := flags &&& (UINT32_MAX ^^^ knownFlags)

/-! ## Snapshot -/

/-- The record of sequence `s`: the one that a pending copy has prepared for it, or its own. -/
def provenance (st : TailStore) (s : Nat) : Provenance :=
  match st.pendingSeqCp with
  | some p =>
    if p.dst = s then ⟨s, p.degradationFlags, p.recoveryCommits⟩
    else ⟨s, (st.seqs s).degradation, (st.seqs s).recovery⟩
  | none => ⟨s, (st.seqs s).degradation, (st.seqs s).recovery⟩

/-- `snapshot_provenance`. -/
def snapshotProvenance (st : TailStore) (seqId : Int) : List Provenance :=
  if seqId ≥ 0 then
    if st.validSeq seqId then [st.provenance seqId.toNat] else []
  else (List.range st.cfg.nSeqMax).map st.provenance

/-! ## The two readers -/

/-- The loop over the records; `seen` are the sequences of the records before. -/
def forRecords {ε : Type} (check : List Int → Provenance → Except ε Unit) :
    List Int → List Provenance → Except ε (List Int)
  | seen, [] => .ok seen
  | seen, r :: rs =>
    match check seen r with
    | .error e => .error e
    | .ok () => forRecords check (r.seqId :: seen) rs

/-- The checks of `restore_provenance` on one record. -/
def checkRecord (st : TailStore) (seen : List Int) (r : Provenance) : Except TailError Unit :=
  if !st.validSeq r.seqId || unknownFlags r.degradationFlags != 0 ||
      decide (r.recoveryCommits > st.cfg.nTokens) ||
      (r.degradationFlags == 0 && r.recoveryCommits != 0) then .error .badProvenance
  else if r.seqId ∈ seen then .error .duplicateProvenance
  else .ok ()

/-- `degradation[s] = r.degradation_flags; recovery_commits[s] = r.recovery_commits`. -/
def setProvenance (st : TailStore) (s : Nat) (r : Provenance) : TailStore :=
  st.setSeq s { st.seqs s with degradation := r.degradationFlags, recovery := r.recoveryCommits }

/-- `restore_provenance`. -/
def restoreProvenance (st : TailStore) (records : List Provenance) (destSeqId : Int) : Out Unit :=
  match forRecords st.checkRecord [] records with
  | .error e => (st, .error e)
  | .ok _ =>
    if destSeqId ≥ 0 then
      match records with
      | [r] =>
        if st.validSeq destSeqId then (st.setProvenance destSeqId.toNat r, .ok ())
        else (st, .error .badSequenceProvenance)
      | _ => (st, .error .badSequenceProvenance)
    else
      (records.foldl (fun st r => st.setProvenance r.seqId.toNat r)
        (st.mapSeqs fun _ t => { t with degradation := 0, recovery := 0 }), .ok ())

/-- What `state_v2_read_manifest` throws at the records. -/
inductive StateV2ProvenanceError where
  | invalid
  | incomplete
  deriving DecidableEq, Repr

/-- The text of the exception. -/
def StateV2ProvenanceError.what : StateV2ProvenanceError → String
  | .invalid => "invalid KV tail state degradation provenance"
  | .incomplete => "incomplete KV tail state degradation provenance"

/-- The checks of `state_v2_read_manifest` on one record. -/
def stateV2CheckRecord (retention nSeqMax savedNSeqMax : Nat) (seqId : Int) (seen : List Int)
    (r : Provenance) : Except StateV2ProvenanceError Unit :=
  if decide (r.seqId < 0) || decide (r.seqId.toNat ≥ savedNSeqMax) ||
      (seqId == -1 && decide (r.seqId.toNat ≥ nSeqMax)) || decide (r.seqId ∈ seen) ||
      unknownFlags r.degradationFlags != 0 || decide (r.recoveryCommits > retention) ||
      (r.degradationFlags == 0 && r.recoveryCommits != 0) then .error .invalid
  else .ok ()

/-- The part of `state_v2_read_manifest` that reads the records. -/
def stateV2ReadProvenance (retention nSeqMax savedNSeqMax : Nat) (seqId : Int) (bodyOnly : Bool)
    (records : List Provenance) : Except StateV2ProvenanceError Unit :=
  match forRecords (stateV2CheckRecord retention nSeqMax savedNSeqMax seqId) [] records with
  | .error e => .error e
  | .ok seen =>
    if seqId == -1 && !bodyOnly &&
        (List.range savedNSeqMax).any fun s => decide ((s : Int) ∉ seen) then .error .incomplete
    else .ok ()

/-! ## Calls -/

/-- A call of a public operation, `restore_provenance` included. -/
inductive StateOp where
  | call (op : Op)
  | restoreProvenance (records : List Provenance) (destSeqId : Int)

/-- The outcome of the call. -/
def StateOp.apply (st : TailStore) : StateOp → Out Unit
  | .call op => op.apply st
  | .restoreProvenance records destSeqId => st.restoreProvenance records destSeqId

/-- The store that a call reads. -/
def StateOp.source : StateOp → Option TailStore
  | .call op => op.source
  | .restoreProvenance .. => none

/-- The store with all its calls. A call that throws is a step too: the store stays in use. -/
def stateSys : Sys TailStore StateOp where
  init := sys.init
  step st op st' := (op.apply st).1 = st'
  sources op := { o | op.source = some o }

/-! ## Flags and counters of one sequence -/

section SeqProv

variable {n : Nat} {A : Nat → Prop} {P : Nat → Nat → Prop}

/-- What a property of flags and counter has to keep, when the flags that calls raise have `A`. -/
structure Stable (n : Nat) (A : Nat → Prop) (P : Nat → Nat → Prop) : Prop where
  zero : P 0 0
  raise : ∀ {f r g}, P f r → A g → P (f ||| g) 0
  recover : ∀ {f r}, P f r → f ≠ 0 → r + 1 < n → P f (r + 1)
  join : ∀ {f r f' r'}, P f r → P f' r' → P (f ||| f') (if f ||| f' = 0 then min r r' else 0)
  historical : A LLAMA_KV_TAIL_DEGRADED_HISTORICAL_OP

/-- The flags and the counter. -/
def prov (t : SeqTail) : Nat × Nat := (t.degradation, t.recovery)

/-- The flags and the counter have `P`. -/
def Has (P : Nat → Nat → Prop) (t : SeqTail) : Prop := P t.degradation t.recovery

theorem Has.of_prov {t t' : SeqTail} (h : Has P t) (e : prov t' = prov t) : Has P t' := by
  obtain ⟨ed, er⟩ := Prod.mk.inj e
  rw [Has, ed, er]
  exact h

variable {cfg : TailCfg} {s : Nat}

@[simp] theorem release_prov (x : Int) (t : SeqTail) : prov (t.release cfg s x) = prov t := by
  unfold release
  split <;> rfl

@[simp] theorem releaseAll_prov (xs : List Int) (t : SeqTail) :
    prov (t.releaseAll cfg s xs) = prov t := by
  induction xs generalizing t with
  | nil => rfl
  | cons x xs ih => exact (ih _).trans (release_prov x t)

@[simp] theorem acquire_prov (cfg : TailCfg) (s : Nat) (t : SeqTail) :
    prov (t.acquire cfg s).1 = prov t := by
  unfold acquire
  split <;> rfl

@[simp] theorem rebuildIndex_prov (t : SeqTail) : prov t.rebuildIndex.1 = prov t := rfl

@[simp] theorem eraseEntry_prov (m : TailNode) (b : Bool) (t : SeqTail) :
    prov (t.eraseEntry cfg s m b) = prov t := by
  cases b
  · rfl
  · exact release_prov m.slot t

@[simp] theorem eraseWhere_prov (p : TailNode → Bool) (t : SeqTail) :
    prov (t.eraseWhere cfg s p) = prov t := releaseAll_prov _ t

@[simp] theorem dropAll_prov (t : SeqTail) : prov (t.dropAll cfg s) = prov t :=
  releaseAll_prov _ t

theorem popFront_prov (t : SeqTail) : prov (t.popFront cfg s) = prov t := by
  unfold popFront
  split
  · rfl
  · exact release_prov _ t

variable {t : SeqTail}

@[simp] theorem trim_prov (limit : Nat) (t : SeqTail) :
    prov (SeqTail.trim cfg s limit t) = prov t := by
  unfold trim
  generalize t.entries.length - limit = k
  induction k with
  | zero => rfl
  | succ k ih => rw [iterate_succ_apply', popFront_prov, ih]

@[simp] theorem takeSlot_prov (cfg : TailCfg) (s : Nat) (inBatch : Bool) (t : SeqTail) :
    prov (t.takeSlot cfg s inBatch).1 = prov t := by
  unfold takeSlot
  split
  · exact acquire_prov cfg s t
  · split
    · exact eraseEntry_prov _ _ t
    · exact acquire_prov cfg s t

theorem Has.degrade (hP : Stable n A P) (h : Has P t) {flags : Nat}
    (hf : A flags) : Has P (t.degrade flags) := hP.raise h hf

theorem Has.recover (hP : Stable cfg.nTokens A P) (h : Has P t) :
    Has P (SeqTail.recover cfg t) := by
  unfold SeqTail.recover
  split
  · exact h
  · rename_i h0
    split
    · exact hP.zero
    · exact hP.recover h h0 (by omega)

theorem Has.commit (hP : Stable cfg.nTokens A P) (h : Has P t) (inBatch : Bool)
    (identity : TailIdentity) (position : Int) (ordinal : Nat) :
    Has P (t.commit cfg s inBatch identity position ordinal).1 := by
  have new : ∀ {u : SeqTail}, Has P u →
      Has P (u.commitNew cfg s inBatch identity position ordinal).1 := by
    intro u hu
    unfold commitNew
    have hs := takeSlot_prov cfg s inBatch u
    split
    · rename_i v e heq
      rw [heq] at hs
      exact hu.of_prov hs
    · rename_i v x heq
      rw [heq] at hs
      have ha : Has P (v.addEntry ⟨identity, position, ordinal, x⟩) := hu.of_prov hs
      have hv := ha.recover hP
      cases inBatch
      · exact hv.of_prov (trim_prov _ _)
      · exact hv
  unfold SeqTail.commit
  split
  · split
    · exact h.of_prov (trim_prov _ _)
    · exact new (h.of_prov (eraseEntry_prov _ _ t))
  · exact new h

theorem Has.recycle (h : Has P t) (stream cell generation : Nat) :
    Has P (t.recycle cfg s stream cell generation).1 := by
  unfold SeqTail.recycle
  split
  · split
    · exact h.of_prov (eraseEntry_prov _ _ t)
    · exact h
  · exact h

/-- The tails after an erasing loop and a rebuilt index. -/
theorem has_erased (cfg : TailCfg) (s : Nat) (h : Has P t)
    (p : TailNode → Bool) : Has P (t.eraseWhere cfg s p).rebuildIndex.1 :=
    h.of_prov (eraseWhere_prov p t)

theorem Has.seqRm (hP : Stable n A P) (h : Has P t) (p0 p1 : Int) :
    Has P (t.seqRm cfg s p0 p1).1 := by
  have he := has_erased cfg s h fun n => decide (n.toTailEntry.InRange p0 p1)
  unfold SeqTail.seqRm
  split
  · rename_i u e heq
    rw [heq] at he
    exact he
  · rename_i u heq
    rw [heq] at he
    split
    · exact hP.zero
    · exact he

theorem Has.seqRmCell (h : Has P t) (stream cell : Nat) :
    Has P (t.seqRmCell cfg s stream cell).1 := has_erased cfg s h _

theorem Has.invalidateSlots (hP : Stable n A P) (h : Has P t) (slots : List Int)
    {flags : Nat} (hf : A flags) : Has P (t.invalidateSlots cfg s slots flags).1 := by
  have he := has_erased cfg s h fun n => decide (n.slot ∈ slots)
  unfold SeqTail.invalidateSlots
  split
  · split
    · rename_i u e heq
      rw [heq] at he
      exact he
    · rename_i u heq
      rw [heq] at he
      exact he.degrade hP hf
  · exact h

theorem Has.resort (hP : Stable n A P) (h : Has P t) (degraded : Bool) :
    Has P (t.resort cfg s degraded).1 := by
  have he : Has P (trim cfg s cfg.limit
      { t with entries := TailNode.sort t.entries }).rebuildIndex.1 := h.of_prov (trim_prov _ _)
  unfold SeqTail.resort
  split
  · rename_i u e heq
    rw [heq] at he
    exact he
  · rename_i u heq
    rw [heq] at he
    split
    · exact he.degrade hP hP.historical
    · exact he

theorem Has.seqAdd (hP : Stable n A P) (h : Has P t) (ids : List TailIdentity)
    (shift : Int) (degraded : Bool) : Has P (t.seqAdd cfg s ids shift degraded).1 := by
  unfold SeqTail.seqAdd
  split
  · have hm : Has P (t.movePositions ids (· + shift)) := h
    exact (hm.of_prov (eraseWhere_prov _ _)).resort hP degraded
  · exact h

theorem Has.seqDiv (hP : Stable n A P) (h : Has P t) (ids : List TailIdentity)
    (divisor : Int) (degraded : Bool) : Has P (t.seqDiv cfg s ids divisor degraded).1 := by
  unfold SeqTail.seqDiv
  split
  · have hm : Has P (t.movePositions ids (·.tdiv divisor)) := h
    exact hm.resort hP degraded
  · exact h

theorem Has.restore (h : Has P t) (identity : TailIdentity) (position : Int)
    (ordinal l : Nat) : Has P (t.restore cfg s identity position ordinal l).1 := by
  unfold SeqTail.restore
  split
  · exact h
  · exact h

theorem has_rollbackSeq (hP : Stable n A P) {b : TailBatch} {payload : Bool}
    (h : Has P t) (ha : payload = true → b.affected s = true →
      A LLAMA_KV_TAIL_DEGRADED_PAYLOAD_INVALID) :
    Has P (rollbackSeq cfg b payload s t).1 := by
  have hr : Has P t.rebuildIndex.1 := h
  unfold rollbackSeq
  split
  · rename_i u e heq
    rw [heq] at hr
    exact hr
  · rename_i u heq
    rw [heq] at hr
    split
    · exact hr
    · rename_i hn
      simp only [Bool.or_eq_true, Bool.not_eq_true', not_or, Bool.not_eq_false] at hn
      exact (hr.of_prov (dropAll_prov _)).degrade hP (ha hn.1 hn.2)

theorem assignSlots_prov (cfg : TailCfg) (dst : Nat) (cs : List Candidate) :
    ∀ (reusable : List Int) (a : Assigned) (t : SeqTail),
      prov (assignSlots cfg dst cs reusable a t).1 = prov t := by
  induction cs with
  | nil => intro reusable a t; rfl
  | cons c cs ih =>
    intro reusable a t
    unfold assignSlots
    split
    · split
      · exact ih _ _ _
      · have ha := acquire_prov cfg dst t
        split
        · rename_i u x heq
          rw [heq] at ha
          exact (ih _ _ _).trans ha
        · rename_i u e heq
          rw [heq] at ha
          exact (releaseAll_prov _ _).trans ha
    · exact ih _ _ _

end SeqProv

/-! ## Flags and counters of the store -/

/-- All flags and counters of the store have `P`: those of the sequences, of the pending copy and
of the saved sequences of the batch. -/
structure Carries (n : Nat) (P : Nat → Nat → Prop) (st : TailStore) : Prop where
  nTokens : st.cfg.nTokens = n
  seq : ∀ s, Has P (st.seqs s)
  pending : ∀ p, st.pendingSeqCp = some p → P p.degradationFlags p.recoveryCommits
  batch : ∀ b, st.batchTransaction = some b → ∀ s, P (b.saved s).degradation (b.saved s).recovery

/-- The flags that the call raises have `A`. -/
def Op.Raises (A : Nat → Prop) (st : TailStore) : Op → Prop
  | .markDegraded _ flags => A flags
  | .invalidateSlots _ flags => A flags
  | .finishBatch false true => st.cfg.compactStorage = true →
    ∀ b, st.batchTransaction = some b → ∀ s, s < st.cfg.nSeqMax → b.affected s = true →
      A LLAMA_KV_TAIL_DEGRADED_PAYLOAD_INVALID
  | _ => True

section Carries

variable {n : Nat} {A : Nat → Prop} {P : Nat → Nat → Prop} {st : TailStore}

theorem Carries.setSeq (h : st.Carries n P) (s : Nat) {t : SeqTail} (ht : Has P t) :
    (st.setSeq s t).Carries n P where
  nTokens := h.nTokens
  seq x := by
    show Has P (Function.update st.seqs s t x)
    rcases eq_or_ne x s with rfl | hx
    · rw [update_self]
      exact ht
    · rw [update_of_ne hx]
      exact h.seq x
  pending := h.pending
  batch := h.batch

theorem Carries.mapSeqs (h : st.Carries n P) {f : Nat → SeqTail → SeqTail}
    (hf : ∀ s t, Has P t → Has P (f s t)) : (st.mapSeqs f).Carries n P where
  nTokens := h.nTokens
  seq s := by
    show Has P (if s < st.cfg.nSeqMax then f s (st.seqs s) else st.seqs s)
    split
    · exact hf s _ (h.seq s)
    · exact h.seq s
  pending := h.pending
  batch := h.batch

variable {f : Nat → SeqTail → SeqTail × Except TailError Unit}

theorem Carries.forList {l : List Nat} (hf : ∀ s ∈ l, ∀ t, Has P t → Has P (f s t).1) :
    ∀ {st : TailStore}, st.Carries n P → (TailStore.forList f l st).1.Carries n P := by
  induction l with
  | nil => exact fun h => h
  | cons s l ih =>
    intro st h
    have hs := hf s mem_cons_self _ (h.seq s)
    unfold TailStore.forList
    split
    · rename_i t e heq
      rw [heq] at hs
      exact h.setSeq s hs
    · rename_i t heq
      rw [heq] at hs
      exact ih (fun x hx => hf x (mem_cons_of_mem s hx)) (h.setSeq s hs)

theorem Carries.forSeqs (h : st.Carries n P)
    (hf : ∀ s t, Has P t → Has P (f s t).1) : (st.forSeqs f).1.Carries n P :=
  Carries.forList (fun s _ => hf s) h

theorem Carries.beginBatch (h : st.Carries n P) : st.beginBatch.1.Carries n P := by
  unfold TailStore.beginBatch
  split
  · exact h
  · have hm := h.mapSeqs (f := fun s t => t.trim st.cfg s st.cfg.limit)
      fun s t ht => ht.of_prov (trim_prov _ _)
    refine ⟨hm.nTokens, hm.seq, hm.pending, fun b hb => ?_⟩
    split at hb
    · cases hb
      exact h.seq
    · exact h.batch b hb

theorem Carries.noteCurrent (h : st.Carries n P) (s : Nat) (e : TailEntry) (row : Nat) :
    (st.noteCurrent s e row).1.Carries n P := by
  unfold TailStore.noteCurrent
  split
  · exact h
  · rename_i b hb
    split
    · split
      · exact h
      · refine ⟨h.nTokens, h.seq, h.pending, fun b' hb' => ?_⟩
        cases hb'
        exact h.batch b hb
    · exact h

theorem Carries.commit (hP : Stable n A P) (h : st.Carries n P) (seqId : Int)
    (identity : TailIdentity) (position : Int) (ordinal row : Nat) :
    (st.commit seqId identity position ordinal row).1.Carries n P := by
  unfold TailStore.commit
  split
  · exact h
  · have hs : Has P ((st.seqs seqId.toNat).commit st.cfg seqId.toNat st.inBatch identity position
        ordinal).1 := (h.seq seqId.toNat).commit (h.nTokens.symm ▸ hP) st.inBatch identity
          position ordinal
    dsimp only
    split
    · rename_i t e heq
      rw [heq] at hs
      exact h.setSeq _ hs
    · rename_i t heq
      rw [heq] at hs
      exact (h.setSeq _ hs).noteCurrent _ _ row

theorem Carries.recycle (h : st.Carries n P) (stream cell generation : Nat) :
    (st.recycle stream cell generation).Carries n P := by
  have hm := h.mapSeqs (f := fun s t => (t.recycle st.cfg s stream cell generation).1)
    fun s t ht => ht.recycle stream cell generation
  refine ⟨hm.nTokens, hm.seq, hm.pending, fun b hb => ?_⟩
  obtain ⟨b', hb', rfl⟩ := Option.map_eq_some_iff.mp hb
  exact h.batch b' hb'

theorem Carries.finishBatch (hP : Stable n A P) (h : st.Carries n P)
    {success payload : Bool} (hA : Op.Raises A st (.finishBatch success payload)) :
    (st.finishBatch success payload).1.Carries n P := by
  unfold TailStore.finishBatch
  split
  · exact ⟨h.nTokens, h.seq, h.pending, h.batch⟩
  · rename_i hc
    split
    · exact h
    · rename_i b hb
      have hdone : ∀ {u : TailStore}, u.Carries n P →
          ({ u with batchTransaction := none, inBatch := false } : TailStore).Carries n P :=
        fun hu => ⟨hu.nTokens, hu.seq, hu.pending, fun _ hb => (nomatch hb)⟩
      cases success with
      | true => exact hdone h
      | false =>
        have hback := h.mapSeqs (f := fun s t => t.load (b.saved s)) fun s t _ => h.batch b hb s
        have hroll := Carries.forList (f := rollbackSeq st.cfg b payload)
          (l := List.range st.cfg.nSeqMax) (fun s hs t ht => has_rollbackSeq hP ht
            fun hp ha => by
              subst hp
              exact hA (by simpa using hc) b hb s (mem_range.mp hs) ha) hback
        dsimp only
        rw [if_neg Bool.false_ne_true]
        split
        · rename_i u e heq
          rw [TailStore.forSeqs, mapSeqs_cfg] at heq
          rw [heq] at hroll
          exact hroll
        · rename_i u heq
          rw [TailStore.forSeqs, mapSeqs_cfg] at heq
          rw [heq] at hroll
          exact hdone hroll

theorem Carries.markDegraded (hP : Stable n A P) (h : st.Carries n P) (seqId : Int)
    {flags : Nat} (hf : A flags) : (st.markDegraded seqId flags).Carries n P := by
  have hp : ∀ p, (st.pendingSeqCp.map fun p : PendingCp =>
      { p with degradationFlags := p.degradationFlags ||| flags, recoveryCommits := 0 }) = some p →
      P p.degradationFlags p.recoveryCommits := by
    intro p hp
    obtain ⟨q, hq, rfl⟩ := Option.map_eq_some_iff.mp hp
    exact hP.raise (h.pending q hq) hf
  unfold TailStore.markDegraded
  split
  · have hm := h.mapSeqs (f := fun _ t => t.degrade flags) fun s t ht => ht.degrade hP hf
    exact ⟨hm.nTokens, hm.seq, hp, hm.batch⟩
  · split
    · split
      · exact ⟨h.nTokens, h.seq, hp, h.batch⟩
      · exact h.setSeq _ ((h.seq _).degrade hP hf)
    · exact h

theorem Carries.seqRm (hP : Stable n A P) (h : st.Carries n P) (seqId p0 p1 : Int) :
    (st.seqRm seqId p0 p1).1.Carries n P := by
  unfold TailStore.seqRm
  split
  · exact h.setSeq _ ((h.seq _).seqRm hP p0 p1)
  · exact h

theorem Carries.prepareSeqCp (hP : Stable n A P) (h : st.Carries n P) (src dst : Int)
    (srcStream dstStream : Nat) (p0 p1 : Int) :
    (st.prepareSeqCp src dst srcStream dstStream p0 p1).1.Carries n P := by
  unfold TailStore.prepareSeqCp
  split
  · exact h
  · split
    · exact h
    · have ha := assignSlots_prov st.cfg dst.toNat
        (st.retainedCandidates src.toNat dst.toNat srcStream dstStream p0 p1).1
        (st.retainedCandidates src.toNat dst.toNat srcStream dstStream p0 p1).2 {}
        (st.seqs dst.toNat)
      dsimp only
      split
      · rename_i t e heq
        rw [heq] at ha
        exact h.setSeq _ ((h.seq _).of_prov ha)
      · rename_i t a heq
        rw [heq] at ha
        have hset := h.setSeq dst.toNat ((h.seq _).of_prov ha)
        refine ⟨hset.nTokens, hset.seq, fun p hp => ?_, hset.batch⟩
        cases hp
        exact hP.join (h.seq dst.toNat) (h.seq src.toNat)

theorem Carries.commitSeqCp (h : st.Carries n P) : st.commitSeqCp.1.Carries n P := by
  unfold TailStore.commitSeqCp
  split
  · exact h
  · rename_i p hp
    have hn : ({ st with pendingSeqCp := none } : TailStore).Carries n P :=
      ⟨h.nTokens, h.seq, fun q hq => (nomatch hq), h.batch⟩
    have hi : Has P (installCp st.cfg p (st.seqs p.dst)).rebuildIndex.1 :=
      (h.seq p.dst).of_prov (releaseAll_prov _ _)
    dsimp only
    split
    · rename_i t e heq
      rw [heq] at hi
      exact hn.setSeq _ hi
    · exact hn.setSeq _ (h.pending p hp)

theorem Carries.cancelSeqCp (h : st.Carries n P) : st.cancelSeqCp.Carries n P := by
  unfold TailStore.cancelSeqCp
  split
  · exact h
  · rename_i p hp
    have hr : Has P ((st.seqs p.dst).releaseAll st.cfg p.dst p.acquiredSlots) :=
      (h.seq p.dst).of_prov (releaseAll_prov _ _)
    have hset := h.setSeq p.dst hr
    exact ⟨hset.nTokens, hset.seq, fun q hq => (nomatch hq), hset.batch⟩

theorem Carries.resetWriteCursor (hP : Stable n A P) (h : st.Carries n P)
    (seqId : Int) : (st.resetWriteCursor seqId).1.Carries n P := by
  have hr := h.seqRm hP seqId (-1) (-1)
  unfold TailStore.resetWriteCursor
  split
  · exact h
  · split
    · rename_i u e heq
      rw [heq] at hr
      exact hr
    · rename_i u heq
      rw [heq] at hr
      exact hr.setSeq _ (hr.seq _)

theorem Carries.clear (hP : Stable n A P) (h : st.Carries n P) : st.clear.Carries n P where
  nTokens := h.nTokens
  seq s := by
    show Has P (if s < st.cfg.nSeqMax then {} else st.seqs s)
    split
    · exact hP.zero
    · exact h.seq s
  pending _ hp := nomatch hp
  batch _ hb := nomatch hb

theorem Carries.clone {source : TailStore} (h : st.Carries n P)
    (hs : st.cfg = source.cfg → source.Carries n P) :
    (st.cloneLogicalStateFrom source).1.Carries n P := by
  unfold cloneLogicalStateFrom
  split
  · exact h
  · rename_i hcfg
    split
    · exact h
    · have hc : (st.copyFrom source).Carries n P := by
        refine ⟨h.nTokens, fun s => ?_, fun p hp => ?_, fun b hb => ?_⟩
        rotate_left
        · exact nomatch hp
        · exact nomatch hb
        show Has P (if s < st.cfg.nSeqMax then (st.seqs s).load (source.seqs s).toSeqState
          else st.seqs s)
        split
        · exact (hs (not_not.mp hcfg)).seq s
        · exact h.seq s
      exact hc.forSeqs fun s t ht => ht.of_prov (rebuildIndex_prov t)

/-- Every call of an operation carries on what the flags and counters have. -/
theorem Carries.apply (hP : Stable n A P) (h : st.Carries n P) {op : Op} (hA : op.Raises A st)
    (hs : ∀ o, op.source = some o → st.cfg = o.cfg → o.Carries n P) :
    (op.apply st).1.Carries n P := by
  cases op with
  | beginBatch => exact h.beginBatch
  | commit seqId identity position ordinal row =>
    exact h.commit hP seqId identity position ordinal row
  | recycle stream cell generation => exact h.recycle stream cell generation
  | finishBatch success payload => exact h.finishBatch hP hA
  | prepareSeqCp src dst srcStream dstStream p0 p1 =>
    exact h.prepareSeqCp hP src dst srcStream dstStream p0 p1
  | commitSeqCp => exact h.commitSeqCp
  | cancelSeqCp => exact h.cancelSeqCp
  | seqRm seqId p0 p1 => exact h.seqRm hP seqId p0 p1
  | seqRmCell seqId stream cell =>
    simp only [Op.apply, seqRmCell]
    split
    · exact h.setSeq _ ((h.seq _).seqRmCell stream cell)
    · exact h
  | seqKeep seqId =>
    refine h.forSeqs fun s t ht => ?_
    split
    · exact ht
    · exact ht.seqRm hP 0 (-1)
  | seqAdd seqId p0 p1 shift =>
    simp only [Op.apply, seqAdd]
    split
    · exact h.forSeqs fun s t ht => ht.seqAdd hP _ _ _
    · exact h
  | seqDiv seqId p0 p1 divisor =>
    simp only [Op.apply, seqDiv]
    split
    · exact h.forSeqs fun s t ht => ht.seqDiv hP _ _ _
    · exact h
  | invalidateSlots slots flags => exact h.forSeqs fun s t ht => ht.invalidateSlots hP slots hA
  | markDegraded seqId flags => exact h.markDegraded hP seqId hA
  | resetWriteCursor seqId => exact h.resetWriteCursor hP seqId
  | restoreWriteCursor seqId cursor =>
    simp only [Op.apply, restoreWriteCursor]
    split
    · exact h
    · exact h.setSeq _ (h.seq _)
  | restore seqId identity position ordinal localSlot =>
    simp only [Op.apply, Out.void, restore]
    split
    · exact h
    · exact h.setSeq _ ((h.seq _).restore identity position ordinal localSlot)
  | clear => exact h.clear hP
  | clone source => exact h.clone (hs source rfl)

end Carries

/-! ## What the readers accept -/

/-- The counter is at most `n`, and `0` without flags. -/
def Counted (n flags recovery : Nat) : Prop := recovery ≤ n ∧ (flags = 0 → recovery = 0)

theorem unknownFlags_or {a b : Nat} (ha : unknownFlags a = 0) (hb : unknownFlags b = 0) :
    unknownFlags (a ||| b) = 0 := by
  unfold unknownFlags at *
  rw [Nat.and_or_distrib_right, ha, hb]
  rfl

theorem stable_counted (n : Nat) : Stable n (fun _ => True) (Counted n) where
  zero := ⟨Nat.zero_le n, fun _ => rfl⟩
  raise _ _ := ⟨Nat.zero_le n, fun _ => rfl⟩
  recover {f r} _ hf hr := ⟨by omega, fun h => absurd h hf⟩
  join {f r f' r'} h h' := by
    split
    · rename_i h0
      obtain ⟨hf, hf'⟩ := Nat.or_eq_zero_iff.mp h0
      rw [h.2 hf, h'.2 hf']
      exact ⟨Nat.zero_le n, fun _ => rfl⟩
    · exact ⟨Nat.zero_le n, fun _ => rfl⟩
  historical := trivial

theorem stable_known (n : Nat) :
    Stable n (fun flags => unknownFlags flags = 0) fun flags _ => unknownFlags flags = 0 where
  zero := rfl
  raise := unknownFlags_or
  recover h _ _ := h
  join := unknownFlags_or
  historical := rfl

theorem forRecords_ok {ε : Type} {check : List Int → Provenance → Except ε Unit}
    {good : Provenance → Prop}
    (hc : ∀ seen r, check seen r = .ok () ↔ good r ∧ r.seqId ∉ seen) (rs : List Provenance) :
    ∀ seen out, forRecords check seen rs = .ok out ↔
      out = (rs.map (·.seqId)).reverse ++ seen ∧ (∀ r ∈ rs, good r) ∧
        (rs.map (·.seqId)).Nodup ∧ ∀ r ∈ rs, r.seqId ∉ seen := by
  induction rs with
  | nil =>
    intro seen out
    simp [forRecords, eq_comm]
  | cons r rs ih =>
    intro seen out
    unfold forRecords
    cases h : check seen r with
    | error e =>
      have hn : ¬ (good r ∧ r.seqId ∉ seen) := fun hg => by
        rw [(hc seen r).mpr hg] at h
        cases h
      simp only [reduceCtorEq, false_iff]
      rintro ⟨-, hg, -, hs⟩
      exact hn ⟨hg r mem_cons_self, hs r mem_cons_self⟩
    | ok u =>
      obtain ⟨hg, hs⟩ := (hc seen r).mp h
      simp only [ih, mem_cons, map_cons, nodup_cons, mem_map,
        reverse_cons, append_assoc, singleton_append, forall_eq_or_imp]
      constructor
      · rintro ⟨rfl, hgs, hnd, hne⟩
        refine ⟨rfl, ⟨hg, hgs⟩, ⟨?_, hnd⟩, hs, fun a ha => (not_or.mp (hne a ha)).2⟩
        rintro ⟨a, ha, e⟩
        exact (not_or.mp (hne a ha)).1 e
      · rintro ⟨rfl, ⟨-, hgs⟩, ⟨hr, hnd⟩, -, hne⟩
        exact ⟨rfl, hgs, hnd, fun a ha => not_or.mpr ⟨fun e => hr ⟨a, ha, e⟩, hne a ha⟩⟩

variable {st : TailStore}

theorem checkRecord_ok (seen : List Int) (r : Provenance) : st.checkRecord seen r = .ok () ↔
      (st.validSeq r.seqId = true ∧ unknownFlags r.degradationFlags = 0 ∧
        Counted st.cfg.nTokens r.degradationFlags r.recoveryCommits) ∧ r.seqId ∉ seen := by
  unfold checkRecord Counted
  split <;> rename_i h
  · grind
  · split <;> grind

theorem stateV2CheckRecord_ok (retention n : Nat) (seqId : Int) (seen : List Int)
    (r : Provenance) : stateV2CheckRecord retention n n seqId seen r = .ok () ↔
      ((0 ≤ r.seqId ∧ r.seqId < n) ∧ unknownFlags r.degradationFlags = 0 ∧
        Counted retention r.degradationFlags r.recoveryCommits) ∧ r.seqId ∉ seen := by
  unfold stateV2CheckRecord Counted
  split <;> grind

/-! ## What a snapshot has -/

section Snapshot

variable {st : TailStore} {seqId : Int}

/-- A snapshot of `seqId` covers sequence `s`: `-1` stands for all. -/
def Covers (st : TailStore) (seqId : Int) (s : Nat) : Prop :=
  s < st.cfg.nSeqMax ∧ (seqId = -1 ∨ seqId = s)

@[simp] theorem provenance_seqId (st : TailStore) (s : Nat) : (st.provenance s).seqId = s := by
  unfold provenance
  split
  · split <;> rfl
  · rfl

theorem Carries.provenance {n : Nat} {P : Nat → Nat → Prop} (h : st.Carries n P) (s : Nat) :
    P (st.provenance s).degradationFlags (st.provenance s).recoveryCommits := by
  unfold TailStore.provenance
  split
  · rename_i p hp
    split
    · exact h.pending p hp
    · exact h.seq s
  · exact h.seq s

theorem mem_snapshotProvenance (hs : seqId = -1 ∨ st.validSeq seqId = true) {r : Provenance} :
    r ∈ st.snapshotProvenance seqId ↔ ∃ s, st.Covers seqId s ∧ r = st.provenance s := by
  unfold snapshotProvenance Covers
  rcases hs with rfl | hv
  · simp [eq_comm]
  · obtain ⟨h0, hn⟩ := of_decide_eq_true hv
    rw [if_pos h0, if_pos hv, mem_singleton]
    constructor
    · rintro rfl
      exact ⟨seqId.toNat, ⟨by omega, .inr (by omega)⟩, rfl⟩
    · rintro ⟨s, ⟨-, he⟩, rfl⟩
      have : seqId.toNat = s := by omega
      rw [this]

theorem snapshotProvenance_ids : (st.snapshotProvenance (-1)).map (·.seqId) =
    (List.range st.cfg.nSeqMax).map fun s : Nat => (s : Int) := by
  unfold snapshotProvenance
  rw [if_neg (by omega), map_map]
  exact map_congr_left fun s _ => provenance_seqId st s

theorem snapshotProvenance_one (hv : st.validSeq seqId = true) :
    st.snapshotProvenance seqId = [st.provenance seqId.toNat] := by
  obtain ⟨h0, -⟩ := of_decide_eq_true hv
  unfold snapshotProvenance
  rw [if_pos h0, if_pos hv]

theorem snapshotProvenance_nodup (hs : seqId = -1 ∨ st.validSeq seqId = true) :
    ((st.snapshotProvenance seqId).map (·.seqId)).Nodup := by
  rcases hs with rfl | hv
  · rw [snapshotProvenance_ids]
    exact nodup_range.map fun a b h => Int.ofNat.inj h
  · rw [snapshotProvenance_one hv]
    exact nodup_singleton _

/-- A reader accepts a snapshot exactly if the records that it has are good. -/
theorem forRecords_snapshot {ε : Type} {check : List Int → Provenance → Except ε Unit}
    {good : Provenance → Prop} (hc : ∀ seen r, check seen r = .ok () ↔ good r ∧ r.seqId ∉ seen)
    (hs : seqId = -1 ∨ st.validSeq seqId = true) (out : List Int) :
    forRecords check [] (st.snapshotProvenance seqId) = .ok out ↔
      out = ((st.snapshotProvenance seqId).map (·.seqId)).reverse ∧
        ∀ s, st.Covers seqId s → good (st.provenance s) := by
  rw [forRecords_ok hc, append_nil]
  refine and_congr_right fun _ => ⟨fun h s hcov => ?_, fun h => ?_⟩
  · exact h.1 _ ((mem_snapshotProvenance hs).mpr ⟨s, hcov, rfl⟩)
  · refine ⟨fun r hr => ?_, snapshotProvenance_nodup hs, fun _ _ => not_mem_nil⟩
    obtain ⟨s, hcov, rfl⟩ := (mem_snapshotProvenance hs).mp hr
    exact h s hcov

end Snapshot

/-! ## What a restore leaves -/

theorem foldl_setProvenance_of_ne (rs : List Provenance) {s : Nat}
    (hs : ∀ r ∈ rs, r.seqId.toNat ≠ s) : ∀ st : TailStore,
      (rs.foldl (fun st r => st.setProvenance r.seqId.toNat r) st).seqs s = st.seqs s := by
  induction rs with
  | nil => intro st; rfl
  | cons r rs ih =>
    intro st
    rw [foldl_cons, ih (fun x hx => hs x (mem_cons_of_mem r hx))]
    exact update_of_ne (hs r mem_cons_self).symm _ _

theorem foldl_setProvenance {rs : List Provenance} (hn : (rs.map (·.seqId)).Nodup)
    (h0 : ∀ r ∈ rs, 0 ≤ r.seqId) {r : Provenance} (hr : r ∈ rs) : ∀ st : TailStore,
      prov ((rs.foldl (fun st r => st.setProvenance r.seqId.toNat r) st).seqs r.seqId.toNat) =
        (r.degradationFlags, r.recoveryCommits) := by
  induction rs with
  | nil => cases hr
  | cons a rs ih =>
    intro st
    obtain ⟨ha, hn'⟩ := nodup_cons.mp hn
    have h0' : ∀ x ∈ rs, 0 ≤ x.seqId := fun x hx => h0 x (mem_cons_of_mem a hx)
    rw [foldl_cons]
    rcases mem_cons.mp hr with rfl | hr'
    · rw [foldl_setProvenance_of_ne rs fun x hx he => ha (mem_map.mpr ⟨x, hx, ?_⟩)]
      · show prov (Function.update st.seqs r.seqId.toNat _ r.seqId.toNat) = _
        rw [update_self]
        rfl
      · have := h0' x hx
        have := h0 r hr
        show x.seqId = r.seqId
        omega
    · exact ih hn' h0' hr' _

theorem Carries.setProvenance {n : Nat} {P : Nat → Nat → Prop}
    (h : st.Carries n P) (s : Nat) {r : Provenance} (hr : P r.degradationFlags r.recoveryCommits) :
    (st.setProvenance s r).Carries n P := h.setSeq s hr

/-- `restore_provenance` only takes records with a good counter and known flags. -/
theorem Carries.restoreProvenance {n : Nat} {A : Nat → Prop} {P : Nat → Nat → Prop}
    (hP : Stable n A P) (h : st.Carries n P)
    (hg : ∀ f r, unknownFlags f = 0 → Counted n f r → P f r) (records : List Provenance)
    (destSeqId : Int) : (st.restoreProvenance records destSeqId).1.Carries n P := by
  unfold TailStore.restoreProvenance
  split
  · exact h
  · rename_i out hok
    obtain ⟨-, hgood, -, -⟩ := (forRecords_ok checkRecord_ok records [] out).mp hok
    have hrec : ∀ r ∈ records, P r.degradationFlags r.recoveryCommits := fun r hr => by
      obtain ⟨-, hf, hc⟩ := hgood r hr
      rw [h.nTokens] at hc
      exact hg _ _ hf hc
    split
    · split
      · rename_i r
        split
        · exact h.setProvenance _ (hrec r mem_cons_self)
        · exact h
      · exact h
    · have hz := h.mapSeqs (f := fun _ t => { t with degradation := 0, recovery := 0 })
        fun _ _ _ => hP.zero
      clear hok hgood
      generalize (st.mapSeqs fun _ t => { t with degradation := 0, recovery := 0 }) = u at hz
      induction records generalizing u with
      | nil => exact hz
      | cons r rs ih =>
        exact ih (fun x hx => hrec x (mem_cons_of_mem r hx)) _
          (hz.setProvenance _ (hrec r mem_cons_self))

/-! ## Runs -/

/-- The flags that the call raises have `A`. -/
def StateOp.Raises (A : Nat → Prop) (st : TailStore) : StateOp → Prop
  | .call op => op.Raises A st
  | .restoreProvenance .. => True

theorem Op.raises_true (op : Op) (st : TailStore) : op.Raises (fun _ => True) st := by
  unfold Op.Raises
  split
  · trivial
  · trivial
  · exact fun _ _ _ _ _ _ => trivial
  · trivial

theorem StateOp.raises_true (op : StateOp) (st : TailStore) : op.Raises (fun _ => True) st := by
  cases op with
  | call op => exact op.raises_true st
  | restoreProvenance records destSeqId => trivial

theorem carries_inductive {A : Nat → Prop} {P : Nat → Nat → Nat → Prop} (hP : ∀ n, Stable n A (P n))
    (hg : ∀ n f r, unknownFlags f = 0 → Counted n f r → P n f r) :
    stateSys.Inductive (fun st op => op.Raises A st)
      fun st => st.Carries st.cfg.nTokens (P st.cfg.nTokens) where
  init st hst := by
    obtain ⟨-, h⟩ := sys_init hst
    rw [h]
    exact ⟨rfl, fun s => (hP _).zero, fun p hp => (nomatch hp), fun b hb => (nomatch hb)⟩
  step st op st' h hs e hA := by
    obtain rfl := e
    have hstep : (op.apply st).1.Carries st.cfg.nTokens (P st.cfg.nTokens) := by
      cases op with
      | call op =>
        refine h.apply (hP _) hA fun o ho hcfg => ?_
        rw [hcfg]
        exact hs o ho
      | restoreProvenance records destSeqId =>
        exact h.restoreProvenance (hP _) (hg _) records destSeqId
    rw [hstep.nTokens]
    exact hstep

/-- The records of `seqId` come back: every store of the same configuration takes them and then
has these flags and counters, and the manifest reader accepts them. -/
structure ProvenanceRoundTrips (st : TailStore) (seqId : Int) : Prop where
  restores : ∀ dst : TailStore, dst.cfg = st.cfg → ∃ dst',
    dst.restoreProvenance (st.snapshotProvenance seqId) seqId = (dst', .ok ()) ∧
    ∀ s, st.Covers seqId s →
      (dst'.seqs s).degradation = (st.provenance s).degradationFlags ∧
      (dst'.seqs s).recovery = (st.provenance s).recoveryCommits
  accepted : stateV2ReadProvenance st.cfg.nTokens st.cfg.nSeqMax st.cfg.nSeqMax seqId false
    (st.snapshotProvenance seqId) = .ok ()

section RoundTrip

variable {st : TailStore} {seqId : Int}

theorem restoreProvenance_snapshot (hs : seqId = -1 ∨ st.validSeq seqId = true)
    (hc : ∀ s, Counted st.cfg.nTokens (st.provenance s).degradationFlags
      (st.provenance s).recoveryCommits)
    (hk : ∀ s, st.Covers seqId s → unknownFlags (st.provenance s).degradationFlags = 0)
    {dst : TailStore} (hcfg : dst.cfg = st.cfg) : ∃ dst',
      dst.restoreProvenance (st.snapshotProvenance seqId) seqId = (dst', .ok ()) ∧
      ∀ s, st.Covers seqId s → prov (dst'.seqs s) =
        ((st.provenance s).degradationFlags, (st.provenance s).recoveryCommits) := by
  have hok : forRecords dst.checkRecord [] (st.snapshotProvenance seqId) = .ok
      ((st.snapshotProvenance seqId).map (·.seqId)).reverse := by
    refine (forRecords_snapshot checkRecord_ok hs _).mpr ⟨rfl, fun s hcov => ⟨?_, hk s hcov, ?_⟩⟩
    · rw [provenance_seqId, validSeq, hcfg]
      have := hcov.1
      exact decide_eq_true (by omega)
    · rw [hcfg]
      exact hc s
  unfold restoreProvenance
  rw [hok]
  rcases hs with rfl | hv
  · refine ⟨_, rfl, fun s hcov => ?_⟩
    have hmem := (mem_snapshotProvenance (.inl rfl)).mpr ⟨s, hcov, rfl⟩
    have := foldl_setProvenance (snapshotProvenance_nodup (.inl rfl)) (fun r hr => by
      obtain ⟨x, -, rfl⟩ := (mem_snapshotProvenance (.inl rfl)).mp hr
      rw [provenance_seqId]
      omega) hmem (dst.mapSeqs fun _ t => { t with degradation := 0, recovery := 0 })
    rwa [provenance_seqId] at this
  · obtain ⟨h0, hn⟩ := of_decide_eq_true hv
    have hv' : dst.validSeq seqId = true := by
      rw [validSeq, hcfg]
      exact hv
    rw [if_pos h0, snapshotProvenance_one hv]
    dsimp only
    rw [if_pos hv']
    refine ⟨_, rfl, fun s hcov => ?_⟩
    have hs' : seqId.toNat = s := by
      obtain ⟨-, h | h⟩ := hcov <;> omega
    rw [hs']
    show prov (Function.update dst.seqs s _ s) = _
    rw [update_self]
    rfl

theorem stateV2ReadProvenance_snapshot (hs : seqId = -1 ∨ st.validSeq seqId = true)
    (hc : ∀ s, Counted st.cfg.nTokens (st.provenance s).degradationFlags
      (st.provenance s).recoveryCommits) :
    stateV2ReadProvenance st.cfg.nTokens st.cfg.nSeqMax st.cfg.nSeqMax seqId false
        (st.snapshotProvenance seqId) = .ok () ↔
      ∀ s, st.Covers seqId s → unknownFlags (st.provenance s).degradationFlags = 0 := by
  have hiff := forRecords_snapshot (stateV2CheckRecord_ok st.cfg.nTokens st.cfg.nSeqMax seqId) hs
  unfold stateV2ReadProvenance
  constructor
  · intro h s hcov
    split at h
    · cases h
    · rename_i out hok
      exact (((hiff out).mp hok).2 s hcov).2.1
  · intro hk
    have hok := (hiff _).mpr ⟨rfl, fun s hcov => ⟨⟨?_, ?_⟩, hk s hcov, hc s⟩⟩
    · rw [hok]
      dsimp only
      rcases hs with rfl | hv
      · have hall : (List.range st.cfg.nSeqMax).any (fun s => decide ((s : Int) ∉
            ((st.snapshotProvenance (-1)).map (·.seqId)).reverse)) = false := by
          rw [any_eq_false, snapshotProvenance_ids]
          intro s hs'
          simpa using hs'
        rw [hall]
        rfl
      · have : seqId ≠ -1 := by
          have := (of_decide_eq_true hv).1
          omega
        rw [if_neg (by simp [this])]
    · rw [provenance_seqId]
      omega
    · rw [provenance_seqId]
      exact_mod_cast hcov.1

end RoundTrip

/-- The counters of a reachable store are in bounds. -/
theorem reach_counted (h : stateSys.Reach (fun _ _ => True) st) (s : Nat) :
    Counted st.cfg.nTokens (st.provenance s).degradationFlags
      (st.provenance s).recoveryCommits := by
  have hr : stateSys.Reach (fun st op => op.Raises (fun _ => True) st) st :=
    h.mono fun st op _ => op.raises_true st
  exact (hr.inv (carries_inductive stable_counted fun _ _ _ _ hc => hc)).provenance s

/-- A run that raises only known flags has only known flags. -/
theorem reach_known
    (h : stateSys.Reach (fun st op => op.Raises (fun flags => unknownFlags flags = 0) st) st)
    (s : Nat) : unknownFlags (st.provenance s).degradationFlags = 0 :=
  (h.inv (carries_inductive stable_known fun _ _ _ hf _ => hf)).provenance s

theorem reach_roundTrips_iff (h : stateSys.Reach (fun _ _ => True) st)
    {seqId : Int} (hs : seqId = -1 ∨ st.validSeq seqId = true) :
    st.ProvenanceRoundTrips seqId ↔
      ∀ s, st.Covers seqId s → unknownFlags (st.provenance s).degradationFlags = 0 := by
  have hread := stateV2ReadProvenance_snapshot hs (reach_counted h)
  refine ⟨fun hr => hread.mp hr.accepted, fun hk => ⟨fun dst hcfg => ?_, hread.mpr hk⟩⟩
  obtain ⟨dst', e, hp⟩ := restoreProvenance_snapshot hs (reach_counted h) hk hcfg
  exact ⟨dst', e, fun s hcov => Prod.mk.inj (hp s hcov)⟩

/-- The records of a reachable store come back exactly if no record has a flag that the readers do
not know; along the runs that raise no such flag they always come back. -/
theorem reach_provenance_roundTrips (seqId : Int) :
    (∀ st, stateSys.Reach (fun _ _ => True) st → seqId = -1 ∨ st.validSeq seqId = true →
      (st.ProvenanceRoundTrips seqId ↔
        ∀ s, st.Covers seqId s → unknownFlags (st.provenance s).degradationFlags = 0)) ∧
    ∀ st, stateSys.Reach (fun st op => op.Raises (fun flags => unknownFlags flags = 0) st) st →
      seqId = -1 ∨ st.validSeq seqId = true → st.ProvenanceRoundTrips seqId := by
  refine ⟨fun st h hs => reach_roundTrips_iff h hs, fun st h hs => ?_⟩
  exact (reach_roundTrips_iff (h.mono fun _ _ _ => trivial) hs).mpr fun s _ => reach_known h s

/-- A call that reads no other store is a step. -/
theorem reach_call {ok : TailStore → StateOp → Prop}
    (h : stateSys.Reach ok st) (op : Op) (hs : op.source = none) (hok : ok st (.call op)) :
    stateSys.Reach ok (op.apply st).1 := by
  refine Sys.Reach.step h (fun o ho => ?_)
    (show (StateOp.apply st (.call op)).1 = _ from rfl) hok
  have ho' : op.source = some o := ho
  rw [hs] at ho'
  cases ho'

/-- A store whose sequence `0` was changed by a historical operation. -/
def degradedOne : TailStore := runOps [.markDegraded 0 2] compactTwo

/-- The flag of a historical operation comes back. -/
theorem degradedOne_roundTrips :
    (degradedOne.provenance 0).degradationFlags = 2 ∧ degradedOne.ProvenanceRoundTrips (-1) := by
  refine ⟨by decide +kernel, (reach_provenance_roundTrips (-1)).2 degradedOne ?_ (.inl rfl)⟩
  exact reach_call (.init compactTwo_init) (.markDegraded 0 2) rfl rfl

/-- A batch that writes a row for sequence `0` fails after the payload may have changed. -/
def failedBatch : TailStore :=
  runOps [.beginBatch, .commit 0 ⟨0, 0, 1⟩ 0 0 0, .finishBatch false true] compactTwo

theorem failedBatch_reach : stateSys.Reach (fun _ _ => True) failedBatch := by
  have h0 : stateSys.Reach (fun _ _ => True) compactTwo := .init compactTwo_init
  have h1 := reach_call h0 .beginBatch rfl trivial
  have h2 := reach_call h1 (.commit 0 ⟨0, 0, 1⟩ 0 0 0) rfl trivial
  exact reach_call h2 (.finishBatch false true) rfl trivial

/-- The records of the whole store are refused after a failed batch. -/
theorem reach_not_roundTrips :
    ¬ ∀ st, stateSys.Reach (fun _ _ => True) st → st.ProvenanceRoundTrips (-1) := by
  intro h
  have hr := (h failedBatch failedBatch_reach).accepted
  exact absurd hr (by decide +kernel)

end BeeLlama.TailStore
