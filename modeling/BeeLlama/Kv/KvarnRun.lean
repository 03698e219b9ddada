import BeeLlama.Kv.Kvarn

/-!
# Runs of the KVarN cache

`KvarnCache.Inv`: the metadata cache keeps its invariant and is plain, and its tail is the metadata
of a structured cache. Every call of the KVarN cache that returns keeps it (`Inv.call`), so it holds
in every reachable state (`inv_inductive`).
-/

namespace BeeLlama

open KvCache

/-- A call of the tail that keeps its invariant and does not throw. -/
theorem KvCache.onTail_spec {st : KvCache} (h : st.Inv) {f : TailStore → Out Unit}
    (hf : ∀ t, t.Inv → (f t).2 = .ok () ∧ (f t).1.Inv) : ∃ tail,
    st.onTail f = ({ st with tail := tail }, .ok ()) ∧ KvCache.Inv { st with tail := tail } := by
  unfold onTail
  cases ht : st.tail with
  | none =>
    refine ⟨none, by simp only [← ht], ?_⟩
    rw [← ht]
    exact h
  | some t =>
    obtain ⟨hok, hi⟩ := hf t (h.tail t ht)
    have e : f t = ((f t).1, .ok ()) := Prod.ext rfl hok
    refine ⟨some (f t).1, ?_, h.cells, ?_⟩
    · simp only
      rw [e]
    · intro t' ht'
      cases ht'
      exact hi

namespace KvarnCache

/-- The metadata of a KVarN cache is well formed and has no shifts. -/
structure Inv (k : KvarnCache) : Prop where
  metadata : k.metadata.Inv
  plain : k.metadata.Plain
  tailMetadataOnly : k.metadata.cfg.tailMetadataOnly = true

section

variable {α β : Type} {k k' : KvarnCache}

theorem andThen_ok {o : KOut α} {f : KvarnCache → α → KOut β} {b : β}
    (e : andThen o f = (k', .ok b)) : ∃ k₁ a, o = (k₁, .ok a) ∧ f k₁ a = (k', .ok b) := by
  obtain ⟨k₁, r⟩ := o
  cases r with
  | error e' => cases (Prod.mk.inj e).2
  | ok a => exact ⟨k₁, a, rfl, e⟩

theorem onMetadata_ok {o : COut α} {a : α} (e : k.onMetadata o = (k', .ok a)) :
    o = (k'.metadata, .ok a) ∧ k' = { k with metadata := k'.metadata } := by
  obtain ⟨rfl, e2⟩ := Prod.mk.inj e
  exact ⟨Prod.ext rfl e2, rfl⟩

theorem Inv.of_metadata (h : k.Inv) (hi : k'.metadata.Inv ∧ k'.metadata.cfg = k.metadata.cfg)
    (hp : k'.metadata.Plain) : k'.Inv :=
  ⟨hi.1, hp, by rw [hi.2]; exact h.tailMetadataOnly⟩

/-! ## Pending copies and cleared rows -/

theorem commitSeqCp_cfg {t t' : TailStore} (e : t.commitSeqCp = (t', .ok ())) : t'.cfg = t.cfg := by
  unfold TailStore.commitSeqCp at e
  split at e
  · rw [(Prod.mk.inj e).1]
  · dsimp only at e
    split at e
    · cases e
    · cases e
      rfl

/-- What `apply_pending_stream_copies` leaves of the metadata: all but the entries of the tail. -/
theorem applyPendingStreamCopies_eq (e : k.applyPendingStreamCopies = (k', .ok ())) :
    ∃ tail, k'.metadata = { k.metadata with tail := tail } ∧
      tail.map (·.cfg) = k.metadata.tail.map (·.cfg) := by
  unfold applyPendingStreamCopies at e
  split at e
  · cases e
    exact ⟨_, rfl, rfl⟩
  · split at e
    · cases e
    · obtain ⟨k1, u1, e1, e⟩ := andThen_ok e
      cases e
      split at e1
      · obtain ⟨e1, -⟩ := onMetadata_ok e1
        rcases onTail_ok e1 with ⟨-, e2⟩ | ⟨t, t', a, ht, ec, e2⟩
        · exact ⟨_, e2, rfl⟩
        · refine ⟨_, e2, ?_⟩
          have ht' : k.metadata.tail = some t := ht
          rw [ht', Option.map_some, Option.map_some, commitSeqCp_cfg ec]
      · cases e1
        exact ⟨_, rfl, rfl⟩

theorem applyPendingStreamCopies_inv (h : k.metadata.Inv)
    (e : k.applyPendingStreamCopies = (k', .ok ())) : k'.metadata.Inv := by
  unfold applyPendingStreamCopies at e
  split at e
  · cases e
    exact h
  · split at e
    · cases e
    · obtain ⟨k1, u1, e1, e⟩ := andThen_ok e
      cases e
      split at e1
      · obtain ⟨e1, -⟩ := onMetadata_ok e1
        exact (h.onTail (fun t t' a ht et => ht.commitSeqCp et) e1).1
      · cases e1
        exact h

theorem Inv.applyPendingStreamCopies (h : k.Inv)
    (e : k.applyPendingStreamCopies = (k', .ok ())) : k'.Inv := by
  have hi := applyPendingStreamCopies_inv h.metadata e
  obtain ⟨tail, em, -⟩ := applyPendingStreamCopies_eq e
  refine h.of_metadata ⟨hi, by rw [em]⟩ ?_
  rw [em]
  exact h.plain.of_eq (.inl rfl) rfl

/-- The tail forgets its entries and cursors. Nothing throws. -/
theorem resetTailWriteCursor_spec {st : KvCache} (h : st.Inv) (seqId : Int) :
    ∃ tail, st.resetTailWriteCursor seqId = ({ st with tail := tail }, .ok ()) ∧
      KvCache.Inv { st with tail := tail } := by
  have one : ∀ (st : KvCache), st.Inv → ∀ seqId : Int, ∃ tail,
      (st.onTail fun t => t.resetWriteCursor seqId) = ({ st with tail := tail }, .ok ()) ∧
        KvCache.Inv { st with tail := tail } :=
    fun st h seqId => KvCache.onTail_spec h fun t ht => ht.resetWriteCursor
  have all : ∀ (seqs : List Nat) (st : KvCache), st.Inv → ∃ tail,
      seqs.foldl (fun (o : COut Unit) (s : Nat) => KvCache.andThen o fun st _ =>
        st.onTail fun t => t.resetWriteCursor s) (st, .ok ()) =
          (({ st with tail := tail }, .ok ()) : COut Unit) ∧
        KvCache.Inv { st with tail := tail } := by
    intro seqs
    induction seqs with
    | nil => exact fun st h => ⟨st.tail, rfl, h⟩
    | cons s seqs ih =>
      intro st h
      obtain ⟨tail, e, h1⟩ := one st h s
      obtain ⟨tail', e', h2⟩ := ih _ h1
      refine ⟨tail', ?_, h2⟩
      rw [List.foldl_cons]
      show seqs.foldl _ (st.onTail fun t => t.resetWriteCursor s) = _
      rw [e]
      exact e'
  unfold resetTailWriteCursor
  split
  · exact all _ st h
  · split
    · exact one st h seqId
    · exact ⟨st.tail, rfl, h⟩

/-- `clear_tail_storage` changes the tail and the rows only, and does not throw. -/
theorem clearTailStorage_spec (h : k.metadata.Inv) (seqId : Int) : ∃ tail layers,
    k.clearTailStorage seqId =
      ({ k with metadata := { k.metadata with tail := tail }, layers := layers }, .ok ()) ∧
      KvCache.Inv { k.metadata with tail := tail } := by
  unfold clearTailStorage
  split
  · exact ⟨k.metadata.tail, k.layers, rfl, h⟩
  · obtain ⟨tail, e, hi⟩ := resetTailWriteCursor_spec h seqId
    rw [e]
    exact ⟨tail, _, rfl, hi⟩

theorem Inv.clearTailStorage (h : k.Inv) {seqId : Int}
    (e : k.clearTailStorage seqId = (k', .ok ())) : k'.Inv := by
  obtain ⟨tail, layers, e1, hi⟩ := clearTailStorage_spec h.metadata seqId
  rw [e1] at e
  cases e
  exact ⟨hi, h.plain.of_eq (.inl rfl) rfl, h.tailMetadataOnly⟩

/-! ## The calls -/

/-- A call of the KVarN cache. `restored` is what `state_read` leaves of the metadata. -/
inductive Op where
  | prepare (us : List Ubatch)
  | apply (i : SlotInfo) (u : Ubatch)
  | finishTailBatch (success payloadMayBeModified : Bool)
  | update
  | seqRm (seqId p0 p1 : Int)
  | seqRmCell (s cellIdx : Nat)
  | seqCp (src dst : Nat) (p0 p1 : Int)
  | seqKeep (s : Nat)
  | clear (data : Bool)
  | stateRead (restored : KvCache) (layers : List KvarnLayer)

/-- The call, without the value that it returns. -/
def Op.call (k : KvarnCache) : Op → KOut Unit
  | .prepare us => andThen (k.onMetadata (k.metadata.prepare us)) fun k _ => (k, .ok ())
  | .apply i u => k.apply i u
  | .finishTailBatch success payload => k.onMetadata (k.metadata.finishTailBatch success payload)
  | .update => k.update
  | .seqRm seqId p0 p1 => andThen (k.seqRm seqId p0 p1) fun k _ => (k, .ok ())
  | .seqRmCell s cellIdx => k.seqRmCell s cellIdx
  | .seqCp src dst p0 p1 => k.seqCp src dst p0 p1
  | .seqKeep s => k.seqKeep s
  | .clear data => k.clear data
  | .stateRead restored layers => ({ k with metadata := restored, layers := layers }, .ok ())

/-- What the call asserts, or its callers promise. `state_read` installs well-formed cells without
shifts. -/
def Op.Asserts (k : KvarnCache) : Op → Prop
  | .prepare us => (KvCache.Op.prepare us).Asserts k.metadata
  | .apply i u => (KvCache.Op.applyUbatch i u).Asserts k.metadata
  | .seqRmCell s cellIdx => (KvCache.Op.seqRmCell s cellIdx).Asserts k.metadata
  | .seqCp src dst p0 p1 => (KvCache.Op.seqCp src dst p0 p1).Asserts k.metadata
  | .stateRead restored _ => restored.Inv ∧ restored.Plain ∧ restored.cfg = k.metadata.cfg
  | _ => True

/-- A new KVarN cache: the metadata cache of the constructor, whose tail is metadata only. -/
def New (k : KvarnCache) : Prop :=
  KvCache.sys.init k.metadata ∧ k.metadata.cfg.tailMetadataOnly = true ∧ k.pendingStreamCopies = {}

/-- The KVarN cache with its calls. -/
def sys : Sys KvarnCache Op where
  init := New
  step k op k' := op.Asserts k ∧ op.call k = (k', .ok ())

theorem Inv.seqCp {src dst : Nat} {p0 p1 : Int} (h : k.Inv)
    (ha : (Op.seqCp src dst p0 p1).Asserts k) (e : k.seqCp src dst p0 p1 = (k', .ok ())) :
    k'.Inv := by
  obtain ⟨k1, u1, e1, e⟩ := andThen_ok e
  have h1 := h.applyPendingStreamCopies e1
  obtain ⟨tail, em, -⟩ := applyPendingStreamCopies_eq e1
  dsimp only at e
  split at e
  · cases e
  · obtain ⟨k2, u2, e2, e⟩ := andThen_ok e
    cases e
    obtain ⟨e2, -⟩ := onMetadata_ok e2
    have hcells : k1.metadata.cells = k.metadata.cells := by rw [em]
    have hcfg : k1.metadata.cfg = k.metadata.cfg := by rw [em]
    obtain ⟨hi, hc⟩ := h1.metadata.seqCp ⟨ha.1, by rw [hcells, hcfg]; exact ha.2, fun hx i hs => by
      rw [h1.plain.cells _ i, Int.sub_zero]
      exact (h1.metadata.cells _).pos_ne_of_mem hs⟩ e2
    have hp : ∀ x, (k2.metadata.cells x).NoShift := h1.plain.seqCp_cells e2
    refine ⟨⟨hi.cells, hi.tail⟩, ⟨rfl, hp⟩, ?_⟩
    show k2.metadata.cfg.tailMetadataOnly = true
    rw [hc]
    exact h1.tailMetadataOnly

theorem Inv.seqRm {seqId p0 p1 : Int} {b : Bool} (h : k.Inv)
    (e : k.seqRm seqId p0 p1 = (k', .ok b)) : k'.Inv := by
  obtain ⟨k1, u1, e1, e⟩ := andThen_ok e
  have h1 := h.applyPendingStreamCopies e1
  split at e
  · cases e
    exact h1
  · obtain ⟨k2, r, e2, e⟩ := andThen_ok e
    obtain ⟨e2, -⟩ := onMetadata_ok e2
    have h2 : k2.Inv := h1.of_metadata (h1.metadata.seqRm e2) (h1.plain.seqRm e2)
    split at e
    · cases e
      exact h2
    · obtain ⟨k3, u3, e3, e⟩ := andThen_ok e
      cases e
      split at e3
      · exact h2.clearTailStorage e3
      · split at e3
        · exact h2.clearTailStorage e3
        · cases e3
          exact h2

theorem Inv.apply {i : SlotInfo} {u : Ubatch} (h : k.Inv) (hi : KvCache.SlotOk k.metadata.cfg i u)
    (e : k.apply i u = (k', .ok ())) : k'.Inv := by
  have loop : ∀ (seqs : List Nat) (k : KvarnCache), k.Inv → ∃ k1,
      seqs.foldl (fun (o : KOut Unit) (s : Nat) => andThen o fun k _ => k.clearTailStorage s)
        (k, .ok ()) =
        ((k1, .ok ()) : KOut Unit) ∧ k1.Inv ∧ k1.metadata.cfg = k.metadata.cfg := by
    intro seqs
    induction seqs with
    | nil => exact fun k h => ⟨k, rfl, h, rfl⟩
    | cons s seqs ih =>
      intro k h
      obtain ⟨tail, layers, e, -⟩ := clearTailStorage_spec h.metadata s
      obtain ⟨k2, e2, h2, hc⟩ := ih _ (h.clearTailStorage e)
      refine ⟨k2, ?_, h2, hc⟩
      rw [List.foldl_cons]
      show seqs.foldl _ (k.clearTailStorage s) = _
      rw [e]
      exact e2
  obtain ⟨k1, e1, h1, hc⟩ := loop (startedSeqs u) k h
  unfold KvarnCache.apply at e
  dsimp only at e
  rw [e1] at e
  obtain ⟨e, -⟩ := onMetadata_ok e
  exact h1.of_metadata (h1.metadata.applyUbatch (by rw [hc]; exact hi) e) (h1.plain.applyUbatch e)

/-- The step lemma: a call keeps the invariant. -/
theorem Inv.call {op : Op} (h : k.Inv) (ha : op.Asserts k) (e : op.call k = (k', .ok ())) :
    k'.Inv := by
  cases op with
  | prepare us =>
    obtain ⟨k1, r, e1, e⟩ := andThen_ok e
    cases e
    obtain ⟨e1, -⟩ := onMetadata_ok e1
    exact h.of_metadata (h.metadata.prepare ha e1) (h.plain.prepare e1)
  | apply i u => exact h.apply ha e
  | finishTailBatch success payload =>
    obtain ⟨e, -⟩ := onMetadata_ok e
    exact h.of_metadata (h.metadata.finishTailBatch e) (h.plain.finishTailBatch e)
  | update =>
    obtain ⟨k1, u1, e1, e⟩ := andThen_ok e
    obtain ⟨e1, -⟩ := onMetadata_ok e1
    exact (h.of_metadata (h.metadata.update e1) (h.plain.update e1)).applyPendingStreamCopies e
  | seqRm seqId p0 p1 =>
    obtain ⟨k1, r, e1, e⟩ := andThen_ok e
    cases e
    exact h.seqRm e1
  | seqRmCell s cellIdx =>
    obtain ⟨k1, u1, e1, e⟩ := andThen_ok e
    have h1 := h.applyPendingStreamCopies e1
    obtain ⟨tail, em, -⟩ := applyPendingStreamCopies_eq e1
    dsimp only at e
    split at e
    · cases e
      exact h1
    · obtain ⟨e, -⟩ := onMetadata_ok e
      have hlt : cellIdx < k1.metadata.cfg.kvSize := by
        rw [em]
        exact ha
      exact h1.of_metadata (h1.metadata.seqRmCell hlt e) (h1.plain.seqRmCell e)
  | seqCp src dst p0 p1 => exact h.seqCp ha e
  | seqKeep s =>
    obtain ⟨k1, u1, e1, e⟩ := andThen_ok e
    have h1 := h.applyPendingStreamCopies e1
    obtain ⟨e, -⟩ := onMetadata_ok e
    exact h1.of_metadata (h1.metadata.seqKeep e) (h1.plain.seqKeep e)
  | clear data =>
    obtain ⟨k1, u1, e1, e⟩ := andThen_ok e
    cases e
    have h0 : KvarnCache.Inv { k with
        pendingStreamCopies := {}, metadata := k.metadata.clear false } :=
      ⟨h.metadata.clear false, h.plain.clear false, h.tailMetadataOnly⟩
    have h1 := h0.clearTailStorage e1
    exact ⟨h1.metadata, h1.plain, h1.tailMetadataOnly⟩
  | stateRead restored layers =>
    cases e
    exact ⟨ha.1, ha.2.1, by rw [ha.2.2]; exact h.tailMetadataOnly⟩

theorem New.inv (h : k.New) : k.Inv := by
  obtain ⟨⟨cfg, tail, -, ht, e⟩, hm, -⟩ := h
  refine ⟨?_, ?_, hm⟩
  · rw [e]
    exact create_inv fun t h => (ht t h).1
  · rw [e]
    exact ⟨rfl, fun x i => rfl⟩

theorem inv_inductive : sys.Inductive (fun _ _ => True) Inv where
  init _ := New.inv
  step _ _ _ h _ hstep _ := h.call hstep.1 hstep.2

end

end KvarnCache
end BeeLlama
