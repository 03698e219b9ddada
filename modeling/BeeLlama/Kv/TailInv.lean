import BeeLlama.Kv.Tail
import BeeLlama.Kv.TailSeqOps

/-!
# The invariant of the tail store

`TailStore.Inv` lifts `EntryInv` to the store: each sequence has it, and what a pending copy or the
transaction of a batch holds fits the sequences. Every operation that does not throw keeps it, in
any order; there is one lemma for each. Which slots are taken is not part of it (see
`BeeLlama/Kv/TailOwned.lean`).
-/

namespace BeeLlama

open List TailStore SeqTail

/-- What the constructors check. -/
structure TailCfg.WF (cfg : TailCfg) : Prop where
  compact : cfg.compactStorage = true → cfg.historyLimit = cfg.nTokens + cfg.rollbackTokens
  plain : cfg.compactStorage = false → cfg.historyLimit = cfg.nTokens

theorem TailCfg.WF.limit_eq {cfg : TailCfg} (h : cfg.WF) : cfg.limit = cfg.historyLimit := by
  unfold TailCfg.limit
  split
  · rfl
  · next hc => exact (h.plain (by simpa using hc)).symm

theorem TailCfg.WF.limit_pos {cfg : TailCfg} (h : cfg.WF) (hn : cfg.nTokens ≠ 0) :
    0 < cfg.limit := by
  rw [h.limit_eq]
  cases hc : cfg.compactStorage with
  | true => have := h.compact hc; omega
  | false => have := h.plain hc; omega

/-- What a pending copy holds. -/
structure PendingInv (cfg : TailCfg) (p : PendingCp) : Prop where
  dst : p.dst < cfg.nSeqMax
  sorted : p.destination.Pairwise TailEntry.Le
  arena : ∀ e ∈ p.destination, InArena cfg p.dst e.slot
  length : p.destination.length ≤ cfg.limit

namespace TailStore

/-- What the transaction of a batch holds. -/
structure BatchInv (st : TailStore) (b : TailBatch) : Prop where
  compact : st.cfg.compactStorage = true
  inBatch : st.inBatch = true
  list : ∀ s, s < st.cfg.nSeqMax → ListInv st.cfg s (b.saved s).entries
  sorted : ∀ s, s < st.cfg.nSeqMax → Sorted (b.saved s).entries
  bound : ∀ s, s < st.cfg.nSeqMax → (b.saved s).entries.length ≤ st.cfg.historyLimit

/-- The invariant of the store. -/
structure Inv (st : TailStore) : Prop where
  cfg : st.cfg.WF
  seq : ∀ s, s < st.cfg.nSeqMax → EntryInv st.cfg s (st.seqs s)
  bound : st.cfg.compactStorage = true → ∀ s, s < st.cfg.nSeqMax →
    (st.seqs s).entries.length ≤ st.cfg.historyLimit
  pending : ∀ p, st.pendingSeqCp = some p → PendingInv st.cfg p
  batch : ∀ b, st.batchTransaction = some b → st.BatchInv b

section Frame

variable {st : TailStore}

@[simp] theorem setSeq_cfg (s : Nat) (t : SeqTail) : (st.setSeq s t).cfg = st.cfg := rfl
@[simp] theorem mapSeqs_cfg (f : Nat → SeqTail → SeqTail) : (st.mapSeqs f).cfg = st.cfg := rfl

theorem mapSeqs_seqs (st : TailStore) {f : Nat → SeqTail → SeqTail} {s : Nat}
    (h : s < st.cfg.nSeqMax) :
    (st.mapSeqs f).seqs s = f s (st.seqs s) := if_pos h

theorem validSeq_iff {seqId : Int} : st.validSeq seqId = true ↔
    seqId = seqId.toNat ∧ seqId.toNat < st.cfg.nSeqMax := by
  simp only [validSeq, decide_eq_true_eq]; omega

/-- A change of the sequences only. -/
theorem Inv.of_seqs {st' : TailStore} (h : st.Inv) (hcfg : st'.cfg = st.cfg)
    (hp : st'.pendingSeqCp = st.pendingSeqCp) (hb : st'.batchTransaction = st.batchTransaction)
    (hi : st'.inBatch = st.inBatch)
    (hs : ∀ s, s < st.cfg.nSeqMax → EntryInv st.cfg s (st'.seqs s))
    (hl : st.cfg.compactStorage = true → ∀ s, s < st.cfg.nSeqMax →
      (st'.seqs s).entries.length ≤ st.cfg.historyLimit) : st'.Inv := by
  refine ⟨?_, ?_, ?_, ?_, ?_⟩
  · rw [hcfg]; exact h.cfg
  · rw [hcfg]; exact hs
  · rw [hcfg]; exact hl
  · rw [hcfg, hp]; exact h.pending
  · rw [hb]
    intro b hb'
    have := h.batch b hb'
    exact
      { compact := by rw [hcfg]; exact this.compact
        inBatch := by rw [hi]; exact this.inBatch
        list := by rw [hcfg]; exact this.list
        sorted := by rw [hcfg]; exact this.sorted
        bound := by rw [hcfg]; exact this.bound }

theorem Inv.setSeq {s : Nat} {t : SeqTail} (h : st.Inv) (ht : EntryInv st.cfg s t)
    (hl : st.cfg.compactStorage = true → t.entries.length ≤ st.cfg.historyLimit) :
    (st.setSeq s t).Inv := by
  refine h.of_seqs rfl rfl rfl rfl (fun r hr => ?_) fun hc r hr => ?_
  · by_cases e : r = s
    · subst e; simpa [TailStore.setSeq] using ht
    · simpa [TailStore.setSeq, Function.update_of_ne e] using h.seq r hr
  · by_cases e : r = s
    · subst e; simpa [TailStore.setSeq] using hl hc
    · simpa [TailStore.setSeq, Function.update_of_ne e] using h.bound hc r hr

theorem Inv.mapSeqs {f : Nat → SeqTail → SeqTail} (h : st.Inv)
    (hf : ∀ s, s < st.cfg.nSeqMax → EntryInv st.cfg s (f s (st.seqs s)))
    (hl : st.cfg.compactStorage = true → ∀ s, s < st.cfg.nSeqMax →
      (f s (st.seqs s)).entries.length ≤ st.cfg.historyLimit) : (st.mapSeqs f).Inv := by
  refine h.of_seqs rfl rfl rfl rfl (fun r hr => ?_) fun hc r hr => ?_
  · rw [mapSeqs_seqs st hr]; exact hf r hr
  · rw [mapSeqs_seqs st hr]; exact hl hc r hr

variable {f : Nat → SeqTail → SeqTail × Except TailError Unit}

/-- A loop over sequences that all succeed. -/
theorem forList_ok {l : List Nat} (hnd : l.Nodup) (hf : ∀ s ∈ l, (f s (st.seqs s)).2 = .ok ()) :
    forList f l st =
      ({ st with seqs := fun s => if s ∈ l then (f s (st.seqs s)).1 else st.seqs s }, .ok ()) := by
  induction l generalizing st with
  | nil => simp [forList]
  | cons s l ih =>
    obtain ⟨hs, hl⟩ := nodup_cons.mp hnd
    have h1 := hf s (by simp)
    have he : f s (st.seqs s) = ((f s (st.seqs s)).1, .ok ()) := Prod.ext rfl h1
    unfold forList
    rw [he]
    simp only
    have hne : ∀ r ∈ l, r ≠ s := fun r hr e => hs (e ▸ hr)
    rw [ih hl fun r hr => by
      simp only [setSeq, Function.update_of_ne (hne r hr)]
      exact hf r (by simp [hr])]
    congr 2
    funext r
    by_cases e : r = s
    · subst e; simp [setSeq, hs]
    · by_cases hr : r ∈ l <;> simp [setSeq, hr, e]

theorem forSeqs_ok (hf : ∀ s, s < st.cfg.nSeqMax → (f s (st.seqs s)).2 = .ok ()) :
    st.forSeqs f = (st.mapSeqs fun s t => (f s t).1, .ok ()) := by
  unfold forSeqs
  rw [forList_ok nodup_range fun s hs => hf s (mem_range.mp hs)]
  simp only [mem_range, mapSeqs]

end Frame

/-! ## Construction and batches -/

section Batch

variable {st st' : TailStore}

/-- A store without entries. -/
theorem inv_of_empty (hcfg : st.cfg.WF) (hs : ∀ s, s < st.cfg.nSeqMax → st.seqs s = {})
    (hp : st.pendingSeqCp = none) (hb : st.batchTransaction = none) : st.Inv where
  cfg := hcfg
  seq s h := by
    rw [hs s h]
    exact { toListInv := ListInv.nil, index := by simp [Indexed], sorted := List.Pairwise.nil }
  bound _ s h := by rw [hs s h]; simp
  pending p e := by rw [hp] at e; cases e
  batch b e := by rw [hb] at e; cases e

theorem checkedTailSlotCount_ok {arenaStride nSeqMax sinkSlots n : Nat}
    (e : checkedTailSlotCount arenaStride nSeqMax sinkSlots = .ok n) :
    n = arenaStride * nSeqMax + sinkSlots ∧ n ≤ INT32_MAX := by
  unfold checkedTailSlotCount at e
  dsimp only at e
  split at e
  · cases e
  · next h =>
    cases e
    exact ⟨rfl, Nat.le_of_not_lt h⟩

/-- What `create` returns. -/
theorem create_eq {nTokens nSeqMax arenaStride sinkSlots : Nat}
    (e : create nTokens nSeqMax arenaStride sinkSlots = .ok st) :
    st.cfg.WF ∧ st = { cfg := st.cfg } := by
  unfold create checkedTailSlotCount at e
  simp only [bind, Except.bind] at e
  split at e
  · cases e
  · split at e
    · cases e
    · obtain rfl : _ = st := by simpa [pure, Except.pure] using e
      exact ⟨⟨by simp, by simp⟩, rfl⟩

/-- What `createCompact` returns. -/
theorem createCompact_eq {nTokens rollbackTokens nSeqMax historyStride sinkSlots : Nat}
    (e : createCompact nTokens rollbackTokens nSeqMax historyStride sinkSlots = .ok st) :
    st.cfg.WF ∧ st = { cfg := st.cfg } := by
  unfold createCompact checkedTailHistoryLimit checkedTailSlotCount at e
  simp only [bind, Except.bind] at e
  split at e
  · cases e
  · next limit hl =>
    split at e
    · cases e
    · split at e
      · cases e
      · obtain rfl : _ = st := by simpa [pure, Except.pure] using e
        have hlim : nTokens + rollbackTokens = limit := by
          split at hl
          · cases hl
          · simpa using hl
        exact ⟨⟨fun _ => hlim.symm, by simp⟩, rfl⟩

theorem inv_of_new (hcfg : st.cfg.WF) (h : st = { cfg := st.cfg }) : st.Inv :=
  inv_of_empty hcfg (fun s _ => by rw [h]) (by rw [h]) (by rw [h])

theorem Inv.clear (h : st.Inv) : st.clear.Inv :=
  inv_of_empty h.cfg (fun _ hs => if_pos hs) rfl rfl

theorem Inv.beginBatch (h : st.Inv) (e : st.beginBatch = (st', .ok ())) : st'.Inv := by
  unfold TailStore.beginBatch at e
  split at e
  · cases e
  · cases e
    have hm : (st.mapSeqs fun s t => t.trim st.cfg s st.cfg.limit).Inv := by
      refine h.mapSeqs (fun s hs => entryInv_trim (h.seq s hs) _) fun _ s _ => ?_
      rw [← h.cfg.limit_eq]
      exact trim_length_le _
    refine ⟨hm.cfg, hm.seq, hm.bound, hm.pending, fun b hb => ?_⟩
    by_cases hc : st.cfg.compactStorage = true
    · simp only [hc, if_true, Option.some.injEq] at hb
      subst hb
      exact
        { compact := hc
          inBatch := rfl
          list := fun s hs => (h.seq s hs).toListInv
          sorted := fun s hs => (h.seq s hs).sorted
          bound := h.bound hc }
    · simp only [hc] at hb
      have := (h.batch b (by simpa using hb)).compact
      exact absurd this hc

/-- A batch begins with at most `n_tokens` entries (with `history_limit` in the compact store). -/
theorem beginBatch_length (e : st.beginBatch = (st', .ok ())) {s : Nat}
    (hs : s < st.cfg.nSeqMax) : (st'.seqs s).entries.length ≤ st.cfg.limit := by
  unfold beginBatch at e
  split at e
  · cases e
  · cases e
    show ((st.mapSeqs fun s t => t.trim st.cfg s st.cfg.limit).seqs s).entries.length ≤ _
    rw [mapSeqs_seqs st hs]
    exact trim_length_le _

theorem entryInv_dropAll {cfg : TailCfg} {s : Nat} (t : SeqTail) :
    EntryInv cfg s (t.dropAll cfg s) where
  toListInv := ListInv.nil
  index := by simp [Indexed, dropAll]
  sorted := List.Pairwise.nil

/-- The rollback of one sequence: the saved state, or nothing. -/
theorem rollbackSeq_spec {b : TailBatch} {payload : Bool} {cfg : TailCfg} {s : Nat} {t : SeqTail}
    (h : ListInv cfg s t.entries) (hs : Sorted t.entries) :
    (rollbackSeq cfg b payload s t).2 = .ok () ∧
    EntryInv cfg s (rollbackSeq cfg b payload s t).1 ∧
    (rollbackSeq cfg b payload s t).1 =
      if payload = true ∧ b.affected s = true then
        (t.rebuildIndex.1.dropAll cfg s).degrade LLAMA_KV_TAIL_DEGRADED_PAYLOAD_INVALID
      else t.rebuildIndex.1 := by
  obtain ⟨hok, hi⟩ := entryInv_rebuildIndex h hs
  unfold rollbackSeq
  have he : t.rebuildIndex = (t.rebuildIndex.1, .ok ()) := Prod.ext rfl hok
  rw [he]
  simp only
  by_cases hc : payload = true ∧ b.affected s = true
  · rw [if_pos hc]
    simp only [hc.1, hc.2, Bool.not_true, Bool.or_self, Bool.false_eq_true, if_false]
    exact ⟨trivial, entryInv_congr (entryInv_dropAll t.rebuildIndex.1) rfl rfl, trivial⟩
  · have hc' : (!payload || !b.affected s) = true := by
      by_contra hn
      exact hc (by simpa using hn)
    rw [if_neg hc, if_pos hc']
    exact ⟨rfl, hi, rfl⟩

/-- `finish_batch(false, payload)` of a compact store, as a change of each sequence. -/
theorem finishBatch_rollback {b : TailBatch} {payload : Bool} (h : st.Inv)
    (hc : st.cfg.compactStorage = true) (hb : st.batchTransaction = some b) :
    st.finishBatch false payload =
      ({ st.mapSeqs fun s t => (rollbackSeq st.cfg b payload s (t.load (b.saved s))).1 with
          batchTransaction := none, inBatch := false }, .ok ()) := by
  have hbi := h.batch b hb
  have hf : (st.mapSeqs fun s t => t.load (b.saved s)).forSeqs (rollbackSeq st.cfg b payload) =
      _ := forSeqs_ok fun s hs => by
    rw [mapSeqs_seqs st hs]
    exact (rollbackSeq_spec (hbi.list s hs) (hbi.sorted s hs)).1
  unfold finishBatch
  simp only [hc, hb, Bool.not_true, Bool.false_eq_true, if_false]
  rw [hf]
  simp only [Prod.mk.injEq, and_true]
  congr 1
  funext s
  simp only [mapSeqs]
  split <;> rfl

theorem Inv.finishBatch {success payload : Bool} (h : st.Inv)
    (e : st.finishBatch success payload = (st', .ok ())) : st'.Inv := by
  cases hc : st.cfg.compactStorage with
  | false =>
    simp only [TailStore.finishBatch, hc, Bool.not_false, if_true] at e
    cases e
    refine ⟨h.cfg, h.seq, h.bound, h.pending, fun b hb => ?_⟩
    have := (h.batch b hb).compact
    simp [hc] at this
  | true =>
    cases hb : st.batchTransaction with
    | none =>
      simp only [TailStore.finishBatch, hc, hb, Bool.not_true, Bool.false_eq_true, if_false] at e
      cases e
      exact h
    | some b =>
      cases success with
      | true =>
        simp only [TailStore.finishBatch, hc, hb, Bool.not_true, Bool.false_eq_true, if_false,
          if_true] at e
        cases e
        exact ⟨h.cfg, h.seq, h.bound, h.pending, fun b hb => by cases hb⟩
      | false =>
        rw [finishBatch_rollback h hc hb] at e
        cases e
        have hbi := h.batch b hb
        have hm : (st.mapSeqs fun s t =>
            (rollbackSeq st.cfg b payload s (t.load (b.saved s))).1).Inv := by
          refine h.mapSeqs (fun s hs => ?_) fun _ s hs => ?_
          · exact (rollbackSeq_spec (hbi.list s hs) (hbi.sorted s hs)).2.1
          · have hl : ListInv st.cfg s ((st.seqs s).load (b.saved s)).entries := hbi.list s hs
            rw [(rollbackSeq_spec hl (hbi.sorted s hs)).2.2]
            split
            · exact Nat.zero_le _
            · exact hbi.bound s hs
        exact ⟨hm.cfg, hm.seq, hm.bound, hm.pending, fun b hb => by cases hb⟩

/-- The end of `commit` touches the transaction only. -/
theorem Inv.noteCurrent (h : st.Inv) (s : Nat) (e : TailEntry) (row : Nat) :
    (st.noteCurrent s e row).1.Inv := by
  unfold TailStore.noteCurrent
  split
  · exact h
  · next b hb =>
    split
    · split
      · exact h
      · have hbi := h.batch b hb
        refine ⟨h.cfg, h.seq, h.bound, h.pending, fun b' hb' => ?_⟩
        simp only [Option.some.injEq] at hb'
        subst hb'
        exact ⟨hbi.compact, hbi.inBatch, hbi.list, hbi.sorted, hbi.bound⟩
    · exact h

/-- `commit` on a valid sequence. -/
theorem commit_eq {seqId : Int} (identity : TailIdentity) (position : Int) (ordinal row : Nat)
    (hv : st.validSeq seqId = true) (hn : st.cfg.nTokens ≠ 0) :
    (∃ t er, (st.seqs seqId.toNat).commit st.cfg seqId.toNat st.inBatch identity position ordinal
        = (t, .error er) ∧
      st.commit seqId identity position ordinal row = (st.setSeq seqId.toNat t, .error er)) ∨
    (∃ t, (st.seqs seqId.toNat).commit st.cfg seqId.toNat st.inBatch identity position ordinal
        = (t, .ok ()) ∧
      st.commit seqId identity position ordinal row =
        (st.setSeq seqId.toNat t).noteCurrent seqId.toNat
          ⟨identity, position, ordinal, t.retained identity⟩ row) := by
  unfold commit
  rw [if_neg (by simp [hv, hn])]
  simp only
  split
  · next t er ht => exact .inl ⟨t, er, ht, rfl⟩
  · next t ht => exact .inr ⟨t, ht, rfl⟩

theorem commit_invalid {seqId position : Int} {identity : TailIdentity} {ordinal row : Nat}
    (hv : ¬ (st.validSeq seqId = true ∧ st.cfg.nTokens ≠ 0)) :
    st.commit seqId identity position ordinal row = (st, .ok LLAMA_KV_TAIL_BODY_SLOT) := by
  unfold commit
  refine if_pos ?_
  by_cases h : st.validSeq seqId = true
  · simpa [h] using hv
  · simp [h]

/-- `commit` keeps the invariant, also when it throws. -/
theorem Inv.commit (h : st.Inv) (seqId : Int) (identity : TailIdentity) (position : Int)
    (ordinal row : Nat) : (st.commit seqId identity position ordinal row).1.Inv := by
  by_cases hv : st.validSeq seqId = true ∧ st.cfg.nTokens ≠ 0
  · obtain ⟨-, hs⟩ := validSeq_iff.mp hv.1
    rcases commit_eq identity position ordinal row hv.1 hv.2 with ⟨t, er, ht, e⟩ | ⟨t, ht, e⟩
    · rw [e]
      obtain ⟨hi, hsub⟩ := commit_error (h.seq _ hs) ht
      exact h.setSeq hi fun hc => hsub.length_le.trans (h.bound hc _ hs)
    · rw [e]
      refine Inv.noteCurrent (h.setSeq (commit_spec (h.seq _ hs) ht).1 fun hc => ?_) _ _ _
      rw [← h.cfg.limit_eq]
      refine (commit_compact (h.seq _ hs) hc (h.cfg.limit_pos hv.2) ?_ ht).1
      rw [h.cfg.limit_eq]
      exact h.bound hc _ hs
  · rw [commit_invalid hv]
    exact h

theorem Inv.recycle {stream cell generation : Nat} (h : st.Inv) :
    (st.recycle stream cell generation).Inv := by
  have hm : (st.mapSeqs fun s t => (t.recycle st.cfg s stream cell generation).1).Inv := by
    refine h.mapSeqs (fun s hs => (recycle_spec (h.seq s hs) _ _ _).1) fun hc s hs => ?_
    exact (recycle_spec (h.seq s hs) _ _ _).2.1.length_le.trans (h.bound hc s hs)
  refine ⟨hm.cfg, hm.seq, hm.bound, hm.pending, fun b hb => ?_⟩
  obtain ⟨b0, hb0, rfl⟩ := Option.map_eq_some_iff.mp hb
  have hbi := h.batch b0 hb0
  exact ⟨hbi.compact, hbi.inBatch, hbi.list, hbi.sorted, hbi.bound⟩

end Batch

/-! ## Sequence operations -/

section Seq

variable {st st' : TailStore}

/-- Flags of the pending copy change. -/
theorem Inv.of_pendingFlags (h : st.Inv) {flags count : PendingCp → Nat} :
    ({ st with pendingSeqCp := st.pendingSeqCp.map fun p =>
        { p with degradationFlags := flags p, recoveryCommits := count p } } : TailStore).Inv := by
  refine ⟨h.cfg, h.seq, h.bound, fun p hp => ?_, fun b hb => ?_⟩
  · obtain ⟨p0, hp0, rfl⟩ := Option.map_eq_some_iff.mp hp
    have := h.pending p0 hp0
    exact ⟨this.dst, this.sorted, this.arena, this.length⟩
  · have hbi := h.batch b hb
    exact ⟨hbi.compact, hbi.inBatch, hbi.list, hbi.sorted, hbi.bound⟩

variable {seqId : Int}

theorem Inv.markDegraded {flags : Nat} (h : st.Inv) : (st.markDegraded seqId flags).Inv := by
  unfold TailStore.markDegraded
  simp only
  split
  · have hm : (st.mapSeqs fun _ t => t.degrade flags).Inv :=
      h.mapSeqs (fun s hs => entryInv_congr (h.seq s hs) rfl rfl) h.bound
    exact hm.of_pendingFlags
  · split
    · next hv =>
      obtain ⟨-, hs⟩ := validSeq_iff.mp hv
      split
      · exact h.of_pendingFlags
      · exact h.setSeq (entryInv_congr (h.seq _ hs) rfl rfl) fun hc => h.bound hc _ hs
    · exact h

/-- A loop over the sequences whose body succeeds and keeps the invariant of one sequence. -/
theorem Inv.forSeqs {f : Nat → SeqTail → SeqTail × Except TailError Unit} (h : st.Inv)
    (hf : ∀ s, s < st.cfg.nSeqMax → (f s (st.seqs s)).2 = .ok () ∧
      EntryInv st.cfg s (f s (st.seqs s)).1 ∧
      (f s (st.seqs s)).1.entries.length ≤ max (st.seqs s).entries.length st.cfg.limit) :
    (st.forSeqs f).2 = .ok () ∧ (st.forSeqs f).1.Inv := by
  rw [forSeqs_ok fun s hs => (hf s hs).1]
  refine ⟨rfl, ?_⟩
  refine h.mapSeqs (f := fun s t => (f s t).1) (fun s hs => (hf s hs).2.1) fun hc s hs => ?_
  have hl := (hf s hs).2.2
  have hb := h.bound hc s hs
  rw [h.cfg.limit_eq] at hl
  omega

theorem Inv.invalidateSlots {slots : List Int} {flags : Nat} (h : st.Inv) :
    (st.invalidateSlots slots flags).2 = .ok () ∧ (st.invalidateSlots slots flags).1.Inv := by
  refine h.forSeqs fun s hs => ?_
  obtain ⟨hok, hi, hsub⟩ := invalidateSlots_spec (h.seq s hs) slots flags
  exact ⟨hok, hi, hsub.length_le.trans (le_max_left _ _)⟩

theorem Inv.seqRm (h : st.Inv) (seqId p0 p1 : Int) :
    (st.seqRm seqId p0 p1).2 = .ok () ∧ (st.seqRm seqId p0 p1).1.Inv := by
  unfold TailStore.seqRm
  split
  · next hv =>
    obtain ⟨-, hs⟩ := validSeq_iff.mp hv
    obtain ⟨hok, hi, he⟩ := seqRm_spec (h.seq _ hs) p0 p1
    refine ⟨hok, h.setSeq hi fun hc => ?_⟩
    rw [he]
    exact (length_filter_le _ _).trans (h.bound hc _ hs)
  · exact ⟨rfl, h⟩

theorem Inv.seqRmCell {stream cell : Nat} (h : st.Inv) :
    (st.seqRmCell seqId stream cell).2 = .ok () ∧ (st.seqRmCell seqId stream cell).1.Inv := by
  unfold TailStore.seqRmCell
  split
  · next hv =>
    obtain ⟨-, hs⟩ := validSeq_iff.mp hv
    obtain ⟨hok, hi, he⟩ := seqRmCell_spec (h.seq _ hs) stream cell
    refine ⟨hok, h.setSeq hi fun hc => ?_⟩
    rw [he]
    exact (length_filter_le _ _).trans (h.bound hc _ hs)
  · exact ⟨rfl, h⟩

theorem Inv.seqKeep (h : st.Inv) : (st.seqKeep seqId).2 = .ok () ∧ (st.seqKeep seqId).1.Inv := by
  refine h.forSeqs fun s hs => ?_
  split
  · exact ⟨rfl, h.seq s hs, le_max_left _ _⟩
  · obtain ⟨hok, hi, he⟩ := seqRm_spec (h.seq s hs) 0 (-1)
    refine ⟨hok, hi, Nat.le_trans ?_ (le_max_left _ _)⟩
    rw [he]
    exact length_filter_le _ _

theorem Inv.seqAdd {seqId p0 p1 shift : Int} (h : st.Inv) :
    (st.seqAdd seqId p0 p1 shift).2 = .ok () ∧ (st.seqAdd seqId p0 p1 shift).1.Inv := by
  unfold TailStore.seqAdd
  split
  · refine h.forSeqs fun s hs => ?_
    obtain ⟨hok, hi, -, -, hl⟩ := seqAdd_spec (h.seq s hs)
      ((st.seqs seqId.toNat).identitiesIn p0 p1) shift
      (decide (shift ≠ 0 ∧ ¬ (p0 ≤ 0 ∧ p1 < 0)))
    exact ⟨hok, hi, hl⟩
  · exact ⟨rfl, h⟩

theorem Inv.seqDiv {seqId p0 p1 divisor : Int} (h : st.Inv) :
    (st.seqDiv seqId p0 p1 divisor).2 = .ok () ∧ (st.seqDiv seqId p0 p1 divisor).1.Inv := by
  unfold TailStore.seqDiv
  split
  · refine h.forSeqs fun s hs => ?_
    obtain ⟨hok, hi, -, hl⟩ := seqDiv_spec (h.seq s hs)
      ((st.seqs seqId.toNat).identitiesIn p0 p1) divisor
      (decide (divisor ≠ 1 ∧ ¬ (p0 ≤ 0 ∧ p1 < 0)))
    exact ⟨hok, hi, hl⟩
  · exact ⟨rfl, h⟩

theorem Inv.restore {seqId position x : Int} {identity : TailIdentity} {ordinal l : Nat}
    (h : st.Inv) (e : st.restore seqId identity position ordinal l = (st', .ok x)) : st'.Inv := by
  unfold TailStore.restore at e
  split at e
  · cases e
  · next hv =>
    simp only [Bool.or_eq_true, Bool.not_eq_true', decide_eq_true_eq, not_or, Bool.not_eq_false]
      at hv
    obtain ⟨-, hs⟩ := validSeq_iff.mp hv.1.1.1.1
    have hl : l < st.cfg.arenaStride := Nat.not_le.mp hv.1.1.1.2
    obtain ⟨rfl, hx⟩ := Prod.mk.inj e
    obtain ⟨hi, hb, -⟩ := restore_spec (h.seq _ hs) hl (Prod.ext rfl hx)
    exact h.setSeq hi fun _ => hb

theorem Inv.setCursor {s : Nat} {c : Nat} (h : st.Inv) (hs : s < st.cfg.nSeqMax) :
    (st.setSeq s { st.seqs s with cursor := c }).Inv :=
  h.setSeq (entryInv_congr (h.seq s hs) rfl rfl) fun hc => h.bound hc s hs

theorem Inv.restoreWriteCursor {c : Nat} (h : st.Inv) : (st.restoreWriteCursor seqId c).1.Inv := by
  unfold TailStore.restoreWriteCursor
  split
  · exact h
  · next hv =>
    simp only [Bool.or_eq_true, Bool.not_eq_true', decide_eq_true_eq, not_or, Bool.not_eq_false]
      at hv
    exact h.setCursor (validSeq_iff.mp hv.1.1.1.1).2

theorem seqRm_cfg {seqId p0 p1 : Int} : (st.seqRm seqId p0 p1).1.cfg = st.cfg := by
  unfold seqRm
  split <;> rfl

theorem Inv.resetWriteCursor (h : st.Inv) :
    (st.resetWriteCursor seqId).2 = .ok () ∧ (st.resetWriteCursor seqId).1.Inv := by
  unfold TailStore.resetWriteCursor
  split
  · exact ⟨rfl, h⟩
  · next hv =>
    simp only [Bool.or_eq_true, Bool.not_eq_true', not_or, Bool.not_eq_false] at hv
    obtain ⟨-, hs⟩ := validSeq_iff.mp hv.1.1
    obtain ⟨hok, hi⟩ := h.seqRm seqId (-1) (-1)
    have he : st.seqRm seqId (-1) (-1) = ((st.seqRm seqId (-1) (-1)).1, .ok ()) := Prod.ext rfl hok
    rw [he]
    exact ⟨rfl, hi.setCursor (by rw [seqRm_cfg]; exact hs)⟩

theorem Inv.clone {source : TailStore} (h : st.Inv) (hs : source.Inv)
    (e : st.cloneLogicalStateFrom source = (st', .ok ())) : st'.Inv := by
  unfold cloneLogicalStateFrom at e
  split at e
  · cases e
  · next hcfg =>
    split at e
    · cases e
    · next hn =>
      have hcfg : st.cfg = source.cfg := not_not.mp hcfg
      have hseq : ∀ s, s < st.cfg.nSeqMax → EntryInv st.cfg s (source.seqs s) := fun s h' => by
        have := hs.seq s (by rw [← hcfg]; exact h')
        rwa [← hcfg] at this
      have hr : ∀ s, s < st.cfg.nSeqMax →
          ((st.seqs s).load (source.seqs s).toSeqState).rebuildIndex.2 = .ok () ∧
          EntryInv st.cfg s ((st.seqs s).load (source.seqs s).toSeqState).rebuildIndex.1 :=
        fun s h' => entryInv_rebuildIndex (hseq s h').toListInv (hseq s h').sorted
      have hm : ∀ s, s < st.cfg.nSeqMax → (st.copyFrom source).seqs s =
          (st.seqs s).load (source.seqs s).toSeqState := fun s h' => if_pos h'
      rw [forSeqs_ok fun s h' => by
        rw [hm s h']
        exact (hr s h').1] at e
      cases e
      refine ⟨h.cfg, fun s h' => ?_, fun hc s h' => ?_, (fun p hp => nomatch hp),
        (fun b hb => nomatch hb)⟩
      · rw [mapSeqs_seqs (st.copyFrom source) h', hm s h']
        exact (hr s h').2
      · rw [mapSeqs_seqs (st.copyFrom source) h', hm s h']
        have := hs.bound (by rw [← hcfg]; exact hc) s (by rw [← hcfg]; exact h')
        rwa [← hcfg] at this

end Seq

end TailStore
end BeeLlama
