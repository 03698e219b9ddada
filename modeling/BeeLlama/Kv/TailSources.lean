import BeeLlama.Kv.TailFrame
import BeeLlama.Kv.TailMask
import BeeLlama.Lib.Newest

/-!
# What a compact batch reads

Inside a batch of the compact store `source_candidates` does not look at the present entries: it
takes the newest entries that `begin_batch` saved and the rows that the `commit`s of the batch name
(`Op.namedRow`), so that evictions, reused slots and recycled cells do not show.

* `inside_rows`: the transaction along the calls of a batch.
* `sourceCandidates_batch`: the candidates, and what the attention of the batch reads for them.
* `not_sourceCandidates_batch`: a `commit` that names no row of the batch has no candidate.
-/

namespace BeeLlama

open List
namespace TailStore

/-! ## The rows of a batch -/

/-- The row that a `commit` for sequence `s` gives to the batch. -/
def Op.rowOf (st : TailStore) (s : Nat) : Op → List TailEntry
  | .commit seqId identity position ordinal row =>
    match (st.commit seqId identity position ordinal row).2 with
    | .ok _ =>
      if seqId = s then [⟨identity, position, ordinal, (st.cfg.nSlots + row : Nat)⟩] else []
    | .error _ => []
  | _ => []

instance : (op : Op) → Decidable op.HasRow
  | .commit _ _ _ _ row => inferInstanceAs (Decidable (row ≠ UINT32_MAX))
  | .beginBatch | .recycle .. | .finishBatch .. | .prepareSeqCp .. | .commitSeqCp | .cancelSeqCp
  | .seqRm .. | .seqRmCell .. | .seqKeep _ | .seqAdd .. | .seqDiv .. | .invalidateSlots ..
  | .markDegraded .. | .resetWriteCursor _ | .restoreWriteCursor .. | .restore .. | .clear
  | .clone _ => .isTrue trivial

/-- The row, if the call names one of the batch and the store has exact entries. -/
def Op.namedRow (st : TailStore) (s : Nat) (op : Op) : List TailEntry :=
  if op.HasRow ∧ st.cfg.nTokens ≠ 0 then op.rowOf st s else []

/-- What `f` gives for the calls, each in the state in which it is made. -/
def collect {α : Type} (f : TailStore → Op → List α) : List Op → TailStore → List α
  | [], _ => []
  | op :: ops, st => f st op ++ collect f ops (op.apply st).1

/-- The calls of a batch: none of them ends it, and only a `commit` may throw. -/
def Inside : List Op → TailStore → Prop
  | [], _ => True
  | op :: ops, st => op.GoesOn ∧ (op.IsCommit ∨ (op.apply st).2 = .ok ()) ∧
      Inside ops (op.apply st).1

section Rows

variable {st : TailStore} {b : TailBatch}

theorem namedRow_commit (s : Nat) (seqId : Int) (identity : TailIdentity) (position : Int)
    (ordinal row : Nat) :
    (Op.commit seqId identity position ordinal row).namedRow st s =
      if row ≠ UINT32_MAX ∧ st.cfg.nTokens ≠ 0 then
        match (st.commit seqId identity position ordinal row).2 with
        | .ok _ =>
          if seqId = s then [⟨identity, position, ordinal, (st.cfg.nSlots + row : Nat)⟩] else []
        | .error _ => []
      else [] := rfl

/-- What `noteCurrent` appends. -/
theorem noteCurrent_rows (hb : st.batchTransaction = some b) (s : Nat) (e : TailEntry) (row : Nat)
    (he : 0 ≤ e.slot) :
    ∃ b', (st.noteCurrent s e row).1.batchTransaction = some b' ∧ b'.saved = b.saved ∧
      ∀ r, b'.current r = b.current r ++
        match (st.noteCurrent s e row).2 with
        | .ok _ =>
          if row ≠ UINT32_MAX ∧ s = r then [{ e with slot := (st.cfg.nSlots + row : Nat) }] else []
        | .error _ => [] := by
  unfold TailStore.noteCurrent
  rw [hb]
  dsimp only
  split
  · next hrow =>
    split
    · exact ⟨b, hb, rfl, fun r => (append_nil _).symm⟩
    · refine ⟨_, rfl, rfl, fun r => ?_⟩
      by_cases hr : s = r
      · subst hr
        simp [hrow.1]
      · simp [hr, Function.update_of_ne (Ne.symm hr)]
  · next hrow =>
    refine ⟨b, hb, rfl, fun r => ?_⟩
    rw [if_neg fun h => hrow ⟨h.1, he⟩, append_nil]

/-- A `commit` inside a batch. -/
theorem commit_rows (h : st.Inv) (hc : st.cfg.compactStorage = true)
    (hb : st.batchTransaction = some b) (seqId : Int) (identity : TailIdentity) (position : Int)
    (ordinal row : Nat) :
    ∃ b', (st.commit seqId identity position ordinal row).1.batchTransaction = some b' ∧
      b'.saved = b.saved ∧ ∀ s, s < st.cfg.nSeqMax →
        b'.current s =
          b.current s ++ (Op.commit seqId identity position ordinal row).namedRow st s := by
  by_cases hv : st.validSeq seqId = true ∧ st.cfg.nTokens ≠ 0
  · obtain ⟨hid, hs⟩ := validSeq_iff.mp hv.1
    rcases commit_eq identity position ordinal row hv.1 hv.2 with ⟨t, er, ht, e⟩ | ⟨t, ht, e⟩
    · refine ⟨b, by rw [e]; exact hb, rfl, fun s _ => ?_⟩
      rw [namedRow_commit, e, ite_self, append_nil]
    · have ha : InArena st.cfg seqId.toNat (t.retained identity) :=
        retained_inArena (h.seq _ hs) hc (h.cfg.limit_pos hv.2)
          (by rw [h.cfg.limit_eq]; exact h.bound hc _ hs) ht
      have hb' : (st.setSeq seqId.toNat t).batchTransaction = some b := hb
      obtain ⟨b', hb1, hsaved, hrows⟩ := noteCurrent_rows hb' seqId.toNat
        ⟨identity, position, ordinal, t.retained identity⟩ row (InArena.nonneg ha)
      refine ⟨b', by rw [e]; exact hb1, hsaved, fun s _ => ?_⟩
      have hiff : seqId.toNat = s ↔ seqId = s := by omega
      rw [hrows s, namedRow_commit, e]
      simp only [hiff, hv.2, ne_eq, not_false_eq_true, and_true, ite_and]
      congr 1
      split <;> split <;> rfl
  · refine ⟨b, by rw [commit_invalid hv]; exact hb, rfl, fun s hs => ?_⟩
    rw [namedRow_commit, commit_invalid hv]
    split
    · next hrow =>
      -- the sequence is not valid
      rw [if_neg, append_nil]
      rintro rfl
      exact hv ⟨validSeq_iff.mpr ⟨by omega, by omega⟩, hrow.2⟩
    · rw [append_nil]

/-- One call of a batch. -/
theorem apply_rows (h : st.Inv) (hc : st.cfg.compactStorage = true)
    (hb : st.batchTransaction = some b) {op : Op} (hg : op.GoesOn)
    (ho : op.IsCommit ∨ (op.apply st).2 = .ok ()) :
    (op.apply st).1.Inv ∧ (op.apply st).1.cfg = st.cfg ∧
    ∃ b', (op.apply st).1.batchTransaction = some b' ∧ b'.saved = b.saved ∧
      ∀ s, s < st.cfg.nSeqMax → b'.current s = b.current s ++ op.namedRow st s := by
  by_cases hcommit : op.IsCommit
  · cases op with
    | commit seqId identity position ordinal row =>
      exact ⟨h.commit seqId identity position ordinal row, commit_cfg ..,
        commit_rows h hc hb seqId identity position ordinal row⟩
    | _ => exact hcommit.elim
  · have ha := @apply_aside st op hg hcommit
    refine ⟨@Inv.apply _ _ h op (fun o hsrc => ?_) (Prod.ext rfl (ho.resolve_left hcommit)), ha.cfg,
      ?_⟩
    · cases op with
      | clone source => exact hg.elim
      | _ => cases hsrc
    · obtain ⟨b', hb', hsame⟩ : ∃ b', (op.apply st).1.batchTransaction = some b' ∧
          SameRows b b' := by
        have hrel := ha.batch
        rw [hb] at hrel
        cases hrel' : (op.apply st).1.batchTransaction with
        | none =>
          rw [hrel'] at hrel
          cases hrel
        | some b' =>
          rw [hrel'] at hrel
          cases hrel with
          | some hsame => exact ⟨b', rfl, hsame⟩
      refine ⟨b', hb', hsame.1, fun s _ => ?_⟩
      have hno : op.namedRow st s = [] := by
        cases op with
        | commit => exact absurd trivial hcommit
        | _ => exact ite_self _
      rw [hno, hsame.2, append_nil]

/-- The calls of a batch. -/
theorem inside_rows {ops : List Op} :
    ∀ {st : TailStore} {b : TailBatch}, st.Inv → st.cfg.compactStorage = true →
      st.batchTransaction = some b → Inside ops st →
      (runOps ops st).cfg = st.cfg ∧
      ∃ b', (runOps ops st).batchTransaction = some b' ∧ b'.saved = b.saved ∧
        ∀ s, s < st.cfg.nSeqMax →
          b'.current s = b.current s ++ collect (fun st op => op.namedRow st s) ops st := by
  induction ops with
  | nil =>
    intro st b _ _ hb _
    exact ⟨rfl, b, hb, rfl, fun s _ => (append_nil _).symm⟩
  | cons op ops ih =>
    intro st b h hc hb ⟨hg, ho, hin⟩
    obtain ⟨h1, hcfg, b1, hb1, hsaved₁, hrows1⟩ := apply_rows h hc hb hg ho
    obtain ⟨hcfg2, b2, hb2, hsaved₂, hrows2⟩ := ih h1 (by rw [hcfg]; exact hc) hb1 hin
    rw [hcfg] at hcfg2 hrows2
    refine ⟨hcfg2, b2, hb2, hsaved₂.trans hsaved₁, fun s hs => ?_⟩
    rw [hrows2 s hs, hrows1 s hs, append_assoc]
    rfl

end Rows

/-! ## The rows that the attention reads -/

section Graph

variable {α : Type}

/-- Row `x` of the stored rows with those of the batch after them (`ggml_concat`). -/
def sourceRow (nSlots : Nat) (stored current : Nat → α) (x : Int) : α :=
  if x < nSlots then stored x.toNat else current (x - nSlots).toNat

/-- `ggml_set_rows` from row `i` of the batch on: it skips a negative index. -/
def setRows (current : Nat → α) : List Int → Nat → (Nat → α) → Nat → α
  | [], _, stored => stored
  | x :: idxs, i, stored =>
    setRows current idxs (i + 1)
      (if x < 0 then stored else Function.update stored x.toNat (current i))

/-- A layer of the graph (`build_attn`): the attention reads the rows `reads`; its result is the
dependency of the writes of `cpy_k_tail`, one `ggml_set_rows_ordered` for each level. -/
def attendThenWrite (nSlots : Nat) (stored current : Nat → α) (reads : List Int)
    (levels : List (List Int)) : List α × (Nat → α) :=
  (reads.map (sourceRow nSlots stored current),
    levels.foldl (fun stored idxs => setRows current idxs 0 stored) stored)

end Graph

/-- The call is a `commit` for sequence `s`. -/
def Op.commitsTo (s : Nat) : Op → Bool
  | .commit seqId .. => decide (seqId = s)
  | _ => false

/-- A call has at most one row, of a slot that is not stored. -/
theorem namedRow_spec (st : TailStore) (s : Nat) (op : Op) :
    (op.namedRow st s).length ≤ (op.commitsTo s).toNat ∧
      ∀ e ∈ op.namedRow st s, ∃ row : Nat, e.slot = (st.cfg.nSlots + row : Nat) := by
  cases op with
  | commit seqId identity position ordinal row =>
    rw [namedRow_commit]
    split
    · split
      · split
        · next hs =>
          refine ⟨by simp [Op.commitsTo, hs], fun e he => ⟨row, ?_⟩⟩
          rw [mem_singleton.mp he]
        · exact ⟨Nat.zero_le _, fun e he => by cases he⟩
      · exact ⟨Nat.zero_le _, fun e he => by cases he⟩
    · exact ⟨Nat.zero_le _, fun e he => by cases he⟩
  | _ => exact ⟨by simp [Op.namedRow, Op.rowOf], fun e he => by simp [Op.namedRow, Op.rowOf] at he⟩

/-- The rows of the calls. -/
theorem collect_namedRow {s : Nat} {ops : List Op} : ∀ {st : TailStore}, Inside ops st →
      (collect (fun st op => op.namedRow st s) ops st).length ≤ ops.countP (Op.commitsTo s) ∧
        ∀ e ∈ collect (fun st op => op.namedRow st s) ops st,
          ∃ row : Nat, e.slot = (st.cfg.nSlots + row : Nat) := by
  induction ops with
  | nil =>
    intro _ _
    exact ⟨Nat.le_refl 0, fun e he => by cases he⟩
  | cons op ops ih =>
    intro st ⟨_, _, hin⟩
    obtain ⟨hlen, hslot⟩ := namedRow_spec st s op
    obtain ⟨hlens, hslots⟩ := ih hin
    rw [apply_cfg] at hslots
    refine ⟨?_, fun e he => (mem_append.mp he).elim (hslot e) (hslots e)⟩
    have hcount : (op.commitsTo s).toNat + ops.countP (Op.commitsTo s) =
        (op :: ops).countP (Op.commitsTo s) := by
      rw [countP_cons, Nat.add_comm]
      cases op.commitsTo s <;> rfl
    rw [← hcount, collect, length_append]
    exact Nat.add_le_add hlen hlens

/-! ## The candidates -/

/-- Inside a batch of the compact store the candidates of a sequence are the newest entries from
before the batch and the rows that the batch named, whatever was evicted, reused or recycled. The
attention reads each of them before the batch writes: an entry as it was stored, a row from the
batch. -/
theorem sourceCandidates_batch {st st₁ : TailStore} (hr : sys.Reach (fun _ _ => True) st)
    (hc : st.cfg.compactStorage = true) (e : st.beginBatch = (st₁, .ok ())) (ops : List Op)
    (hin : Inside ops st₁) (s : Nat) (hs : s < st.cfg.nSeqMax) :
    let before := newest st.cfg.nTokens (st.seqs s).entries
    let rows := collect (fun st op => op.namedRow st s) ops st₁
    let candidates := (runOps ops st₁).sourceCandidates s
    candidates = (before.map (·.toTailEntry) ++ rows).insertionSort TailEntry.Le ∧
      candidates.length ≤ st.cfg.nTokens + ops.countP (Op.commitsTo s) ∧
      ∀ (α : Type) (stored current : Nat → α) (levels : List (List Int)),
        (attendThenWrite st.cfg.nSlots stored current (candidates.map (·.slot)) levels).1 =
            candidates.map (fun c => sourceRow st.cfg.nSlots stored current c.slot) ∧
          ∀ c ∈ candidates,
            (∃ n ∈ before, c = n.toTailEntry ∧
              sourceRow st.cfg.nSlots stored current c.slot = stored n.slot.toNat) ∨
            (c ∈ rows ∧ ∃ row : Nat, c.slot = (st.cfg.nSlots + row : Nat) ∧
              sourceRow st.cfg.nSlots stored current c.slot = current row) := by
  intro before rows candidates
  have h : st.Inv := hr.inv (inv_inductive _)
  have hfits : Fits st.cfg := hr.inv (fits_inductive _)
  obtain ⟨hcfg, hb⟩ := beginBatch_saved hc e
  obtain ⟨hcfg2, b, hb2, hsaved, hrows⟩ :=
    inside_rows (h.beginBatch e) (by rw [hcfg]; exact hc) hb hin
  obtain ⟨hlen, hslots⟩ := collect_namedRow (s := s) hin
  rw [hcfg] at hcfg2 hrows hslots
  have hcands : candidates = (before.map (·.toTailEntry) ++ rows).insertionSort TailEntry.Le := by
    have hv : (runOps ops st₁).validSeq s = true :=
      validSeq_iff.mpr ⟨rfl, by rw [hcfg2]; exact hs⟩
    have hdrop : ∀ l : List TailEntry, l.drop (if l.length > st.cfg.nTokens then
        l.length - st.cfg.nTokens else 0) = newest st.cfg.nTokens l := fun l => by
      unfold newest
      split
      · rfl
      · rw [Nat.sub_eq_zero_of_le (by omega)]
    have hmap : newest st.cfg.nTokens ((st.seqs s).entries.map (·.toTailEntry)) =
        before.map (·.toTailEntry) := by
      simp only [before, newest, length_map, map_drop]
    show (runOps ops st₁).sourceCandidates s = _
    unfold TailStore.sourceCandidates
    rw [if_neg (by simp [hv]), hb2, hcfg2]
    simp only [hdrop, Int.toNat_natCast, hsaved, hrows s hs, nil_append]
    rw [← hmap]
  have hmem : ∀ c ∈ candidates, (∃ n ∈ before, c = n.toTailEntry) ∨ c ∈ rows := fun c hcm => by
    rw [hcands, mem_insertionSort, mem_append, mem_map] at hcm
    rcases hcm with ⟨n, hn, rfl⟩ | hcm
    · exact .inl ⟨n, hn, rfl⟩
    · exact .inr hcm
  refine ⟨hcands, ?_, fun α stored current levels => ⟨map_map, fun c hcm => ?_⟩⟩
  · rw [hcands, length_insertionSort, length_append, length_map, length_newest]
    exact Nat.add_le_add (Nat.min_le_left _ _) hlen
  · rcases hmem c hcm with ⟨n, hn, rfl⟩ | hcm
    · -- a stored entry has a slot of an arena, which the rows of the batch come after
      have hlt := hfits.lt_nSlots hs ((h.seq s hs).arena n (mem_of_mem_drop hn))
      exact .inl ⟨n, hn, rfl, if_pos hlt⟩
    · obtain ⟨row, hrow⟩ := hslots c hcm
      refine .inr ⟨hcm, row, hrow, ?_⟩
      rw [sourceRow, hrow, if_neg (by omega)]
      congr 1
      omega

/-- A batch that recycles the cell of the entry from before it and has more tokens than a sequence
has slots. -/
def longBatch : List Op :=
  [.recycle 0 0 2, .commit 0 ⟨0, 1, 1⟩ 1 1 0, .commit 0 ⟨0, 2, 1⟩ 2 2 1, .commit 0 ⟨0, 3, 1⟩ 3 3 2]

/-- All tokens of the batch and the entry from before it are candidates. -/
theorem sourceCandidates_longBatch :
    ((runOps longBatch oneEntry.beginBatch.1).seqs 0).entries.length = 2 ∧
      (runOps longBatch oneEntry.beginBatch.1).sourceCandidates (0 : Nat) =
        [⟨⟨0, 0, 1⟩, 0, 0, 0⟩, ⟨⟨0, 1, 1⟩, 1, 1, 4⟩, ⟨⟨0, 2, 1⟩, 2, 2, 5⟩, ⟨⟨0, 3, 1⟩, 3, 3, 6⟩] :=
  ⟨by decide, (sourceCandidates_batch oneEntry_reach rfl
    (Prod.ext rfl rfl : oneEntry.beginBatch = (oneEntry.beginBatch.1, .ok ())) longBatch
    ⟨trivial, .inr rfl, trivial, .inl trivial, trivial, .inl trivial, trivial,
      .inl trivial, trivial⟩ 0 (by decide)).1.trans (by decide)⟩

/-- A `commit` that returns a slot but names no row of the batch has no candidate. -/
theorem not_sourceCandidates_batch :
    ¬ ∀ (st st₁ : TailStore) (ops : List Op) (s : Nat), sys.Reach (fun _ _ => True) st →
      st.cfg.compactStorage = true → st.beginBatch = (st₁, .ok ()) → Inside ops st₁ →
      s < st.cfg.nSeqMax →
      (runOps ops st₁).sourceCandidates s =
        ((newest st.cfg.nTokens (st.seqs s).entries).map (·.toTailEntry) ++
          collect (fun st op => op.rowOf st s) ops st₁).insertionSort TailEntry.Le := by
  intro h
  have := h oneEntry _ [.commit 0 ⟨0, 1, 1⟩ 1 1 UINT32_MAX] 0 oneEntry_reach rfl
    (Prod.ext rfl rfl) ⟨trivial, .inl trivial, trivial⟩ (by decide)
  exact absurd (congrArg List.length this) (by decide)

end TailStore
end BeeLlama
