import BeeLlama.Kv.TailRun

/-!
# Batches of the compact tail store

A batch is `begin_batch`, then calls of `commit`, `recycle`, `seq_rm` and `mark_degraded`, then
`finish_batch`. The transaction keeps what `begin_batch` saved, and `affected` collects the
sequences with a slot that the batch assigned to one of its rows or freed by `recycle`
(`run_extends`).

* `batch_atomic`: a failed batch gives every sequence back, or drops the affected ones when the
  payload may be modified. No entry is left on a slot that a row of the batch was assigned to.
* `batch_not_atomic`: a `commit` without a row of the batch does not make its sequence affected,
  and a slot of a pending copy stays used in a dropped sequence.
-/

namespace BeeLlama.TailStore

open TailStore SeqTail

/-- The calls that a batch makes between `begin_batch` and `finish_batch`. -/
def Op.InBatch : Op → Prop
  | .commit .. => True
  | .recycle .. => True
  | .seqRm .. => True
  | .markDegraded .. => True
  | _ => False

/-- The call is a `commit` that returns slot `x` for sequence `s`. -/
def Op.Assigns (st : TailStore) (s : Nat) (x : Int) : Op → Prop
  | .commit seqId identity position ordinal row =>
    seqId = s ∧ 0 ≤ x ∧ (st.commit seqId identity position ordinal row).2 = .ok x
  | _ => False

/-- A `commit` names a row of the batch. -/
def Op.HasRow : Op → Prop
  | .commit _ _ _ _ row => row ≠ UINT32_MAX
  | _ => True

/-- The call is a `recycle` that erases an entry of sequence `s`. -/
def Op.Frees (st : TailStore) (s : Nat) : Op → Prop
  | .recycle stream cell generation =>
    ((st.recycle stream cell generation).seqs s).entries ≠ (st.seqs s).entries
  | _ => False

/-- The call puts a row of the batch on a slot of sequence `s`, or frees a slot of it. -/
def Op.Affects (s : Nat) (st : TailStore) (op : Op) : Prop :=
  (op.HasRow ∧ ∃ x, op.Assigns st s x) ∨ op.Frees st s

/-- Some call of the list meets `p` in the state in which it is made. -/
def SomeCall (p : TailStore → Op → Prop) : List Op → TailStore → Prop
  | [], _ => False
  | op :: ops, st => p st op ∨ SomeCall p ops (op.apply st).1

/-! ## The transaction along a batch -/

theorem InArena.nonneg {cfg : TailCfg} {s : Nat} {x : Int} (h : InArena cfg s x) : 0 ≤ x := by
  obtain ⟨l, -, rfl⟩ := h
  simp only [slotOf]
  omega

/-- The slot that `commit` returns in a compact store is one of the sequence. -/
theorem retained_inArena {cfg : TailCfg} {s : Nat} {t t' : SeqTail} {inBatch : Bool}
    {identity : TailIdentity} {position : Int} {ordinal : Nat} (h : EntryInv cfg s t)
    (hc : cfg.compactStorage = true) (hpos : 0 < cfg.limit) (hl : t.entries.length ≤ cfg.limit)
    (e : t.commit cfg s inBatch identity position ordinal = (t', .ok ())) :
    InArena cfg s (t'.retained identity) := by
  have h' := (commit_spec h e).1
  obtain ⟨n, hn, rfl⟩ := (commit_compact h hc hpos hl e).2
  rw [retained_eq h' hn]
  exact h'.arena n hn

section Transaction

variable {st st' : TailStore} {b : TailBatch}

/-- `b'` saves what `b` saves, and the sequences with `p` are affected too. -/
structure Extends (st : TailStore) (b : TailBatch) (p : Nat → Prop) (b' : TailBatch) : Prop where
  saved : b'.saved = b.saved
  affected : ∀ s, s < st.cfg.nSeqMax → (b'.affected s = true ↔ b.affected s = true ∨ p s)

theorem Extends.of_not {p : Nat → Prop} (hp : ∀ s, s < st.cfg.nSeqMax → ¬ p s) : Extends st b p b :=
  ⟨rfl, fun s hs => by simp [hp s hs]⟩

theorem noteCurrent_cases (hb : st.batchTransaction = some b) (s : Nat) (e : TailEntry) (row : Nat)
    (he : 0 ≤ e.slot) :
    (∃ b', st.noteCurrent s e row = ({ st with batchTransaction := some b' }, .ok e.slot) ∧
      Extends st b (fun r => row ≠ UINT32_MAX ∧ r = s) b') ∨
    st.noteCurrent s e row = (st, .error .currentSourceOverflow) := by
  unfold noteCurrent
  rw [hb]
  simp only
  split
  · next hr =>
    split
    · exact .inr rfl
    · refine .inl ⟨_, rfl, rfl, fun r _ => ?_⟩
      by_cases hrs : r = s
      · subst hrs
        simp [hr.1]
      · simp [hrs]
  · next hr =>
    refine .inl ⟨b, ?_, Extends.of_not fun r _ hx => hr ⟨hx.1, he⟩⟩
    rw [← hb]

/-- What a `commit` of a batch does: it returns a slot of the sequence and notes the row, or it
returns no slot and leaves the transaction. -/
theorem commit_cases (h : st.Inv) (hc : st.cfg.compactStorage = true)
    (hb : st.batchTransaction = some b) (seqId : Int) (identity : TailIdentity) (position : Int)
    (ordinal row : Nat) :
    (∃ b' x, (st.commit seqId identity position ordinal row).2 = .ok x ∧ 0 ≤ seqId ∧
      seqId < st.cfg.nSeqMax ∧ InArena st.cfg seqId.toNat x ∧
      (st.commit seqId identity position ordinal row).1.batchTransaction = some b' ∧
      Extends st b (fun s => row ≠ UINT32_MAX ∧ s = seqId.toNat) b') ∨
    ((∀ x, (st.commit seqId identity position ordinal row).2 = .ok x → x < 0) ∧
      (st.commit seqId identity position ordinal row).1.batchTransaction = some b) := by
  by_cases hv : st.validSeq seqId = true ∧ st.cfg.nTokens ≠ 0
  · obtain ⟨hid, hs⟩ := validSeq_iff.mp hv.1
    rcases commit_eq identity position ordinal row hv.1 hv.2 with ⟨t, er, ht, e⟩ | ⟨t, ht, e⟩
    · rw [e]
      exact .inr ⟨fun x hx => (by cases hx), hb⟩
    · have ha := retained_inArena (h.seq _ hs) hc (h.cfg.limit_pos hv.2)
        (by rw [h.cfg.limit_eq]; exact h.bound hc _ hs) ht
      have hb' : (st.setSeq seqId.toNat t).batchTransaction = some b := hb
      rw [e]
      rcases noteCurrent_cases hb' seqId.toNat ⟨identity, position, ordinal, t.retained identity⟩
          row (InArena.nonneg ha) with ⟨b', en, hx⟩ | en
      · rw [en]
        exact .inl ⟨b', _, rfl, by omega, by omega, ha, rfl, hx.saved, hx.affected⟩
      · rw [en]
        exact .inr ⟨fun x hx => (by cases hx), hb⟩
  · rw [commit_invalid hv]
    refine .inr ⟨fun x hx => ?_, hb⟩
    cases hx
    decide

theorem commit_cfg (seqId : Int) (identity : TailIdentity) (position : Int) (ordinal row : Nat) :
    (st.commit seqId identity position ordinal row).1.cfg = st.cfg := by
  unfold commit
  split
  · rfl
  · simp only
    split
    · rfl
    · unfold noteCurrent
      split
      · rfl
      · split
        · split <;> rfl
        · rfl

theorem noteCurrent_seqs (st : TailStore) (r : Nat) (e : TailEntry) (row : Nat) :
    (st.noteCurrent r e row).1.seqs = st.seqs ∧ (st.noteCurrent r e row).1.cfg = st.cfg := by
  unfold noteCurrent
  split
  · exact ⟨rfl, rfl⟩
  · split
    · split <;> exact ⟨rfl, rfl⟩
    · exact ⟨rfl, rfl⟩

theorem noteCurrent_saved (st : TailStore) (r : Nat) (e : TailEntry) (row : Nat) :
    (st.noteCurrent r e row).1.pendingSeqCp = st.pendingSeqCp ∧
    ∀ b ∈ (st.noteCurrent r e row).1.batchTransaction, ∃ b₀ ∈ st.batchTransaction,
      b.saved = b₀.saved := by
  unfold noteCurrent
  split
  · exact ⟨rfl, fun b hb => ⟨b, hb, rfl⟩⟩
  · next b₀ hb0 =>
    split
    · split
      · exact ⟨rfl, fun b hb => ⟨b, hb, rfl⟩⟩
      · refine ⟨rfl, fun b hb => ⟨b₀, hb0, ?_⟩⟩
        cases hb
        rfl
    · exact ⟨rfl, fun b hb => ⟨b, hb, rfl⟩⟩

/-- A commit leaves the pending copy and the saved state. -/
theorem commit_saved (st : TailStore) (seqId : Int) (identity : TailIdentity) (position : Int)
    (ordinal row : Nat) :
    (st.commit seqId identity position ordinal row).1.pendingSeqCp = st.pendingSeqCp ∧
    ∀ b ∈ (st.commit seqId identity position ordinal row).1.batchTransaction,
      ∃ b₀ ∈ st.batchTransaction, b.saved = b₀.saved := by
  by_cases hv : st.validSeq seqId = true ∧ st.cfg.nTokens ≠ 0
  · rcases commit_eq identity position ordinal row hv.1 hv.2 with ⟨t, er, -, e⟩ | ⟨t, -, e⟩
    · rw [e]
      exact ⟨rfl, fun b hb => ⟨b, hb, rfl⟩⟩
    · rw [e]
      exact noteCurrent_saved _ _ _ _
  · rw [commit_invalid hv]
    exact ⟨rfl, fun b hb => ⟨b, hb, rfl⟩⟩

theorem commit_inBatch (seqId : Int) (identity : TailIdentity) (position : Int)
    (ordinal row : Nat) :
    (st.commit seqId identity position ordinal row).1.inBatch = st.inBatch := by
  unfold commit
  split
  · rfl
  · simp only
    split
    · rfl
    · unfold noteCurrent
      split
      · rfl
      · split
        · split <;> rfl
        · rfl

/-- A slot that a `commit` of a batch returns is one of its sequence. -/
theorem Op.Assigns.inArena (h : st.Inv) (hc : st.cfg.compactStorage = true)
    (hb : st.batchTransaction = some b) {op : Op} {s : Nat} {x : Int} (ha : op.Assigns st s x) :
    s < st.cfg.nSeqMax ∧ InArena st.cfg s x := by
  cases op with
  | commit seqId identity position ordinal row =>
    obtain ⟨rfl, hx0, hx⟩ := ha
    rcases commit_cases h hc hb s identity position ordinal row with
      ⟨b', y, hy, -, hs, hin, -⟩ | ⟨hno, -⟩
    · rw [hx] at hy
      cases hy
      exact ⟨by omega, hin⟩
    · have := hno x hx
      omega
  | _ => exact ha.elim

/-- `recycle` reports the sequences that it changes. -/
theorem recycle_erases {cfg : TailCfg} {s : Nat} {t : SeqTail} (h : EntryInv cfg s t)
    (stream cell generation : Nat) :
    (t.recycle cfg s stream cell generation).2 = true ↔
      (t.recycle cfg s stream cell generation).1.entries ≠ t.entries := by
  refine ⟨fun hr => ?_, fun hne => ?_⟩
  · unfold SeqTail.recycle at hr ⊢
    cases hf : t.find (stream, cell) with
    | none => rw [hf] at hr; cases hr
    | some n =>
      rw [hf] at hr
      simp only at hr ⊢
      split at hr
      · next hg =>
        rw [if_pos hg]
        intro he
        have := eraseEntry_length_lt cfg s ((find_eq_some h).mp hf).1 true
        rw [he] at this
        exact Nat.lt_irrefl _ this
      · cases hr
  · by_contra hr
    exact hne (by rw [(recycle_spec h stream cell generation).2.2.2 (by simpa using hr)])

/-- One call of a batch: the saved state stays, and the sequences that the call affects are
noted. -/
theorem apply_extends (h : st.Inv) (hc : st.cfg.compactStorage = true)
    (hb : st.batchTransaction = some b) {op : Op} (hop : op.InBatch) :
    (op.apply st).1.Inv ∧ (op.apply st).1.cfg = st.cfg ∧
    ∃ b', (op.apply st).1.batchTransaction = some b' ∧
      Extends st b (fun s => op.Affects s st) b' := by
  cases op with
  | commit seqId identity position ordinal row =>
    refine ⟨h.commit seqId identity position ordinal row, commit_cfg .., ?_⟩
    rcases commit_cases h hc hb seqId identity position ordinal row with
      ⟨b', x, hx, h0, hn, ha, hb', he⟩ | ⟨hno, hb'⟩
    · refine ⟨b', hb', he.saved, fun s hs => ?_⟩
      rw [he.affected s hs]
      refine or_congr_right ⟨fun ⟨hr, hs'⟩ => ?_, ?_⟩
      · exact .inl ⟨hr, x, by omega, InArena.nonneg ha, hx⟩
      · rintro (⟨hr, y, hy, -⟩ | hf)
        · exact ⟨hr, by omega⟩
        · exact hf.elim
    · refine ⟨b, hb', Extends.of_not fun s hs => ?_⟩
      rintro (⟨-, y, -, hy0, hy⟩ | hf)
      · have := hno y hy
        omega
      · exact hf
  | recycle stream cell generation =>
    refine ⟨h.recycle, rfl, { b with affected := fun s => b.affected s ||
      (decide (s < st.cfg.nSeqMax) && ((st.seqs s).recycle st.cfg s stream cell generation).2) },
      ?_, rfl, fun s hs => ?_⟩
    · simp only [Op.apply, recycle, hb, Option.map_some]
    have hr := recycle_erases (h.seq s hs) stream cell generation
    have hf : ((st.recycle stream cell generation).seqs s).entries =
        ((st.seqs s).recycle st.cfg s stream cell generation).1.entries :=
      by simp only [recycle, mapSeqs_seqs st hs]
    simp only [Op.Affects, Op.Frees, Op.Assigns, hf, ← hr, hs, decide_true, Bool.true_and,
      Bool.or_eq_true, exists_false, and_false, false_or]
  | seqRm seqId p0 p1 =>
    refine ⟨(h.seqRm seqId p0 p1).2, ?_, b, ?_, Extends.of_not fun s hs => ?_⟩
    · simp only [Op.apply, seqRm]
      split <;> rfl
    · simp only [Op.apply, seqRm]
      split <;> exact hb
    · simp [Op.Affects, Op.Frees, Op.Assigns]
  | markDegraded seqId flags =>
    refine ⟨h.markDegraded, ?_, b, ?_, Extends.of_not fun s hs => ?_⟩
    · simp only [Op.apply, markDegraded]
      split
      · rfl
      · split
        · split <;> rfl
        · rfl
    · simp only [Op.apply, markDegraded]
      split
      · exact hb
      · split
        · split <;> exact hb
        · exact hb
    · simp [Op.Affects, Op.Frees, Op.Assigns]
  | _ => exact hop.elim

/-- A whole batch. -/
theorem run_extends {ops : List Op} (hops : ∀ op ∈ ops, op.InBatch) :
    ∀ {st : TailStore} {b : TailBatch}, st.Inv → st.cfg.compactStorage = true →
      st.batchTransaction = some b →
      (runOps ops st).Inv ∧ (runOps ops st).cfg = st.cfg ∧
      (∃ b', (runOps ops st).batchTransaction = some b' ∧
        Extends st b (fun s => SomeCall (Op.Affects s) ops st) b') ∧
      ∀ x, SomeCall (fun st op => op.HasRow ∧ ∃ s, op.Assigns st s x) ops st →
        ∃ s, s < st.cfg.nSeqMax ∧ InArena st.cfg s x ∧ SomeCall (Op.Affects s) ops st := by
  induction ops with
  | nil =>
    intro st b h hc hb
    exact ⟨h, rfl, ⟨b, hb, Extends.of_not fun s _ hx => hx⟩, fun x hx => hx.elim⟩
  | cons op ops ih =>
    intro st b h hc hb
    obtain ⟨h1, hcfg, b1, hb1, he1⟩ := apply_extends h hc hb (hops op (by simp))
    obtain ⟨h2, hcfg2, ⟨b2, hb2, he2⟩, hx2⟩ :=
      ih (fun o ho => hops o (by simp [ho])) h1 (by rw [hcfg]; exact hc) hb1
    rw [hcfg] at hcfg2 hx2
    refine ⟨h2, hcfg2, ⟨b2, hb2, he2.saved.trans he1.saved, fun s hs => ?_⟩, fun x hx => ?_⟩
    · rw [he2.affected s (by rw [hcfg]; exact hs), he1.affected s hs, or_assoc]
      rfl
    · rcases hx with ⟨hr, s, ha⟩ | hx
      · exact ⟨s, (ha.inArena h hc hb).1, (ha.inArena h hc hb).2, .inl (.inl ⟨hr, x, ha⟩)⟩
      · obtain ⟨s, hs, hin, hsome⟩ := hx2 x hx
        exact ⟨s, hs, hin, .inr hsome⟩

end Transaction

/-! ## Failed batches -/

/-- Sequence `s` of `st'` is as it was in `st`, with an index of its entries. -/
structure Restored (st st' : TailStore) (s : Nat) : Prop where
  state : (st'.seqs s).toSeqState = (st.seqs s).toSeqState
  index : ∀ k i, (st'.seqs s).index k = some i ↔ ∃ n ∈ (st'.seqs s).entries, n.key = k ∧ n.id = i

/-- Sequence `s` of `st'` has lost its entries, and their slots are free. -/
structure Dropped (st st' : TailStore) (s : Nat) : Prop where
  entries : (st'.seqs s).entries = []
  index : ∀ k, (st'.seqs s).index k = none
  used : ∀ l, l < st.cfg.arenaStride → ((st'.seqs s).used l = true ↔
    (st.seqs s).used l = true ∧
      ∀ n ∈ (st.seqs s).entries, n.slot ≠ (s * st.cfg.arenaStride + l : Nat))
  degradation : (st'.seqs s).degradation ≠ 0

section Failed

variable {st st₁ : TailStore}

/-- What `begin_batch` saves. -/
theorem beginBatch_saved (hc : st.cfg.compactStorage = true) (e : st.beginBatch = (st₁, .ok ())) :
    st₁.cfg = st.cfg ∧
      st₁.batchTransaction = some { saved := fun s => (st.seqs s).toSeqState } := by
  unfold beginBatch at e
  split at e
  · cases e
  · cases e
    exact ⟨rfl, rfl⟩

/-- The rollback of a sequence whose payload is intact. -/
theorem rollbackSeq_restored {b : TailBatch} {s : Nat} (payload : Bool) (t : SeqTail)
    (h : EntryInv st.cfg s (st.seqs s)) (hb : b.saved s = (st.seqs s).toSeqState)
    (hp : ¬ (payload = true ∧ b.affected s = true)) :
    (rollbackSeq st.cfg b payload s (t.load (b.saved s))).1.toSeqState =
        (st.seqs s).toSeqState ∧
      Indexed (rollbackSeq st.cfg b payload s (t.load (b.saved s))).1 := by
  have hl : ListInv st.cfg s (t.load (b.saved s)).entries := by rw [hb]; exact h.toListInv
  have hs : Sorted (t.load (b.saved s)).entries := by rw [hb]; exact h.sorted
  refine ⟨?_, (rollbackSeq_spec hl hs).2.1.index⟩
  rw [(rollbackSeq_spec hl hs).2.2, if_neg hp]
  exact hb

/-- The rollback of a sequence whose payload may be modified. -/
theorem rollbackSeq_dropped {b : TailBatch} {s : Nat} (t : SeqTail)
    (h : EntryInv st.cfg s (st.seqs s)) (hb : b.saved s = (st.seqs s).toSeqState)
    (ha : b.affected s = true) :
    (rollbackSeq st.cfg b true s (t.load (b.saved s))).1.entries = [] ∧
      (∀ l, (rollbackSeq st.cfg b true s (t.load (b.saved s))).1.used l = true ↔
        (st.seqs s).used l = true ∧ ∀ n ∈ (st.seqs s).entries, n.slot ≠ slotOf st.cfg s l) ∧
      (rollbackSeq st.cfg b true s (t.load (b.saved s))).1.degradation ≠ 0 ∧
      (rollbackSeq st.cfg b true s (t.load (b.saved s))).1.index = fun _ => none := by
  have hl : ListInv st.cfg s (t.load (b.saved s)).entries := by rw [hb]; exact h.toListInv
  have hs : Sorted (t.load (b.saved s)).entries := by rw [hb]; exact h.sorted
  rw [(rollbackSeq_spec hl hs).2.2, if_pos ⟨rfl, ha⟩]
  refine ⟨rfl, fun l => ?_, ?_, rfl⟩
  · refine (releaseAll_used (arena_map hl) l).trans ?_
    show (b.saved s).used l = true ∧ slotOf st.cfg s l ∉ (b.saved s).entries.map (·.slot) ↔ _
    rw [hb]
    simp only [List.mem_map, not_exists, not_and]
  · have hd : ∀ f : Nat, f ||| LLAMA_KV_TAIL_DEGRADED_PAYLOAD_INVALID ≠ 0 := fun f hf =>
      absurd (Nat.or_eq_zero_iff.mp hf).2 (by decide)
    exact hd _

/-- What a failed batch leaves in each sequence. -/
theorem finishBatch_failed (h : st₁.Inv) (hcfg : st₁.cfg = st.cfg)
    (hc : st.cfg.compactStorage = true) {b : TailBatch} (hb : st₁.batchTransaction = some b)
    (payload : Bool) :
    ∃ st₂, st₁.finishBatch false payload = (st₂, .ok ()) ∧ ∀ s, s < st.cfg.nSeqMax →
      st₂.seqs s = (rollbackSeq st.cfg b payload s ((st₁.seqs s).load (b.saved s))).1 := by
  refine ⟨_, finishBatch_rollback h (by rw [hcfg]; exact hc) hb, fun s hs => ?_⟩
  rw [← hcfg] at hs ⊢
  exact if_pos hs

/-- Compact batches are atomic. Without a modified payload every sequence comes back. With one,
the sequences that the batch did not affect come back and the others are dropped, so that no entry
is on a slot that a row of the batch was assigned to. -/
theorem batch_atomic (hr : sys.Reach (fun _ _ => True) st) (hc : st.cfg.compactStorage = true)
    (e : st.beginBatch = (st₁, .ok ())) (ops : List Op) (hops : ∀ op ∈ ops, op.InBatch) :
    (∃ st₂, (runOps ops st₁).finishBatch false false = (st₂, .ok ()) ∧
      ∀ s, s < st.cfg.nSeqMax → Restored st st₂ s) ∧
    ∃ st₂, (runOps ops st₁).finishBatch false true = (st₂, .ok ()) ∧
      (∀ s, s < st.cfg.nSeqMax → ¬ SomeCall (Op.Affects s) ops st₁ → Restored st st₂ s) ∧
      (∀ s, s < st.cfg.nSeqMax → SomeCall (Op.Affects s) ops st₁ → Dropped st st₂ s) ∧
      ∀ x, SomeCall (fun st op => op.HasRow ∧ ∃ s, op.Assigns st s x) ops st₁ →
        ∀ s, s < st.cfg.nSeqMax → ∀ n ∈ (st₂.seqs s).entries, n.slot ≠ x := by
  have h := hr.inv (inv_inductive _)
  obtain ⟨hcfg, hb⟩ := beginBatch_saved hc e
  obtain ⟨h2, hcfg2, ⟨b, hb2, hex⟩, hassign⟩ :=
    run_extends hops (h.beginBatch e) (by rw [hcfg]; exact hc) hb
  rw [hcfg] at hcfg2 hassign
  have hsaved : ∀ s, b.saved s = (st.seqs s).toSeqState := fun s => congrFun hex.saved s
  have haff : ∀ s, s < st.cfg.nSeqMax →
      (b.affected s = true ↔ SomeCall (Op.Affects s) ops st₁) := fun s hs => by
    simpa using hex.affected s (by rw [hcfg]; exact hs)
  constructor
  · obtain ⟨st₂, e2, hseq⟩ := finishBatch_failed h2 hcfg2 hc hb2 false
    refine ⟨st₂, e2, fun s hs => ?_⟩
    have hback := rollbackSeq_restored false ((runOps ops st₁).seqs s) (h.seq s hs) (hsaved s)
      (by simp)
    rw [← hseq s hs] at hback
    exact ⟨hback.1, hback.2⟩
  · obtain ⟨st₂, e2, hseq⟩ := finishBatch_failed h2 hcfg2 hc hb2 true
    have hdrop : ∀ s, s < st.cfg.nSeqMax → SomeCall (Op.Affects s) ops st₁ →
        Dropped st st₂ s := fun s hs ha => by
      obtain ⟨he, hu, hd, hi⟩ := rollbackSeq_dropped ((runOps ops st₁).seqs s) (h.seq s hs)
        (hsaved s) ((haff s hs).mpr ha)
      rw [← hseq s hs] at he hu hd hi
      exact ⟨he, fun k => congrFun hi k, fun l _ => hu l, hd⟩
    have hkeep : ∀ s, s < st.cfg.nSeqMax → ¬ SomeCall (Op.Affects s) ops st₁ →
        Restored st st₂ s := fun s hs ha => by
      have hback := rollbackSeq_restored true ((runOps ops st₁).seqs s) (h.seq s hs) (hsaved s)
        fun hp => ha ((haff s hs).mp hp.2)
      rw [← hseq s hs] at hback
      exact ⟨hback.1, hback.2⟩
    refine ⟨st₂, e2, hkeep, hdrop, fun x hx s hs n hn hnx => ?_⟩
    obtain ⟨r, hrlt, hin, hsome⟩ := hassign x hx
    by_cases ha : SomeCall (Op.Affects s) ops st₁
    · rw [(hdrop s hs ha).entries] at hn
      exact List.not_mem_nil hn
    · -- The entry came back, so its slot is in the arena of another sequence.
      rw [(hkeep s hs ha).state] at hn
      have hin' := (h.seq s hs).arena n hn
      rw [hnx] at hin'
      exact ha (InArena.eq hin hin' ▸ hsome)

end Failed

/-! ## Runs -/

/-- A compact store with two sequences of two slots each. -/
def compactTwo : TailStore := { cfg := ⟨2, 0, 2, 2, 4, true, 2⟩ }

theorem compactTwo_init : sys.init compactTwo := .inr ⟨2, 0, 2, 2, 0, rfl⟩

/-- One entry for sequence `0`. -/
def oneEntry : TailStore := runOps [.commit 0 ⟨0, 0, 1⟩ 0 0 UINT32_MAX] compactTwo

theorem oneEntry_reach : sys.Reach (fun _ _ => True) oneEntry :=
  reach_runOps (.init compactTwo_init) ⟨rfl, rfl, trivial, trivial⟩

/-- A batch that commits row `0` for sequence `0` and fails. -/
theorem batch_atomic_commit :
    ∃ st₂, (runOps [.commit 0 ⟨0, 1, 1⟩ 1 1 0] oneEntry.beginBatch.1).finishBatch false true =
        (st₂, .ok ()) ∧ Restored oneEntry st₂ 1 ∧ Dropped oneEntry st₂ 0 := by
  obtain ⟨-, st₂, e, hkeep, hdrop, -⟩ := batch_atomic oneEntry_reach rfl
    (Prod.ext rfl rfl : oneEntry.beginBatch = (oneEntry.beginBatch.1, .ok ()))
    [.commit 0 ⟨0, 1, 1⟩ 1 1 0] (by simp [Op.InBatch])
  refine ⟨st₂, e, hkeep 1 (by decide) ?_, hdrop 0 (by decide) ?_⟩
  · rintro ((⟨-, x, h, -⟩ | h) | h)
    · exact absurd h (by decide)
    · exact h
    · exact h
  · exact .inl (.inl ⟨show 0 ≠ UINT32_MAX by decide, 1, rfl, by decide, rfl⟩)

/-- A copy of sequence `0` to sequence `1` is pending. -/
def copyPending : TailStore := runOps [.prepareSeqCp 0 1 0 0 0 1] oneEntry

theorem copyPending_reach : sys.Reach (fun _ _ => True) copyPending :=
  reach_runOps oneEntry_reach ⟨rfl, rfl, trivial, trivial⟩

/-- Two sequences with an assigned slot that a failed batch leaves otherwise: one whose `commit`
names no row of the batch keeps its entries, and one to which a copy is pending keeps a slot. -/
theorem batch_not_atomic :
    (¬ ∀ (st st₁ st₂ : TailStore) (ops : List Op), sys.Reach (fun _ _ => True) st →
      st.cfg.compactStorage = true → st.beginBatch = (st₁, .ok ()) →
      (∀ op ∈ ops, op.InBatch) → (runOps ops st₁).finishBatch false true = (st₂, .ok ()) →
      ∀ s, s < st.cfg.nSeqMax →
        SomeCall (fun st op => (∃ x, op.Assigns st s x) ∨ op.Frees st s) ops st₁ →
        (st₂.seqs s).entries = []) ∧
    ¬ ∀ (st st₁ st₂ : TailStore) (ops : List Op), sys.Reach (fun _ _ => True) st →
      st.cfg.compactStorage = true → st.beginBatch = (st₁, .ok ()) →
      (∀ op ∈ ops, op.InBatch) → (runOps ops st₁).finishBatch false true = (st₂, .ok ()) →
      ∀ s, s < st.cfg.nSeqMax → SomeCall (Op.Affects s) ops st₁ →
        ∀ l, l < st.cfg.arenaStride → (st₂.seqs s).used l = false := by
  constructor
  · intro h
    have := h oneEntry _ _ [.commit 0 ⟨0, 1, 1⟩ 1 1 UINT32_MAX] oneEntry_reach rfl
      (Prod.ext rfl rfl) (by simp [Op.InBatch]) (Prod.ext rfl rfl) 0 (by decide)
      (.inl (.inl ⟨1, rfl, by decide, rfl⟩))
    exact absurd this (by decide)
  · intro h
    have := h copyPending _ _ [.commit 1 ⟨0, 1, 1⟩ 5 1 0] copyPending_reach rfl
      (Prod.ext rfl rfl) (by simp [Op.InBatch]) (Prod.ext rfl rfl) 1 (by decide)
      (.inl (.inl ⟨show 0 ≠ UINT32_MAX by decide, 3, rfl, by decide, rfl⟩)) 0 (by decide)
    exact absurd this (by decide)

end BeeLlama.TailStore
