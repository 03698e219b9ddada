import BeeLlama.Kv.TailNewest
import BeeLlama.Kv.TailProvenance

/-!
# Degradation and refill

`mark_degraded` sets a flag of a sequence, and `commit` counts the rows that come after it: at
`n_tokens` of them the flag is cleared. The flag should come back to zero only when the newest
`n_tokens` rows were all committed after the mark.

`Mark` remembers which rows were. The counter is right as long as no call takes rows off that it
has counted (`Op.Refills`): a removal does not count down, nor does the recycling of a cell, and a
row that is not after the older ones is counted, too.
-/

namespace BeeLlama

open List Option TailStore SeqTail

namespace SeqTail

variable {cfg : TailCfg} {s : Nat} {t t' : SeqTail} {inBatch : Bool} {identity : TailIdentity}
  {position : Int} {ordinal : Nat} {fresh : List TailIdentity}

/-- So many rows the store takes for refilled: the counter, or all if there is no flag. -/
def refills (cfg : TailCfg) (t : SeqState) : Nat :=
  if t.degradation = 0 then cfg.nTokens else t.recovery

/-- The newest rows, as many as the store takes for refilled, are `fresh`. -/
def Refilled (cfg : TailCfg) (fresh : List TailIdentity) (t : SeqState) (ns : List TailNode) :
    Prop :=
  ∀ n ∈ newest (refills cfg t) ns, n.identity ∈ fresh

instance (cfg : TailCfg) (fresh : List TailIdentity) (t : SeqState) (ns : List TailNode) :
    Decidable (Refilled cfg fresh t ns) :=
  inferInstanceAs (Decidable (∀ n ∈ _, _))

/-- The entries of the other cells. -/
def others (identity : TailIdentity) (ns : List TailNode) : List TailNode :=
  ns.filter fun n => decide (n.key ≠ identity.key)

/-! ## What a commit does to the list -/

theorem others_of_split (h : EntryInv cfg s t) {pre suf : List TailNode} {n : TailNode}
    (he : t.entries = pre ++ n :: suf) : others n.identity t.entries = pre ++ suf := by
  have hk := h.keys
  rw [he, map_append, map_cons] at hk
  obtain ⟨-, hsuf, hpre⟩ := nodup_append.mp hk
  have hp : pre.filter (fun m => decide (m.key ≠ n.identity.key)) = pre :=
    filter_eq_self.mpr fun m hm => decide_eq_true
      (hpre _ (mem_map_of_mem hm) _ mem_cons_self)
  have hs : suf.filter (fun m => decide (m.key ≠ n.identity.key)) = suf :=
    filter_eq_self.mpr fun m hm => decide_eq_true fun hmn =>
      (nodup_cons.mp hsuf).1 (mem_map.mpr ⟨m, hm, hmn⟩)
  rw [others, he, filter_append, filter_cons_of_neg (by simp [TailEntry.key]), hp, hs]

/-- The entry of the cell gets its new place. -/
theorem commitSame_entries (h : EntryInv cfg s t) {n : TailNode} (hn : n ∈ t.entries)
    (position : Int) (ordinal : Nat) :
    ∃ pre suf pre' suf' m, m.toTailEntry.row = ⟨n.identity, position, ordinal⟩ ∧
      (pre ++ m :: suf).Pairwise (fun a b => a.toTailEntry.Le b.toTailEntry) ∧
      t.entries = pre' ++ n :: suf' ∧ pre' ++ suf' = pre ++ suf ∧
      (t.commitSame cfg s n position ordinal).entries = newest cfg.limit (pre ++ m :: suf) := by
  obtain ⟨pre', suf', he⟩ := append_of_mem hn
  obtain ⟨f, hf⟩ : ∃ f : TailNode → TailNode, f = fun m =>
    if m.id = n.id then { m with position := position, ordinal := ordinal } else m := ⟨_, rfl⟩
  have hother : ∀ m ∈ pre' ++ suf', f m = m := fun m hm => by
    rw [hf]
    refine if_neg fun hid => ?_
    have hnd := h.ids
    rw [he] at hnd
    have hp : (pre' ++ n :: suf').Perm (n :: (pre' ++ suf')) := perm_middle
    exact (nodup_cons.mp ((hp.map _).nodup_iff.mp hnd)).1 (mem_map.mpr ⟨m, hm, hid⟩)
  have hpre : pre'.map f = pre' :=
    (map_congr_left fun m hm => hother m (mem_append_left _ hm)).trans (map_id _)
  have hsuf : suf'.map f = suf' :=
    (map_congr_left fun m hm => hother m (mem_append_right _ hm)).trans (map_id _)
  have hmap : t.entries.map f = pre' ++ f n :: suf' := by
    rw [he, map_append, map_cons, hpre, hsuf]
  have hsub : (pre' ++ suf').Sublist (t.entries.map f) := by
    rw [hmap]
    exact (sublist_cons_self _ _).append_left _
  have hs : Sorted (pre' ++ suf') := h.sorted.sublist (by
    rw [he]
    exact (sublist_cons_self _ _).append_left _)
  obtain ⟨pre, suf, hbase, hsort⟩ := exists_place (sublist_insertionSort hs hsub)
    ((TailNode.perm_sort (t.entries.map f)).trans (hmap ▸ perm_middle))
  refine ⟨pre, suf, pre', suf', f n, ?_, hsort ▸ Sorted.sort _, he, hbase, ?_⟩
  · simp [hf, TailEntry.row]
  · rw [commitSame, trim_entries, newest, ← hsort, hf]
    rfl

/-- A commit of a cell that the sequence has, or of a new one after an entry of another generation
was erased. -/
theorem commit_forms (h : EntryInv cfg s t) (inBatch : Bool) (identity : TailIdentity)
    (position : Int) (ordinal : Nat) :
    (∃ n ∈ t.entries, n.identity = identity ∧ t.commit cfg s inBatch identity position ordinal =
      (t.commitSame cfg s n position ordinal, .ok ())) ∨
    ((∀ n ∈ t.entries, n.identity ≠ identity) ∧ ∃ u, EntryInv cfg s u ∧
      u.entries = others identity t.entries ∧ TailStore.prov u = TailStore.prov t ∧
      t.commit cfg s inBatch identity position ordinal =
        u.commitNew cfg s inBatch identity position ordinal) := by
  unfold commit
  cases hf : t.find identity.key with
  | none =>
    have hk : ∀ n ∈ t.entries, n.key ≠ identity.key := fun n hn hk =>
      (find_eq_none h).mp hf (mem_map.mpr ⟨n, hn, hk⟩)
    refine .inr ⟨fun n hn hid => hk n hn (congrArg TailIdentity.key hid), t, h, ?_, rfl, rfl⟩
    exact (filter_eq_self.mpr fun n hn => decide_eq_true (hk n hn)).symm
  | some d =>
    obtain ⟨hd, hk⟩ := (find_eq_some h).mp hf
    dsimp only
    split
    · next hid => exact .inl ⟨d, hd, hid, rfl⟩
    · next hid =>
      refine .inr ⟨fun n hn hni => hid ?_, _, entryInv_eraseEntry h hd true, ?_,
        eraseEntry_prov d true t, rfl⟩
      · rw [← h.eq_of_key hn hd ((congrArg TailIdentity.key hni).trans hk.symm), hni]
      rw [eraseEntry_entries]
      refine filter_congr fun n hn => ?_
      refine decide_eq_decide.mpr (not_congr ⟨fun hid => ?_, fun hnk => ?_⟩)
      · rw [h.eq_of_id hn hd hid, hk]
      · rw [h.eq_of_key hn hd (hnk.trans hk.symm)]

/-! ## The counter is right -/

theorem refills_congr (e : TailStore.prov t' = TailStore.prov t) :
    refills cfg t'.toSeqState = refills cfg t.toSeqState := by
  obtain ⟨hd, hr⟩ := Prod.mk.inj e
  rw [refills, refills, hd, hr]

/-- A row counts as one. -/
theorem commitNew_refills (e : t.commitNew cfg s inBatch identity position ordinal = (t', .ok ())) :
    refills cfg t'.toSeqState ≤ refills cfg t.toSeqState + 1 := by
  have hrec : ∀ u : SeqTail,
      refills cfg (recover cfg u).toSeqState ≤ refills cfg u.toSeqState + 1 := by
    intro u
    unfold recover
    split
    · exact Nat.le_succ _
    · next hd =>
      rw [refills, refills, if_neg hd]
      split
      · next hn => simpa using hn
      · simp
  unfold commitNew at e
  split at e
  · cases e
  · next t1 slot ht =>
    have hp : prov t1 = prov t := by
      rw [← takeSlot_prov cfg s inBatch t, ht]
    have hle := hrec (t1.addEntry ⟨identity, position, ordinal, slot⟩)
    have hadd : refills cfg (t1.addEntry ⟨identity, position, ordinal, slot⟩).toSeqState =
        refills cfg t.toSeqState := refills_congr hp
    cases e
    split
    · omega
    · rw [refills_congr (trim_prov cfg.limit _)]
      omega

/-- The rows that are not `fresh` are before the new one. -/
def Follows (fresh : List TailIdentity) (position : Int) (ordinal : Nat) (ns : List TailNode) :
    Prop :=
  ∀ n ∈ ns, n.identity ∉ fresh →
    n.position < position ∨ (n.position = position ∧ n.ordinal < ordinal)

instance (fresh : List TailIdentity) (position : Int) (ordinal : Nat) (ns : List TailNode) :
    Decidable (Follows fresh position ordinal ns) :=
  inferInstanceAs (Decidable (∀ n ∈ ns, _))

/-- One more is fresh after a new row. -/
theorem newest_insert_fresh {k : Nat} {pre suf : List TailNode} {m : TailNode}
    (hrow : m.toTailEntry.row = ⟨identity, position, ordinal⟩)
    (hs : (pre ++ m :: suf).Pairwise fun a b => a.toTailEntry.Le b.toTailEntry)
    (hf : Follows fresh position ordinal (pre ++ suf))
    (h : ∀ n ∈ newest k (pre ++ suf), n.identity ∈ fresh) :
    ∀ n ∈ newest (k + 1) (pre ++ m :: suf), n.identity ∈ identity :: fresh := by
  obtain ⟨rfl, rfl, rfl⟩ : m.identity = identity ∧ m.position = position ∧ m.ordinal = ordinal := by
    simpa [TailEntry.row] using hrow
  have hms := (pairwise_cons.mp (pairwise_append.mp hs).2.1).1
  refine newest_insert_all mem_cons_self (fun n hn => ?_)
    fun n hn => mem_cons_of_mem _ (h n hn)
  -- an older row would be before the new one
  refine mem_cons_of_mem _ (by_contra fun hnf => hms n hn ?_)
  exact hf n (mem_append_right _ hn) hnf

/-- A row of the sequence is committed. -/
theorem Refilled.commit (h : EntryInv cfg s t) (hr : Refilled cfg fresh t.toSeqState t.entries)
    (hf : Follows fresh position ordinal (others identity t.entries))
    (hg : (∀ n ∈ t.entries, n.identity ≠ identity) →
      Refilled cfg fresh t.toSeqState (others identity t.entries))
    (e : t.commit cfg s inBatch identity position ordinal = (t', .ok ())) :
    Refilled cfg (identity :: fresh) t'.toSeqState t'.entries := by
  rcases commit_forms h inBatch identity position ordinal with
    ⟨d, hd, hid, ec⟩ | ⟨hne, u, hu, hue, hup, ec⟩
  · rw [ec] at e
    cases e
    obtain ⟨pre, suf, pre', suf', m, hm, hs, hold, hbase, hnew⟩ :=
      commitSame_entries h hd position ordinal
    have hprov : refills cfg (t.commitSame cfg s d position ordinal).toSeqState =
        refills cfg t.toSeqState := refills_congr (trim_prov cfg.limit _)
    have hoth := others_of_split h hold
    rw [hid] at hm hoth
    rw [hoth, hbase] at hf
    intro n hn
    rw [hprov, hnew] at hn
    have hn := mem_of_mem_newest_drop le_rfl hn
    cases hk : refills cfg t.toSeqState with
    | zero => simp [hk, newest] at hn
    | succ k =>
      rw [hk] at hn
      refine newest_insert_fresh hm hs hf (fun a ha => ?_) n hn
      refine hr a ?_
      rw [hk, hold]
      exact mem_newest_insert (hbase ▸ ha)
  · rw [ec] at e
    obtain ⟨pre, suf, m, hm, hs, hold, hnew⟩ := commitNew_entries hu e
    have hk := commitNew_refills e
    rw [refills_congr hup] at hk
    have hr' := hg hne
    rw [← hue] at hf hr'
    -- the insertion is into the list, or into what the eviction of its first entry leaves
    obtain ⟨j, hj⟩ : ∃ j, pre ++ suf = u.entries.drop j := by
      rcases hold with ⟨-, v, hv⟩ | ⟨-, hv⟩
      · exact ⟨1, by rw [hv]; rfl⟩
      · exact ⟨0, hv.symm⟩
    have hall : ∀ n ∈ newest (refills cfg t.toSeqState + 1) (pre ++ m :: suf),
        n.identity ∈ identity :: fresh := by
      refine newest_insert_fresh hm hs (fun n hn => ?_) fun n hn => ?_
      · exact hf n (mem_of_mem_drop (hj ▸ hn))
      · exact hr' n (mem_of_mem_newest_drop le_rfl (hj ▸ hn))
    intro n hn
    rw [hnew] at hn
    refine hall n ?_
    cases inBatch with
    | true => exact mem_of_mem_newest_drop (m := 0) hk hn
    | false => exact mem_of_mem_newest_drop hk hn

/-- A commit that throws leaves the rows, or those that the erased entry leaves. -/
theorem refilled_commit_error (h : EntryInv cfg s t)
    (hg : (∀ n ∈ t.entries, n.identity ≠ identity) →
      Refilled cfg fresh t.toSeqState (others identity t.entries)) {er : TailError}
    (e : t.commit cfg s inBatch identity position ordinal = (t', .error er)) :
    Refilled cfg fresh t'.toSeqState t'.entries := by
  rcases commit_forms h inBatch identity position ordinal with
    ⟨d, hd, hid, ec⟩ | ⟨hne, u, hu, hue, hup, ec⟩
  · rw [ec] at e
    cases e
  · rw [ec] at e
    obtain rfl := commitNew_error e
    rw [hue, Refilled, refills_congr hup]
    exact hg hne

theorem seqRm_prov {p0 p1 : Int} (hn : (t.seqRm cfg s p0 p1).1.entries ≠ []) :
    TailStore.prov (t.seqRm cfg s p0 p1).1 = TailStore.prov t := by
  obtain ⟨u, r, hu⟩ : ∃ u r,
      (t.eraseWhere cfg s fun n => decide (n.toTailEntry.InRange p0 p1)).rebuildIndex = (u, r) :=
    ⟨_, _, rfl⟩
  have hp : prov u = prov t := by
    have hr := rebuildIndex_prov (t.eraseWhere cfg s fun n => decide (n.toTailEntry.InRange p0 p1))
    rw [hu] at hr
    exact hr.trans (eraseWhere_prov _ t)
  unfold seqRm at hn ⊢
  rw [hu] at hn ⊢
  cases r with
  | error er => exact hp
  | ok a =>
    dsimp only at hn ⊢
    split at hn
    · next he => exact absurd he.1 hn
    · next he => rw [if_neg he, hp]

/-- A removal that takes nothing off that was counted. -/
theorem refilled_seqRm (h : EntryInv cfg s t) {p0 p1 : Int} (hg : Refilled cfg fresh t.toSeqState
      (t.entries.filter fun n => !decide (n.toTailEntry.InRange p0 p1))) :
    Refilled cfg fresh (t.seqRm cfg s p0 p1).1.toSeqState (t.seqRm cfg s p0 p1).1.entries := by
  obtain ⟨-, -, he⟩ := seqRm_spec h p0 p1
  by_cases hn : (t.seqRm cfg s p0 p1).1.entries = []
  · rw [hn]
    exact fun n hn => absurd hn (by simp [newest])
  · rw [Refilled, refills_congr (seqRm_prov hn), he]
    exact hg

end SeqTail

namespace TailStore

open SeqTail

/-! ## Coverage -/

/-- `llama_kv_tail_coverage_state`. -/
inductive TailCoverageState where
  | coverageNone
  | coveragePartial
  | coverageComplete
  deriving DecidableEq, Repr

/-- `llama_kv_tail_coverage`. -/
structure TailCoverage where
  state : TailCoverageState
  requested : Nat
  exact : Nat
  degradationFlags : Nat
  deriving DecidableEq, Repr

/-- `coverage`. -/
def coverage (st : TailStore) (seqId : Int) (available : Nat) : TailCoverage :=
  let pendingDestination := st.pendingSeqCp.filter fun p => decide ((p.dst : Int) = seqId)
  let exact := if !st.validSeq seqId then 0 else
    match pendingDestination with
    | some p => p.destination.length
    | none => (st.seqs seqId.toNat).entries.length
  let requested := min st.cfg.nTokens available
  let flags := if !st.validSeq seqId then 0 else
    match pendingDestination with
    | some p => p.degradationFlags
    | none => (st.seqs seqId.toNat).degradation
  let state := if exact = 0 then .coverageNone
    else if exact ≥ requested ∧ flags = 0 then .coverageComplete else .coveragePartial
  ⟨state, requested, min exact requested, flags⟩

/-- What came after the mark: the identities that were committed to the sequence, and what they
were when the present transaction began. -/
structure Mark where
  fresh : List TailIdentity := []
  saved : Option (List TailIdentity) := none

/-- What a call adds. A rollback takes back what its batch has added. -/
def Mark.step (s : Nat) (st : TailStore) (g : Mark) : Op → Mark
  | .commit seqId identity position ordinal _ =>
    if seqId = s ∧ st.cfg.nTokens ≠ 0 ∧
        ((st.seqs s).commit st.cfg s st.inBatch identity position ordinal).2.isOk then
      { g with fresh := identity :: g.fresh }
    else g
  | .beginBatch =>
    if st.cfg.compactStorage && st.batchTransaction.isNone then { g with saved := some g.fresh }
    else g
  | .finishBatch success _ =>
    if st.batchTransaction.isNone then g
    else { fresh := if success then g.fresh else g.saved.getD g.fresh }
  | _ => g

/-- The calls of these runs. -/
def Op.Advances : Op → Prop
  | .beginBatch => True
  | .commit .. => True
  | .finishBatch .. => True
  | .seqRm .. => True
  | _ => False

/-- The call takes no row off that the counter has, and no row from before the mark comes after the
new one. -/
def Op.Refills (s : Nat) (st : TailStore) (g : Mark) : Op → Prop
  | .commit seqId identity position ordinal _ => seqId = s →
    Follows g.fresh position ordinal (others identity (st.seqs s).entries) ∧
    ((∀ n ∈ (st.seqs s).entries, n.identity ≠ identity) →
      Refilled st.cfg g.fresh (st.seqs s).toSeqState (others identity (st.seqs s).entries))
  | .seqRm seqId p0 p1 => seqId = s →
    Refilled st.cfg g.fresh (st.seqs s).toSeqState
      ((st.seqs s).entries.filter fun n => !decide (n.toTailEntry.InRange p0 p1))
  | .finishBatch success _ =>
    success = false → st.batchTransaction.isSome = true → g.saved.isSome = true
  | _ => True

/-- The rows that the store takes for refilled were committed after the mark, those of the saved
state, too. -/
structure RefillInv (s : Nat) (p : TailStore × Mark) : Prop where
  inv : p.1.Inv
  seq : s < p.1.cfg.nSeqMax
  pending : ∀ q ∈ p.1.pendingSeqCp, q.dst ≠ s
  now : Refilled p.1.cfg p.2.fresh (p.1.seqs s).toSeqState (p.1.seqs s).entries
  saved : ∀ b ∈ p.1.batchTransaction, ∀ f ∈ p.2.saved,
    Refilled p.1.cfg f (b.saved s) (b.saved s).entries

section Step

variable {s : Nat} {st : TailStore} {g : Mark}

theorem RefillInv.commit (h : RefillInv s (st, g)) {seqId position : Int} {identity : TailIdentity}
    {ordinal row : Nat} (hg : (Op.commit seqId identity position ordinal row).Refills s st g) :
    RefillInv s ((st.commit seqId identity position ordinal row).1,
      g.step s st (.commit seqId identity position ordinal row)) := by
  obtain ⟨hpend, hsaved⟩ := commit_saved st seqId identity position ordinal row
  have hcfg : (st.commit seqId identity position ordinal row).1.cfg = st.cfg := commit_cfg ..
  have hmark : (g.step s st (.commit seqId identity position ordinal row)).saved = g.saved := by
    simp only [Mark.step]
    split <;> rfl
  refine ⟨h.inv.commit .., ?_, ?_, ?_, ?_⟩
  · rw [hcfg]
    exact h.seq
  · rw [hpend]
    exact h.pending
  · rw [hcfg, commit_seqs h.seq]
    by_cases hs : seqId = s ∧ st.cfg.nTokens ≠ 0
    · obtain ⟨hf, hr⟩ := hg hs.1
      rw [if_pos hs]
      obtain ⟨t, r, e⟩ : ∃ t r, (st.seqs s).commit st.cfg s st.inBatch identity position ordinal =
        (t, r) := ⟨_, _, rfl⟩
      have hok := h.inv.seq s h.seq
      simp only [Mark.step, e]
      cases r with
      | error er =>
        rw [if_neg fun hc => Bool.false_ne_true hc.2.2]
        exact refilled_commit_error hok hr e
      | ok a =>
        rw [if_pos ⟨hs.1, hs.2, rfl⟩]
        exact Refilled.commit hok h.now hf hr e
    · rw [if_neg hs]
      have hstep : g.step s st (.commit seqId identity position ordinal row) = g :=
        if_neg fun hc => hs ⟨hc.1, hc.2.1⟩
      rw [hstep]
      exact h.now
  · intro b hb f hf
    obtain ⟨b0, hb0, e⟩ := hsaved b hb
    rw [hcfg, e]
    exact h.saved b0 hb0 f (hmark ▸ hf)

theorem seqRm_seqs (hs : s < st.cfg.nSeqMax) (seqId p0 p1 : Int) : (st.seqRm seqId p0 p1).1.seqs s =
      if seqId = s then ((st.seqs s).seqRm st.cfg s p0 p1).1 else st.seqs s := by
  unfold seqRm
  by_cases hid : seqId = s
  · have hv : st.validSeq seqId = true := validSeq_iff.mpr ⟨by omega, by omega⟩
    rw [if_pos hv, if_pos hid, hid, Int.toNat_natCast]
    exact Function.update_self ..
  · rw [if_neg hid]
    split
    · next hv =>
      have := (validSeq_iff.mp hv).1
      exact Function.update_of_ne (by omega) _ _
    · rfl

theorem seqRm_rest (st : TailStore) (seqId p0 p1 : Int) :
    (st.seqRm seqId p0 p1).1.pendingSeqCp = st.pendingSeqCp ∧
      (st.seqRm seqId p0 p1).1.batchTransaction = st.batchTransaction := by
  unfold seqRm
  split <;> exact ⟨rfl, rfl⟩

theorem RefillInv.seqRm (h : RefillInv s (st, g)) {seqId p0 p1 : Int}
    (hg : (Op.seqRm seqId p0 p1).Refills s st g) :
    RefillInv s ((st.seqRm seqId p0 p1).1, g) := by
  obtain ⟨hpend, hbatch⟩ := seqRm_rest st seqId p0 p1
  refine ⟨(h.inv.seqRm seqId p0 p1).2, ?_, ?_, ?_, ?_⟩
  · rw [seqRm_cfg]
    exact h.seq
  · rw [hpend]
    exact h.pending
  · rw [seqRm_cfg, seqRm_seqs h.seq]
    split
    · next hid => exact refilled_seqRm (h.inv.seq s h.seq) (hg hid)
    · exact h.now
  · rw [seqRm_cfg, hbatch]
    exact h.saved

theorem RefillInv.beginBatch (h : RefillInv s (st, g)) :
    RefillInv s (st.beginBatch.1, g.step s st .beginBatch) := by
  by_cases hp : (st.cfg.compactStorage && st.batchTransaction.isSome) = true
  · -- the transaction is pending already
    have hb : (st.cfg.compactStorage && st.batchTransaction.isNone) = false := by
      obtain ⟨b, hb⟩ := isSome_iff_exists.mp (Bool.and_eq_true _ _ ▸ hp).2
      rw [hb, isNone_some, Bool.and_false]
    have e : st.beginBatch = (st, .error .batchPending) := if_pos hp
    have eg : g.step s st .beginBatch = g := if_neg (by rw [hb]; exact Bool.false_ne_true)
    rw [e, eg]
    exact h
  · have e : st.beginBatch = (_, .ok ()) := if_neg hp
    have hinv := h.inv.beginBatch e
    rw [e]
    have hsame : (Mark.step s st g .beginBatch).fresh = g.fresh := by
      simp only [Mark.step]
      split <;> rfl
    refine ⟨hinv, h.seq, h.pending, ?_, ?_⟩
    · show Refilled st.cfg _
        ((st.mapSeqs fun s t => t.trim st.cfg s st.cfg.limit).seqs s).toSeqState
        ((st.mapSeqs fun s t => t.trim st.cfg s st.cfg.limit).seqs s).entries
      rw [mapSeqs_seqs st h.seq, hsame, Refilled, refills_congr (trim_prov _ _), trim_entries]
      exact fun n hn => h.now n (mem_of_mem_newest_drop le_rfl hn)
    · intro b hb f hf
      cases hc : st.cfg.compactStorage with
      | false =>
        simp only [hc, Bool.false_eq_true, if_false] at hb
        simp only [Mark.step, hc, Bool.false_and, Bool.false_eq_true, if_false] at hf
        exact h.saved b hb f hf
      | true =>
        have hnone : st.batchTransaction.isNone = true := by
          simpa [hc] using hp
        simp only [hc, if_true, mem_def, Option.some.injEq] at hb
        simp only [Mark.step, hc, hnone, Bool.and_self, if_true, mem_def, Option.some.injEq] at hf
        subst hb hf
        exact h.now

theorem RefillInv.finishBatch (h : RefillInv s (st, g)) {success payload : Bool}
    (hg : (Op.finishBatch success payload).Refills s st g) :
    RefillInv s ((st.finishBatch success payload).1,
      g.step s st (.finishBatch success payload)) := by
  cases hb : st.batchTransaction with
  | none =>
    have eg : g.step s st (.finishBatch success payload) = g := if_pos (by rw [hb]; rfl)
    rw [eg]
    cases hc : st.cfg.compactStorage with
    | false =>
      have e : st.finishBatch success payload = ({ st with inBatch := false }, .ok ()) := by
        simp [TailStore.finishBatch, hc]
      have hinv := h.inv.finishBatch e
      rw [e]
      exact ⟨hinv, h.seq, h.pending, h.now, h.saved⟩
    | true =>
      have e : st.finishBatch success payload = (st, .ok ()) := by
        simp [TailStore.finishBatch, hc, hb]
      rw [e]
      exact h
  | some b =>
    have hc : st.cfg.compactStorage = true := (h.inv.batch b hb).compact
    have eg : g.step s st (.finishBatch success payload) =
      { fresh := if success then g.fresh else g.saved.getD g.fresh } :=
      if_neg (by rw [hb]; exact Bool.false_ne_true)
    cases success with
    | true =>
      rw [eg, if_pos rfl]
      have e : st.finishBatch true payload =
          ({ st with batchTransaction := none, inBatch := false }, .ok ()) := by
        simp [TailStore.finishBatch, hc, hb]
      have hinv := h.inv.finishBatch e
      rw [e]
      exact ⟨hinv, h.seq, h.pending, h.now, fun b hb => absurd hb (by simp)⟩
    | false =>
      obtain ⟨f, hf⟩ := isSome_iff_exists.mp (hg rfl (by rw [hb]; rfl))
      have e : st.finishBatch false payload = _ := finishBatch_rollback h.inv hc hb
      have hinv := h.inv.finishBatch e
      rw [e, eg, if_neg Bool.false_ne_true, hf, getD_some]
      refine ⟨hinv, h.seq, h.pending, ?_, fun b hb => absurd hb (by simp)⟩
      have hsaved := h.saved b hb f hf
      have hbi := h.inv.batch b hb
      have hl : ListInv st.cfg s ((st.seqs s).load (b.saved s)).entries := hbi.list s h.seq
      have hseq := mapSeqs_seqs st
        (f := fun s t => (rollbackSeq st.cfg b payload s (t.load (b.saved s))).1) h.seq
      rw [(rollbackSeq_spec hl (hbi.sorted s h.seq)).2.2] at hseq
      show Refilled st.cfg f (toSeqState _) (SeqState.entries (toSeqState _))
      rw [hseq]
      split
      · exact fun n hn => absurd hn (by simp [newest, dropAll, degrade])
      · exact hsaved

/-- The step lemma: a call that takes nothing off that was counted keeps the counter right. -/
theorem RefillInv.apply {p : TailStore × Mark} {op : Op} (h : RefillInv s p) (hop : op.Advances)
    (hg : op.Refills s p.1 p.2) : RefillInv s ((op.apply p.1).1, p.2.step s p.1 op) := by
  cases op with
  | beginBatch => exact h.beginBatch
  | commit seqId identity position ordinal row => exact h.commit hg
  | finishBatch success payload => exact h.finishBatch hg
  | seqRm seqId p0 p1 => exact h.seqRm hg
  | _ => exact absurd hop id

end Step

section Run

variable {s : Nat} {p : TailStore × Mark}

end Run

end TailStore
end BeeLlama
