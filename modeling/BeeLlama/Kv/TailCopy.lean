import BeeLlama.Kv.TailInv

/-!
# Sequence copies keep the entries in order

`prepare_seq_cp` chooses the entries that the destination retains, in order, and gives each copied
one a slot of the destination's arena (`assignSlots_entries`); `commit_seq_cp` installs the list.
Both keep `TailStore.Inv`, whatever happens between them.
-/

namespace BeeLlama.TailStore

open List TailStore SeqTail TailNode

variable {cfg : TailCfg} {d : Nat} {t t' : SeqTail}

/-- The slots of the surviving entries among the candidates. -/
def keptSlots (cs : List Candidate) : List Int :=
  (cs.filter fun c => !c.copied).map fun c => c.entry.slot

/-- An entry without its slot. -/
def strip (e : TailEntry) : TailIdentity × Int × Nat := (e.identity, e.position, e.ordinal)

/-- The loop of `prepare_seq_cp` keeps the list and the index, and the chosen entries get slots of
the arena. -/
theorem assignSlots_entries (cs : List Candidate) :
    ∀ (reusable : List Int) (a : Assigned) (t : SeqTail),
      (∀ x ∈ a.destination.map (·.slot) ++ reusable ++ keptSlots cs, InArena cfg d x) →
      ∀ (t' : SeqTail) (a' : Assigned), assignSlots cfg d cs reusable a t = (t', .ok a') →
      t'.entries = t.entries ∧ t'.index = t.index ∧
      (∀ x ∈ a'.destination.map (·.slot), InArena cfg d x) ∧
      a'.destination.map strip = a.destination.map strip ++ cs.map fun c => strip c.entry := by
  induction cs with
  | nil =>
    intro reusable a t h t' a' e
    unfold assignSlots at e
    obtain ⟨rfl, e⟩ := Prod.mk.inj e
    obtain rfl : a = a' := by simpa using e
    exact ⟨rfl, rfl, fun x hx => h x (by simp [hx]), by simp⟩
  | cons c cs ih =>
    intro reusable a t h t' a' e
    unfold assignSlots at e
    split at e
    · next hc =>
      have hk : keptSlots (c :: cs) = keptSlots cs := by simp [keptSlots, hc]
      rw [hk] at h
      split at e
      · next slot hl =>
        obtain ⟨rest, rfl⟩ := getLast?_eq_some_iff.mp hl
        rw [dropLast_concat] at e
        obtain ⟨h1, h2, h3, h4⟩ := ih rest (a.copy c slot) t (fun x hx => h x (by
          simp only [Assigned.copy, map_append, map_cons, map_nil,
            mem_append, mem_singleton] at hx ⊢
          tauto)) t' a' e
        exact ⟨h1, h2, h3, by rw [h4]; simp [strip, Assigned.copy]⟩
      · rcases acquire_cases cfg d t with ⟨l, hlt, -, hq⟩ | hq
        · rw [hq] at e
          simp only at e
          obtain ⟨h1, h2, h3, h4⟩ := ih reusable { a.copy c (slotOf cfg d l) with
              acquired := a.acquired ++ [slotOf cfg d l] } _ (fun x hx => by
            simp only [Assigned.copy, map_append, map_cons, map_nil,
              mem_append, mem_singleton] at hx
            rcases hx with ((hx | rfl) | hx) | hx
            · exact h x (by simp [hx])
            · exact ⟨l, hlt, rfl⟩
            · exact h x (by simp [hx])
            · exact h x (by simp [hx])) t' a' e
          exact ⟨h1, h2, h3, by rw [h4]; simp [strip, Assigned.copy]⟩
        · rw [hq] at e
          simp only at e
          cases e
    · next hc =>
      have hk : keptSlots (c :: cs) = c.entry.slot :: keptSlots cs := by simp [keptSlots, hc]
      rw [hk] at h
      obtain ⟨h1, h2, h3, h4⟩ := ih reusable
        { a with destination := a.destination ++ [c.entry] } t (fun x hx => h x (by
          simp only [map_append, map_cons, map_nil, mem_append,
            mem_cons, not_mem_nil, or_false] at hx ⊢
          tauto)) t' a' e
      exact ⟨h1, h2, h3, by rw [h4]; simp⟩

/-! ## The candidates -/

/-- The surviving entries are entries of the destination. -/
theorem keptSlots_candidates (src dst : List TailNode) (srcStream dstStream : Nat) (p0 p1 : Int) :
    (keptSlots (candidates src dst srcStream dstStream p0 p1)).Perm
      ((dst.filter fun n => decide (¬ n.toTailEntry.InRange p0 p1)).map (·.slot)) := by
  unfold keptSlots candidates
  refine ((((perm_insertionSort _ _).filter _).map _).trans (List.Perm.of_eq ?_))
  rw [filter_append, filter_map, filter_map]
  have h1 : ∀ l : List TailNode, l.filter ((fun c : Candidate => !c.copied) ∘ fun n =>
      (⟨n.toTailEntry, n.slot, false⟩ : Candidate)) = l := fun l => by
    rw [filter_eq_self]; simp
  have h2 : ∀ l : List TailNode, l.filter ((fun c : Candidate => !c.copied) ∘ fun n =>
      (⟨{ n.toTailEntry with
        identity := { n.identity with stream := dstStream }
        slot := LLAMA_KV_TAIL_BODY_SLOT }, n.slot, true⟩ : Candidate)) = [] := fun l => by
    rw [filter_eq_nil_iff]; simp
  rw [h1, h2]
  simp [Function.comp_def]

theorem keptSlots_drop (cs : List Candidate) (k : Nat) :
    (keptSlots (cs.drop k)).Sublist (keptSlots cs) :=
  ((drop_sublist k cs).filter _).map _

theorem candidates_sorted (src dst : List TailNode) (srcStream dstStream : Nat) (p0 p1 : Int) :
    (candidates src dst srcStream dstStream p0 p1).Pairwise fun a b => a.entry.Le b.entry :=
  haveI : Std.Total fun a b : Candidate => a.entry.Le b.entry :=
    ⟨fun _ _ => TailEntry.Le.total _ _⟩
  haveI : IsTrans Candidate fun a b : Candidate => a.entry.Le b.entry :=
    ⟨fun _ _ _ => TailEntry.Le.trans⟩
  pairwise_insertionSort _ _

/-- The order depends on the stripped entries only. -/
theorem pairwise_le_of_strip {es fs : List TailEntry} (h : es.map strip = fs.map strip)
    (hf : fs.Pairwise TailEntry.Le) : es.Pairwise TailEntry.Le := by
  let R : TailIdentity × Int × Nat → TailIdentity × Int × Nat → Prop := fun a b =>
    ¬ (b.2.1 < a.2.1 ∨ (b.2.1 = a.2.1 ∧ b.2.2 < a.2.2))
  have hR : ∀ l : List TailEntry, (l.map strip).Pairwise R ↔ l.Pairwise TailEntry.Le := fun l => by
    rw [pairwise_map]; rfl
  rw [← hR, h, hR]
  exact hf

/-! ## Prepare, commit and cancel -/

variable {st st' : TailStore}

/-- What `prepare_seq_cp` does when there is something to copy. -/
theorem prepareSeqCp_cases {src dst p0 p1 : Int} {srcStream dstStream : Nat}
    {copies : List TailSlotCopy}
    (e : st.prepareSeqCp src dst srcStream dstStream p0 p1 = (st', .ok copies)) :
    st' = st ∨ ∃ t a flags count, dst.toNat < st.cfg.nSeqMax ∧ st.pendingSeqCp = none ∧
      assignSlots st.cfg dst.toNat
        (st.retainedCandidates src.toNat dst.toNat srcStream dstStream p0 p1).1
        (st.retainedCandidates src.toNat dst.toNat srcStream dstStream p0 p1).2 {}
        (st.seqs dst.toNat) = (t, .ok a) ∧
      st' = { st.setSeq dst.toNat t with
        pendingSeqCp := some ⟨src.toNat, dst.toNat, a.destination, a.copies, a.acquired, flags,
          count⟩ } := by
  unfold prepareSeqCp at e
  split at e
  · exact .inl (Prod.mk.inj e).1.symm
  · next hv =>
    simp only [Bool.or_eq_true, Bool.not_eq_true', not_or, Bool.not_eq_false] at hv
    split at e
    · cases e
    · next hp =>
      simp only at e
      split at e
      · cases e
      · next t a ha =>
        right
        exact ⟨t, a, _, _, (validSeq_iff.mp hv.1.2).2, by simpa using hp, ha,
          (Prod.mk.inj e).1.symm⟩

/-- The surviving entries are entries of the destination. -/
theorem keptSlots_retained (src dst srcStream dstStream : Nat) (p0 p1 : Int) :
    (keptSlots (st.retainedCandidates src dst srcStream dstStream p0 p1).1).Subperm
      ((st.seqs dst).entries.map (·.slot)) := by
  refine (keptSlots_drop _ _).subperm.trans ?_
  exact (keptSlots_candidates _ _ _ _ _ _).subperm.trans (filter_sublist.map _).subperm

theorem retainedCandidates_reusable (src dst srcStream dstStream : Nat) (p0 p1 : Int) :
    (st.retainedCandidates src dst srcStream dstStream p0 p1).2 =
      ((st.seqs dst).entries.map (·.slot)).filter fun x => decide (x ∉
        keptSlots (st.retainedCandidates src dst srcStream dstStream p0 p1).1) := rfl

theorem retainedCandidates_sorted {src dst srcStream dstStream : Nat} {p0 p1 : Int} :
    ((st.retainedCandidates src dst srcStream dstStream p0 p1).1.map (·.entry)).Pairwise
      TailEntry.Le := by
  rw [pairwise_map]
  exact (candidates_sorted _ _ _ _ _ _).sublist (drop_sublist _ _)

theorem retainedCandidates_length {src dst srcStream dstStream : Nat} {p0 p1 : Int} :
    (st.retainedCandidates src dst srcStream dstStream p0 p1).1.length ≤ st.cfg.limit := by
  show (List.drop _ _).length ≤ _
  rw [length_drop]
  omega

theorem Inv.prepareSeqCp {src dst p0 p1 : Int} {srcStream dstStream : Nat}
    {copies : List TailSlotCopy} (h : st.Inv)
    (e : st.prepareSeqCp src dst srcStream dstStream p0 p1 = (st', .ok copies)) : st'.Inv := by
  rcases prepareSeqCp_cases e with rfl | ⟨t, a, flags, count, hd, hp, ha, rfl⟩
  · exact h
  · have hinv := h.seq _ hd
    have harena : ∀ x ∈ (st.seqs dst.toNat).entries.map (·.slot), InArena st.cfg dst.toNat x := by
      intro x hx
      obtain ⟨n, hn, rfl⟩ := mem_map.mp hx
      exact hinv.arena n hn
    obtain ⟨he, hi, hdest, hstrip⟩ := assignSlots_entries _ _ {} _ (fun x hx => by
      simp only [map_nil, nil_append, mem_append] at hx
      rcases hx with hx | hx
      · rw [retainedCandidates_reusable] at hx
        exact harena x (mem_of_mem_filter hx)
      · exact harena x ((keptSlots_retained ..).subset hx)) _ _ ha
    have hstrip' : a.destination.map strip = ((st.retainedCandidates src.toNat dst.toNat
        srcStream dstStream p0 p1).1.map (·.entry)).map strip := by
      rw [hstrip, map_map]
      rfl
    have hset : (st.setSeq dst.toNat t).Inv := by
      refine h.setSeq (entryInv_congr hinv he hi) fun hc => ?_
      rw [he]
      exact h.bound hc _ hd
    refine ⟨hset.cfg, hset.seq, hset.bound, fun p hp' => ?_, fun b hb => ?_⟩
    · cases hp'
      exact
        { dst := hd
          sorted := pairwise_le_of_strip hstrip' retainedCandidates_sorted
          arena := fun e he => hdest _ (mem_map_of_mem he)
          length := by
            have := congrArg List.length hstrip'
            simp only [length_map] at this
            show a.destination.length ≤ st.cfg.limit
            rw [this]
            exact retainedCandidates_length }
    · have hbi := hset.batch b hb
      exact ⟨hbi.compact, hbi.inBatch, hbi.list, hbi.sorted, hbi.bound⟩

theorem ofEntries_map {α : Type} (f : TailEntry → α) (es : List TailEntry) :
    (TailNode.ofEntries es).map (fun n => f n.toTailEntry) = es.map f := by
  unfold ofEntries
  rw [map_map]
  have : (fun n : TailNode => f n.toTailEntry) ∘
    (fun p : TailEntry × Nat => (⟨p.1, p.2⟩ : TailNode))
      = f ∘ Prod.fst := rfl
  rw [this, ← map_map, zipIdx_map_fst]

theorem ofEntries_ids (es : List TailEntry) : ((TailNode.ofEntries es).map (·.id)).Nodup := by
  unfold ofEntries
  rw [map_map]
  have : (fun n : TailNode => n.id) ∘ (fun p : TailEntry × Nat => (⟨p.1, p.2⟩ : TailNode))
      = Prod.snd := rfl
  rw [this, zipIdx_map_snd]
  exact nodup_range'

theorem sorted_ofEntries {es : List TailEntry} (h : es.Pairwise TailEntry.Le) :
    Sorted (TailNode.ofEntries es) := by
  have := ofEntries_map id es
  rw [map_id] at this
  rw [← this] at h
  exact pairwise_map.mp h

/-- The list of the pending copy in the destination. -/
theorem listInv_installCp {p : PendingCp} (hp : PendingInv cfg p)
    (hk : (p.destination.map (·.key)).Nodup) :
    ListInv cfg p.dst (installCp cfg p t).entries where
  ids := ofEntries_ids _
  keys := by
    have : (installCp cfg p t).entries.map (·.key) = p.destination.map (·.key) :=
      ofEntries_map (·.key) _
    rw [this]
    exact hk
  arena n hn := by
    have hs : (installCp cfg p t).entries.map (·.slot) = p.destination.map (·.slot) :=
      ofEntries_map (·.slot) _
    have hm : n.slot ∈ p.destination.map (·.slot) := by
      rw [← hs]
      exact mem_map_of_mem hn
    obtain ⟨e, he, hx⟩ := mem_map.mp hm
    rw [← hx]
    exact hp.arena e he

/-- `commit_seq_cp` of a pending copy whose cells differ. -/
theorem commitSeqCp_eq {p : PendingCp} (hp : st.pendingSeqCp = some p)
    (e : st.commitSeqCp = (st', .ok ())) :
    (p.destination.map (·.key)).Nodup ∧
    st' = { st.setSeq p.dst { (installCp st.cfg p (st.seqs p.dst)).rebuildIndex.1 with
      degradation := p.degradationFlags, recovery := p.recoveryCommits } with
      pendingSeqCp := none } := by
  unfold commitSeqCp at e
  rw [hp] at e
  simp only at e
  split at e
  · cases e
  · next t ht =>
    have hok : (installCp st.cfg p (st.seqs p.dst)).rebuildIndex.2 = .ok () := by rw [ht]
    have hk := rebuildIndex_ok_iff.mp hok
    have he : (installCp st.cfg p (st.seqs p.dst)).entries.map (·.key) =
        p.destination.map (·.key) := ofEntries_map (·.key) _
    rw [he] at hk
    refine ⟨hk, ?_⟩
    rw [ht]
    exact (Prod.mk.inj e).1.symm

theorem Inv.endCp (h : st.Inv) : ({ st with pendingSeqCp := none } : TailStore).Inv := by
  refine ⟨h.cfg, h.seq, h.bound, (fun q hq => nomatch hq), fun b hb => ?_⟩
  have hbi := h.batch b hb
  exact ⟨hbi.compact, hbi.inBatch, hbi.list, hbi.sorted, hbi.bound⟩

theorem Inv.commitSeqCp (h : st.Inv) (e : st.commitSeqCp = (st', .ok ())) : st'.Inv := by
  cases hp : st.pendingSeqCp with
  | none =>
    simp only [TailStore.commitSeqCp, hp] at e
    cases e
    exact h
  | some p =>
    obtain ⟨hk, rfl⟩ := commitSeqCp_eq hp e
    have hpi := h.pending p hp
    have hinv := (entryInv_rebuildIndex
      (listInv_installCp (t := st.seqs p.dst) hpi hk) (sorted_ofEntries hpi.sorted)).2
    refine Inv.endCp (h.setSeq (entryInv_congr hinv rfl rfl) fun _ => ?_)
    show (ofEntries p.destination).length ≤ _
    rw [ofEntries, length_map, length_zipIdx, ← h.cfg.limit_eq]
    exact hpi.length

theorem Inv.cancelSeqCp (h : st.Inv) : st.cancelSeqCp.Inv := by
  unfold TailStore.cancelSeqCp
  split
  · exact h
  · next p hp =>
    have hd := (h.pending p hp).dst
    refine Inv.endCp (h.setSeq ?_ fun hc => ?_)
    · exact entryInv_congr (h.seq _ hd) (releaseAll_entries _)
        (releaseAll_index _)
    · rw [releaseAll_entries]
      exact h.bound hc _ hd

end BeeLlama.TailStore
