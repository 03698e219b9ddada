import BeeLlama.Kv.TailSeqInv

/-!
# The operations on one sequence's tail

One specification for each operation: it keeps `EntryInv`, it keeps the size bound, and each entry
of the result is an entry of before, or the one that the operation names.

* `commit_spec`, `recycle_spec`: the operations of a batch.
* `seqRm_spec`, `seqRmCell_spec`, `invalidateSlots_spec`: removals.
* `seqAdd_spec`, `seqDiv_spec`: moves of positions.
* `restore_spec`: the restore of a saved entry.
-/

namespace BeeLlama

open List TailNode

namespace SeqTail

variable {cfg : TailCfg} {s : Nat} {t t' : SeqTail}

/-! ## Commit -/

/-- The entries after `commit` of `identity` at `position`: the new one, and others of before. -/
def Committed (identity : TailIdentity) (position : Int) (t t' : SeqTail) : Prop :=
  ∀ m ∈ t'.entries, (m.identity = identity ∧ m.position = position) ∨
    (m.key ≠ identity.key ∧ ∃ o ∈ t.entries, o.toTailEntry = m.toTailEntry)

theorem commitSame_spec (h : EntryInv cfg s t) {n : TailNode} (hn : n ∈ t.entries)
    (position : Int) (ordinal : Nat) :
    EntryInv cfg s (t.commitSame cfg s n position ordinal) ∧
    Committed n.identity position t (t.commitSame cfg s n position ordinal) ∧
    (t.commitSame cfg s n position ordinal).entries.length ≤ cfg.limit := by
  have hf := Reposition.ite (fun m => m.id = n.id) (fun _ => position) (fun _ => ordinal)
  have hp := perm_sort (t.entries.map fun m =>
    if m.id = n.id then { m with position := position, ordinal := ordinal } else m)
  refine ⟨?_, ?_, trim_length_le _⟩
  · refine entryInv_trim ?_ _
    exact
      { toListInv := (h.toListInv.reposition hf).perm hp
        index := h.index.reposition hf hp rfl
        sorted := Sorted.sort _ }
  · intro m hm
    obtain ⟨o, ho, rfl⟩ := mem_map.mp (hp.mem_iff.mp ((trim_sublist _ _ _ _).subset hm))
    split
    · next e =>
      obtain rfl := h.eq_of_id ho hn e
      exact .inl ⟨rfl, rfl⟩
    · next e =>
      refine .inr ⟨fun hk => e ?_, o, ho, rfl⟩
      rw [h.eq_of_key ho hn hk]

variable {inBatch : Bool} {identity : TailIdentity} {position : Int} {ordinal : Nat}

theorem commitNew_spec (h : EntryInv cfg s t) (hkey : identity.key ∉ t.entries.map (·.key))
    (e : t.commitNew cfg s inBatch identity position ordinal = (t', .ok ())) :
    EntryInv cfg s t' ∧ Committed identity position t t' := by
  unfold commitNew at e
  split at e
  · cases e
  · next t1 slot ht =>
    obtain ⟨h1, hx, hsub⟩ := entryInv_takeSlot h ht
    have hkey1 : identity.key ∉ t1.entries.map (·.key) := fun hm =>
      hkey ((hsub.map _).subset hm)
    have h2 : EntryInv cfg s (recover cfg (t1.addEntry ⟨identity, position, ordinal, slot⟩)) :=
      entryInv_congr (entryInv_addEntry (e := ⟨identity, position, ordinal, slot⟩) h1 hx hkey1)
        recover_entries recover_index
    have hc : Committed identity position t
        (recover cfg (t1.addEntry ⟨identity, position, ordinal, slot⟩)) := by
      intro m hm
      rw [recover_entries] at hm
      rcases mem_cons.mp ((addEntry_perm _).mem_iff.mp hm) with rfl | hm
      · exact .inl ⟨rfl, rfl⟩
      · exact .inr ⟨fun hk => hkey1 (mem_map.mpr ⟨m, hm, hk⟩), m, hsub.subset hm, rfl⟩
    cases e
    split
    · exact ⟨h2, hc⟩
    · exact ⟨entryInv_trim h2 _, fun m hm => hc m ((trim_sublist _ _ _ _).subset hm)⟩

/-- What a successful `commit` leaves. -/
theorem commit_spec (h : EntryInv cfg s t)
    (e : t.commit cfg s inBatch identity position ordinal = (t', .ok ())) :
    EntryInv cfg s t' ∧ Committed identity position t t' := by
  unfold commit at e
  cases hf : t.find identity.key with
  | none =>
    rw [hf] at e
    exact commitNew_spec h ((find_eq_none h).mp hf) e
  | some d =>
    rw [hf] at e
    obtain ⟨hd, hk⟩ := (find_eq_some h).mp hf
    simp only at e
    split at e
    · next hid =>
      cases e
      obtain ⟨h1, hc, -⟩ := commitSame_spec h hd position ordinal
      rw [hid] at hc
      exact ⟨h1, hc⟩
    · have h1 := entryInv_eraseEntry h hd true
      have hkey : identity.key ∉ (t.eraseEntry cfg s d true).entries.map (·.key) := by
        intro hm
        obtain ⟨m, hm, hmk⟩ := mem_map.mp hm
        simp only [eraseEntry_entries, mem_filter, decide_eq_true_eq] at hm
        exact hm.2 (by rw [h.eq_of_key hm.1 hd (by rw [hmk, hk])])
      obtain ⟨h2, hc⟩ := commitNew_spec h1 hkey e
      refine ⟨h2, fun m hm => (hc m hm).imp_right fun ⟨hk, o, ho, eo⟩ => ⟨hk, o, ?_, eo⟩⟩
      rw [eraseEntry_entries] at ho
      exact mem_of_mem_filter ho

theorem commitNew_error
    {er : TailError} (e : t.commitNew cfg s inBatch identity position ordinal = (t', .error er)) :
    t' = t := by
  unfold commitNew at e
  split at e
  · next ht =>
    cases e
    exact takeSlot_error ht
  · cases e

/-- A `commit` that throws has at most erased the entry of another generation. -/
theorem commit_error (h : EntryInv cfg s t) {er : TailError}
    (e : t.commit cfg s inBatch identity position ordinal = (t', .error er)) :
    EntryInv cfg s t' ∧ t'.entries.Sublist t.entries := by
  unfold commit at e
  cases hf : t.find identity.key with
  | none =>
    rw [hf] at e
    rw [commitNew_error e]
    exact ⟨h, List.Sublist.refl _⟩
  | some d =>
    rw [hf] at e
    obtain ⟨hd, -⟩ := (find_eq_some h).mp hf
    simp only at e
    split at e
    · cases e
    · rw [commitNew_error e]
      refine ⟨entryInv_eraseEntry h hd true, ?_⟩
      rw [eraseEntry_entries]
      exact filter_sublist

/-- In a compact store `commit` keeps the bound, and the committed entry is retained. -/
theorem commitNew_compact (hc : cfg.compactStorage = true) (hpos : 0 < cfg.limit)
    (hlen : t.entries.length ≤ cfg.limit)
    (e : t.commitNew cfg s inBatch identity position ordinal = (t', .ok ())) :
    t'.entries.length ≤ cfg.limit ∧ ∃ n ∈ t'.entries, n.identity = identity := by
  unfold commitNew at e
  split at e
  · cases e
  · next t1 slot ht =>
    have hlt : t1.entries.length < cfg.limit := by
      rcases takeSlot_cases cfg s inBatch t with ⟨v, ns, he, -, -, hv⟩ | ⟨hno, ha⟩
      · rw [hv] at ht
        cases ht
        have := eraseEntry_length_lt cfg s (t := t) (n := v) (by simp [he]) false
        omega
      · rw [ha] at ht
        rcases acquire_cases cfg s t with ⟨l, hl, hf, hq⟩ | hq
        · rw [hq] at ht
          cases ht
          by_cases he : t.entries = []
          · simpa [he] using hpos
          · have : ¬ cfg.limit ≤ t.entries.length := fun hle => hno ⟨.inl hc, hle, he⟩
            exact Nat.not_le.mp this
        · rw [hq] at ht
          cases ht
    have hp := addEntry_perm (t := t1) ⟨identity, position, ordinal, slot⟩
    have hlen2 : (recover cfg (t1.addEntry ⟨identity, position, ordinal, slot⟩)).entries.length
        ≤ cfg.limit := by
      rw [recover_entries, hp.length_eq, length_cons]
      omega
    cases e
    rw [trim_eq_self hlen2, ite_self]
    refine ⟨hlen2, ⟨⟨identity, position, ordinal, slot⟩, fresh t1.entries⟩, ?_, rfl⟩
    rw [recover_entries]
    exact hp.mem_iff.mpr (by simp)

theorem commit_compact (h : EntryInv cfg s t) (hc : cfg.compactStorage = true)
    (hpos : 0 < cfg.limit) (hlen : t.entries.length ≤ cfg.limit)
    (e : t.commit cfg s inBatch identity position ordinal = (t', .ok ())) :
    t'.entries.length ≤ cfg.limit ∧ ∃ n ∈ t'.entries, n.identity = identity := by
  unfold commit at e
  cases hf : t.find identity.key with
  | none =>
    rw [hf] at e
    exact commitNew_compact hc hpos hlen e
  | some d =>
    rw [hf] at e
    obtain ⟨hd, -⟩ := (find_eq_some h).mp hf
    simp only at e
    split at e
    · next hid =>
      cases e
      have hp := perm_sort (t.entries.map fun m =>
        if m.id = d.id then { m with position := position, ordinal := ordinal } else m)
      refine ⟨trim_length_le _, { d with position := position, ordinal := ordinal }, ?_, hid⟩
      rw [commitSame, trim_eq_self]
      · exact hp.mem_iff.mpr (mem_map.mpr ⟨d, hd, by simp⟩)
      · rw [hp.length_eq, length_map]
        exact hlen
    · have hlt := eraseEntry_length_lt cfg s hd true
      exact commitNew_compact hc hpos (by omega) e

/-- The slot that `commit` returns is the one of the entry. -/
theorem retained_eq (h : EntryInv cfg s t) {n : TailNode} (hn : n ∈ t.entries) :
    t.retained n.identity = n.slot := by
  have hf : t.find n.identity.key = some n := (find_eq_some h).mpr ⟨hn, rfl⟩
  simp [retained, hf]

/-! ## Recycle and removals -/

theorem recycle_spec (h : EntryInv cfg s t) (stream cell generation : Nat) :
    EntryInv cfg s (t.recycle cfg s stream cell generation).1 ∧
    (t.recycle cfg s stream cell generation).1.entries.Sublist t.entries ∧
    (∀ n ∈ (t.recycle cfg s stream cell generation).1.entries,
      n.key = (stream, cell) → n.identity.generation = generation) ∧
    ((t.recycle cfg s stream cell generation).2 = false →
      (t.recycle cfg s stream cell generation).1 = t) := by
  unfold recycle
  cases hf : t.find (stream, cell) with
  | none =>
    refine ⟨h, List.Sublist.refl _, fun n hn hk => ?_, fun _ => rfl⟩
    exact absurd (mem_map.mpr ⟨n, hn, hk⟩) ((find_eq_none h).mp hf)
  | some d =>
    obtain ⟨hd, hk⟩ := (find_eq_some h).mp hf
    simp only
    split
    · refine ⟨entryInv_eraseEntry h hd true, ?_, fun n hn hnk => ?_, fun hc => by cases hc⟩
      · rw [eraseEntry_entries]; exact filter_sublist
      · rw [eraseEntry_entries, mem_filter, decide_eq_true_eq] at hn
        exact absurd (by rw [h.eq_of_key hn.1 hd (by rw [hnk, hk])]) hn.2
    · next hg =>
      refine ⟨h, List.Sublist.refl _, fun n hn hnk => ?_, fun _ => rfl⟩
      rw [h.eq_of_key hn hd (by rw [hnk, hk])]
      exact not_not.mp hg

/-- Erasing entries and rebuilding the index. -/
theorem eraseWhere_rebuild (h : EntryInv cfg s t) (p : TailNode → Bool) :
    (t.eraseWhere cfg s p).rebuildIndex.2 = .ok () ∧
    EntryInv cfg s (t.eraseWhere cfg s p).rebuildIndex.1 := by
  refine entryInv_rebuildIndex ?_ ?_
  · rw [eraseWhere_entries]
    exact h.toListInv.sublist filter_sublist
  · rw [eraseWhere_entries]
    exact Sorted.filter h.sorted _

theorem seqRm_spec (h : EntryInv cfg s t) (p0 p1 : Int) :
    (t.seqRm cfg s p0 p1).2 = .ok () ∧ EntryInv cfg s (t.seqRm cfg s p0 p1).1 ∧
    (t.seqRm cfg s p0 p1).1.entries =
      t.entries.filter fun n => !decide (n.toTailEntry.InRange p0 p1) := by
  obtain ⟨hok, hi⟩ := eraseWhere_rebuild h fun n => decide (n.toTailEntry.InRange p0 p1)
  unfold seqRm
  generalize hr : (t.eraseWhere cfg s fun n => decide (n.toTailEntry.InRange p0 p1)).rebuildIndex
    = r at hok hi
  obtain ⟨t1, r⟩ := r
  obtain rfl : r = .ok () := hok
  have he : t1.entries = t.entries.filter fun n => !decide (n.toTailEntry.InRange p0 p1) := by
    have := congrArg (fun r => r.1.entries) hr
    simpa using this.symm
  refine ⟨rfl, ?_, ?_⟩
  · simp only
    split
    · exact entryInv_congr hi rfl rfl
    · exact hi
  · simp only
    split <;> exact he

theorem seqRmCell_spec (h : EntryInv cfg s t) (stream cell : Nat) :
    (t.seqRmCell cfg s stream cell).2 = .ok () ∧
    EntryInv cfg s (t.seqRmCell cfg s stream cell).1 ∧
    (t.seqRmCell cfg s stream cell).1.entries =
      t.entries.filter fun n => !decide (n.key = (stream, cell)) := by
  obtain ⟨hok, hi⟩ := eraseWhere_rebuild h fun n => decide (n.key = (stream, cell))
  exact ⟨hok, hi, by simp [seqRmCell]⟩

theorem invalidateSlots_spec (h : EntryInv cfg s t) (slots : List Int) (flags : Nat) :
    (t.invalidateSlots cfg s slots flags).2 = .ok () ∧
    EntryInv cfg s (t.invalidateSlots cfg s slots flags).1 ∧
    (t.invalidateSlots cfg s slots flags).1.entries.Sublist t.entries := by
  unfold invalidateSlots
  split
  · obtain ⟨hok, hi⟩ := eraseWhere_rebuild h fun n => decide (n.slot ∈ slots)
    generalize hr : (t.eraseWhere cfg s fun n => decide (n.slot ∈ slots)).rebuildIndex
      = r at hok hi
    obtain ⟨t1, r⟩ := r
    obtain rfl : r = .ok () := hok
    have he : t1.entries = t.entries.filter fun n => !decide (n.slot ∈ slots) := by
      have := congrArg (fun r => r.1.entries) hr
      simpa using this.symm
    refine ⟨rfl, entryInv_congr hi rfl rfl, ?_⟩
    show t1.entries.Sublist t.entries
    rw [he]
    exact filter_sublist
  · exact ⟨rfl, h, List.Sublist.refl _⟩

/-! ## Moves of positions -/

theorem resort_spec (h : ListInv cfg s t.entries) (degraded : Bool) :
    (t.resort cfg s degraded).2 = .ok () ∧ EntryInv cfg s (t.resort cfg s degraded).1 ∧
    (∀ n ∈ (t.resort cfg s degraded).1.entries, n ∈ t.entries) ∧
    (t.resort cfg s degraded).1.entries.length ≤ cfg.limit := by
  have hp := perm_sort t.entries
  have hs := trim_sublist cfg s { t with entries := sort t.entries } cfg.limit
  obtain ⟨hok, hi⟩ := entryInv_rebuildIndex ((h.perm hp).sublist hs)
    ((Sorted.sort t.entries).sublist hs)
  unfold resort
  generalize hr : (trim cfg s cfg.limit
    { t with entries := sort t.entries }).rebuildIndex = r at hok hi
  obtain ⟨t1, r⟩ := r
  obtain rfl : r = .ok () := hok
  have he : t1.entries = (trim cfg s cfg.limit
      { t with entries := sort t.entries }).entries := by
    have := congrArg (fun r => r.1.entries) hr
    simpa using this.symm
  have hmem : ∀ n ∈ t1.entries, n ∈ t.entries := fun n hn => by
    rw [he] at hn
    exact hp.mem_iff.mp (hs.subset hn)
  have hlen : t1.entries.length ≤ cfg.limit := by rw [he]; exact trim_length_le _
  refine ⟨rfl, ?_, ?_, ?_⟩
  · simp only
    split
    · exact entryInv_congr hi rfl rfl
    · exact hi
  · simp only
    split <;> exact hmem
  · simp only
    split <;> exact hlen

theorem reposition_movePositions (ids : List TailIdentity) (f : Int → Int) :
    Reposition fun n => if n.identity ∈ ids then { n with position := f n.position } else n :=
  Reposition.ite (fun n => n.identity ∈ ids) (fun n => f n.position) (fun n => n.ordinal)

theorem listInv_movePositions (h : ListInv cfg s t.entries) (ids : List TailIdentity)
    (f : Int → Int) : ListInv cfg s (t.movePositions ids f).entries :=
  h.reposition (reposition_movePositions ids f)

/-- The entries after a move: those with an identity in `ids` at their new position, the others as
before. -/
def Moved (ids : List TailIdentity) (f : Int → Int) (t t' : SeqTail) : Prop :=
  ∀ m ∈ t'.entries, ∃ o ∈ t.entries, m.identity = o.identity ∧
    m.position = if o.identity ∈ ids then f o.position else o.position

theorem moved_movePositions (ids : List TailIdentity) (f : Int → Int) :
    Moved ids f t (t.movePositions ids f) := by
  intro m hm
  obtain ⟨o, ho, rfl⟩ := mem_map.mp hm
  refine ⟨o, ho, ?_⟩
  split <;> exact ⟨rfl, rfl⟩

theorem moved_refl {ids : List TailIdentity} {f : Int → Int}
    (h : ¬ (t.entries.any fun n => decide (n.identity ∈ ids)) = true) : Moved ids f t t := by
  intro m hm
  have hn : m.identity ∉ ids := by
    simp only [any_eq_true, decide_eq_true_eq, not_exists, not_and] at h
    exact h m hm
  exact ⟨m, hm, rfl, by rw [if_neg hn]⟩

theorem seqAdd_spec (h : EntryInv cfg s t) (ids : List TailIdentity) (shift : Int)
    (degraded : Bool) :
    (t.seqAdd cfg s ids shift degraded).2 = .ok () ∧
    EntryInv cfg s (t.seqAdd cfg s ids shift degraded).1 ∧
    Moved ids (· + shift) t (t.seqAdd cfg s ids shift degraded).1 ∧
    (∀ n ∈ (t.seqAdd cfg s ids shift degraded).1.entries, n.identity ∈ ids → 0 ≤ n.position) ∧
    (t.seqAdd cfg s ids shift degraded).1.entries.length ≤ max t.entries.length cfg.limit := by
  unfold seqAdd
  split
  · have h1 : ListInv cfg s ((t.movePositions ids (· + shift)).eraseWhere cfg s fun n =>
        decide (n.identity ∈ ids ∧ n.position < 0)).entries := by
      rw [eraseWhere_entries]
      exact (listInv_movePositions h.toListInv ids _).sublist filter_sublist
    obtain ⟨hok, hi, hmem, hlen⟩ := resort_spec h1 degraded
    refine ⟨hok, hi, fun m hm => ?_, fun n hn hid => ?_, by omega⟩
    · have := hmem m hm
      rw [eraseWhere_entries, mem_filter] at this
      exact moved_movePositions ids _ m this.1
    · have := hmem n hn
      rw [eraseWhere_entries, mem_filter] at this
      have hn := this.2
      simp only [Bool.not_eq_true', decide_eq_false_iff_not, not_and, not_lt] at hn
      exact hn hid
  · next hno =>
    refine ⟨rfl, h, moved_refl hno, fun n hn hid => ?_, le_max_left _ _⟩
    simp only [any_eq_true, decide_eq_true_eq, not_exists, not_and] at hno
    exact absurd hid (hno n hn)

theorem seqDiv_spec (h : EntryInv cfg s t) (ids : List TailIdentity) (divisor : Int)
    (degraded : Bool) :
    (t.seqDiv cfg s ids divisor degraded).2 = .ok () ∧
    EntryInv cfg s (t.seqDiv cfg s ids divisor degraded).1 ∧
    Moved ids (·.tdiv divisor) t (t.seqDiv cfg s ids divisor degraded).1 ∧
    (t.seqDiv cfg s ids divisor degraded).1.entries.length ≤ max t.entries.length cfg.limit := by
  unfold seqDiv
  split
  · have h1 := listInv_movePositions h.toListInv ids (·.tdiv divisor)
    obtain ⟨hok, hi, hmem, hlen⟩ := resort_spec h1 degraded
    exact ⟨hok, hi, fun m hm => moved_movePositions ids _ m (hmem m hm), by omega⟩
  · next hno => exact ⟨rfl, h, moved_refl hno, le_max_left _ _⟩

/-! ## Restore -/

theorem restore_spec (h : EntryInv cfg s t) {ordinal l : Nat} {x : Int} (hl : l < cfg.arenaStride)
    (e : t.restore cfg s identity position ordinal l = (t', .ok x)) :
    EntryInv cfg s t' ∧ t'.entries.length ≤ cfg.historyLimit ∧
    Committed identity position t t' := by
  unfold restore at e
  split at e
  · cases e
  · next hc =>
    push Not at hc
    obtain ⟨hlen, -, hidx⟩ := hc
    have hkey : identity.key ∉ t.entries.map (·.key) := by
      intro hm
      obtain ⟨n, hn, hk⟩ := mem_map.mp hm
      rw [(h.index identity.key n.id).mpr ⟨n, hn, hk, rfl⟩] at hidx
      cases hidx
    cases e
    let n : TailNode :=
      ⟨⟨identity, position, ordinal, slotOf cfg s l⟩, fresh t.entries⟩
    have hp := perm_insertBefore t.entries n
    refine ⟨?_, ?_, ?_⟩
    · exact
        { toListInv := (h.toListInv.cons (n := n) (TailNode.fresh_notMem _) hkey
            ⟨l, hl, rfl⟩).perm hp
          index := indexed_cons (n := n) h.index hkey hp rfl
          sorted := Sorted.insertBefore h.sorted _ }
    · show (insertBefore t.entries _).length ≤ _
      rw [(perm_insertBefore _ _).length_eq, length_cons]
      omega
    · intro m hm
      rcases mem_cons.mp (hp.mem_iff.mp hm) with rfl | hm
      · exact .inl ⟨rfl, rfl⟩
      · exact .inr ⟨fun hk => hkey (mem_map.mpr ⟨m, hm, hk⟩), m, hm, rfl⟩

end SeqTail
end BeeLlama
