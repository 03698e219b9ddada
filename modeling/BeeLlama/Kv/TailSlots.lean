import BeeLlama.Kv.TailSeqOps

/-!
# The slots of one sequence's tail

`SlotInv cfg s extra` says which slots of the arena of sequence `s` are taken: the slots of the
entries differ, and the used ones are those of the entries and those in `extra`. `extra` are slots
that are taken but not (yet) in the list: what a pending copy acquired, or the slot of the entry
that `commit` is about to add.

An operation that releases the slots of what it erases keeps `SlotInv`; `acquire` and an eviction
without a release make the slot an extra one, and the new entry takes it back.
-/

namespace BeeLlama

open List TailNode

/-- The used slots are those of the list and those in `extra`. -/
structure SlotInv (cfg : TailCfg) (s : Nat) (extra : List Int) (t : SeqState) : Prop where
  slots : (t.entries.map (·.slot)).Nodup
  extraNodup : extra.Nodup
  extraArena : ∀ x ∈ extra, InArena cfg s x
  disjoint : ∀ x ∈ extra, x ∉ t.entries.map (·.slot)
  used : ∀ l, l < cfg.arenaStride →
    (t.used l = true ↔ slotOf cfg s l ∈ t.entries.map (·.slot) ∨ slotOf cfg s l ∈ extra)

section SlotInv

variable {cfg : TailCfg} {s : Nat} {extra : List Int} {t t' : SeqState}

theorem SlotInv.empty : SlotInv cfg s [] {} := by
  constructor <;> simp

/-- The list loses entries. -/
theorem SlotInv.sublist (h : SlotInv cfg s extra t) (hsub : t'.entries.Sublist t.entries)
    (hused : ∀ l, l < cfg.arenaStride →
      (t'.used l = true ↔ slotOf cfg s l ∈ t'.entries.map (·.slot) ∨ slotOf cfg s l ∈ extra)) :
    SlotInv cfg s extra t' where
  slots := h.slots.sublist (hsub.map _)
  extraNodup := h.extraNodup
  extraArena := h.extraArena
  disjoint x hx hm := h.disjoint x hx ((hsub.map _).subset hm)
  used := hused

/-- The list changes its order and its positions. -/
theorem SlotInv.perm (h : SlotInv cfg s extra t)
    (hs : (t'.entries.map (·.slot)).Perm (t.entries.map (·.slot)))
    (hused : t'.used = t.used) : SlotInv cfg s extra t' where
  slots := hs.nodup_iff.mpr h.slots
  extraNodup := h.extraNodup
  extraArena := h.extraArena
  disjoint x hx hm := h.disjoint x hx (hs.mem_iff.mp hm)
  used l hl := by rw [hused, hs.mem_iff]; exact h.used l hl

theorem SlotInv.congr (h : SlotInv cfg s extra t) (he : t'.entries = t.entries)
    (hused : t'.used = t.used) : SlotInv cfg s extra t' :=
  h.perm (by rw [he]) hused

theorem SlotInv.extra_perm {extra' : List Int} (h : SlotInv cfg s extra t)
    (hp : extra.Perm extra') : SlotInv cfg s extra' t :=
  { h with
    extraNodup := hp.nodup_iff.mp h.extraNodup
    extraArena := fun x hx => h.extraArena x (hp.mem_iff.mpr hx)
    disjoint := fun x hx => h.disjoint x (hp.mem_iff.mpr hx)
    used := fun l hl => by rw [h.used l hl, hp.mem_iff] }

/-- A new entry takes one of the extra slots. -/
theorem SlotInv.cons {n : TailNode} (h : SlotInv cfg s (n.slot :: extra) t)
    (hp : t'.entries.Perm (n :: t.entries)) (hused : t'.used = t.used) :
    SlotInv cfg s extra t' where
  slots := (hp.map _).nodup_iff.mpr (nodup_cons.mpr ⟨h.disjoint n.slot (by simp), h.slots⟩)
  extraNodup := (nodup_cons.mp h.extraNodup).2
  extraArena y hy := h.extraArena y (by simp [hy])
  disjoint y hy hm := by
    rcases mem_cons.mp ((hp.map (·.slot)).mem_iff.mp hm) with e | hm
    · subst e
      exact (nodup_cons.mp h.extraNodup).1 hy
    · exact h.disjoint y (by simp [hy]) hm
  used l hl := by
    rw [hused, h.used l hl, (hp.map (·.slot)).mem_iff, map_cons, mem_cons, mem_cons]
    tauto

theorem SlotInv.eq_of_slot (h : SlotInv cfg s extra t) {n m : TailNode} (hn : n ∈ t.entries)
    (hm : m ∈ t.entries) (e : n.slot = m.slot) : n = m :=
  inj_on_of_nodup_map h.slots hn hm e

end SlotInv

namespace SeqTail

variable {cfg : TailCfg} {s : Nat} {extra : List Int} {t t' : SeqTail}

/-! ## Acquiring and erasing -/

/-- An acquired slot is a new extra slot. -/
theorem slotInv_acquire {l : Nat} {c : Nat} (h : SlotInv cfg s extra t.toSeqState)
    (hl : l < cfg.arenaStride) (hfree : t.used l = false) :
    SlotInv cfg s (slotOf cfg s l :: extra)
      { t.toSeqState with used := Function.update t.used l true, cursor := c } where
  slots := h.slots
  extraNodup := by
    refine nodup_cons.mpr ⟨fun hm => ?_, h.extraNodup⟩
    have := (h.used l hl).mpr (.inr hm)
    simp [hfree] at this
  extraArena x hx := by
    rcases mem_cons.mp hx with rfl | hx
    · exact ⟨l, hl, rfl⟩
    · exact h.extraArena x hx
  disjoint x hx hm := by
    rcases mem_cons.mp hx with rfl | hx
    · have := (h.used l hl).mpr (.inl hm)
      simp [hfree] at this
    · exact h.disjoint x hx hm
  used k hk := by
    by_cases e : k = l
    · subst e; simp
    · have hne : slotOf cfg s k ≠ slotOf cfg s l := fun e' => e (slotOf_inj.mp e')
      simp only [Function.update_of_ne e, mem_cons, hne, false_or]
      exact h.used k hk

/-- The slots of the entries that stay after a removal. -/
private theorem mem_slots_filter (h : SlotInv cfg s extra t.toSeqState) (p : TailNode → Bool)
    (x : Int) : x ∈ (t.entries.filter fun n => !p n).map (·.slot) ↔
      x ∈ t.entries.map (·.slot) ∧ x ∉ (t.entries.filter p).map (·.slot) := by
  simp only [mem_map, mem_filter]
  constructor
  · rintro ⟨n, ⟨hn, hp⟩, rfl⟩
    refine ⟨⟨n, hn, rfl⟩, ?_⟩
    rintro ⟨m, ⟨hm, hpm⟩, e⟩
    obtain rfl := h.eq_of_slot hm hn e
    simp [hpm] at hp
  · rintro ⟨⟨n, hn, rfl⟩, hno⟩
    refine ⟨n, ⟨hn, ?_⟩, rfl⟩
    by_contra hp
    exact hno ⟨n, ⟨hn, by simpa using hp⟩, rfl⟩

theorem arena_map {ns : List TailNode} (h : ListInv cfg s ns) :
    ∀ x ∈ ns.map (·.slot), InArena cfg s x := by
  intro x hx
  obtain ⟨n, hn, rfl⟩ := mem_map.mp hx
  exact h.arena n hn

theorem slotInv_eraseWhere (hl : ListInv cfg s t.entries) (h : SlotInv cfg s extra t.toSeqState)
    (p : TailNode → Bool) : SlotInv cfg s extra (t.eraseWhere cfg s p).toSeqState := by
  refine h.sublist ?_ fun l hlt => ?_
  · rw [eraseWhere_entries]
    exact filter_sublist
  · have ha := arena_map (hl.sublist (filter_sublist (p := p)))
    rw [eraseWhere_entries]
    simp only [eraseWhere]
    rw [releaseAll_used ha, h.used l hlt, mem_slots_filter h]
    have hd := h.disjoint (slotOf cfg s l)
    constructor
    · rintro ⟨hu | hx, hn⟩
      · exact .inl ⟨hu, hn⟩
      · exact .inr hx
    · rintro (⟨hu, hn⟩ | hx)
      · exact ⟨.inl hu, hn⟩
      · refine ⟨.inr hx, fun hm => hd hx ?_⟩
        exact (filter_sublist.map _).subset hm

/-- The slots without the one of the erased entry. -/
private theorem mem_slots_erase (hl : ListInv cfg s t.entries)
    (h : SlotInv cfg s extra t.toSeqState) {n : TailNode} (hn : n ∈ t.entries) (x : Int) :
    x ∈ (t.entries.filter fun m => m.id ≠ n.id).map (·.slot) ↔
      x ∈ t.entries.map (·.slot) ∧ x ≠ n.slot := by
  simp only [mem_map, mem_filter, decide_eq_true_eq]
  constructor
  · rintro ⟨m, ⟨hm, hne⟩, rfl⟩
    exact ⟨⟨m, hm, rfl⟩, fun e => hne (by rw [h.eq_of_slot hm hn e])⟩
  · rintro ⟨⟨m, hm, rfl⟩, hne⟩
    exact ⟨m, ⟨hm, fun e => hne (by rw [hl.eq_of_id hm hn e])⟩, rfl⟩

/-- `erase_entry` with the release of the slot. -/
theorem slotInv_eraseEntry (hl : ListInv cfg s t.entries) (h : SlotInv cfg s extra t.toSeqState)
    {n : TailNode} (hn : n ∈ t.entries) :
    SlotInv cfg s extra (t.eraseEntry cfg s n true).toSeqState := by
  have hnx : n.slot ∉ extra := fun hx => h.disjoint _ hx (mem_map_of_mem hn)
  refine h.sublist ?_ fun l hlt => ?_
  · rw [eraseEntry_entries]
    exact filter_sublist
  · rw [eraseEntry_entries, mem_slots_erase hl h hn]
    simp only [eraseEntry, if_true]
    rw [release_used (hl.arena n hn), Bool.and_eq_true, h.used l hlt, decide_eq_true_eq]
    constructor
    · rintro ⟨hu | hx, hne⟩
      · exact .inl ⟨hu, fun e => hne e.symm⟩
      · exact .inr hx
    · rintro (⟨hu, hne⟩ | hx)
      · exact ⟨.inl hu, fun e => hne e.symm⟩
      · exact ⟨.inr hx, fun e => hnx (by rw [e]; exact hx)⟩

/-- `erase_entry` without it: the slot is an extra slot. -/
theorem slotInv_evict (hl : ListInv cfg s t.entries) (h : SlotInv cfg s extra t.toSeqState)
    {n : TailNode} (hn : n ∈ t.entries) :
    SlotInv cfg s (n.slot :: extra) (t.eraseEntry cfg s n false).toSeqState := by
  have hm := mem_slots_erase hl h hn
  have hnx : n.slot ∉ extra := fun hx => h.disjoint _ hx (mem_map_of_mem hn)
  refine
    { slots := ?_
      extraNodup := nodup_cons.mpr ⟨hnx, h.extraNodup⟩
      extraArena := fun x hx => ?_
      disjoint := fun x hx hx' => ?_
      used := fun l hlt => ?_ }
  · rw [eraseEntry_entries]
    exact h.slots.sublist (filter_sublist.map _)
  · rcases mem_cons.mp hx with rfl | hx
    · exact hl.arena n hn
    · exact h.extraArena x hx
  · rw [eraseEntry_entries, hm] at hx'
    rcases mem_cons.mp hx with rfl | hx
    · exact hx'.2 rfl
    · exact h.disjoint x hx hx'.1
  · rw [eraseEntry_entries, hm, mem_cons]
    simp only [eraseEntry, Bool.false_eq_true, if_false]
    rw [h.used l hlt]
    by_cases e : slotOf cfg s l = n.slot
    · have hs : n.slot ∈ t.entries.map (·.slot) := mem_map_of_mem hn
      rw [e]
      exact ⟨fun _ => .inr (.inl rfl), fun _ => .inl hs⟩
    · simp [e]

theorem slotInv_popFront (hl : ListInv cfg s t.entries) (h : SlotInv cfg s extra t.toSeqState) :
    SlotInv cfg s extra (popFront cfg s t).toSeqState := by
  cases e : t.entries with
  | nil => simpa [popFront, e] using h
  | cons n ns =>
    rw [popFront_eq hl e]
    exact slotInv_eraseEntry hl h (by simp [e])

theorem slotInv_trim (hl : ListInv cfg s t.entries) (h : SlotInv cfg s extra t.toSeqState)
    (limit : Nat) : SlotInv cfg s extra (trim cfg s limit t).toSeqState := by
  refine (trim_induction (P := fun t => ListInv cfg s t.entries ∧
    SlotInv cfg s extra t.toSeqState) (fun t ⟨hl, h⟩ => ⟨?_, slotInv_popFront hl h⟩) ⟨hl, h⟩
    limit).2
  rw [popFront_entries]
  exact hl.sublist (tail_sublist _)

/-- Releasing the extra slots. -/
theorem slotInv_releaseExtra (h : SlotInv cfg s extra t.toSeqState) :
    SlotInv cfg s [] (t.releaseAll cfg s extra).toSeqState where
  slots := by rw [releaseAll_entries]; exact h.slots
  extraNodup := nodup_nil
  extraArena := by simp
  disjoint := by simp
  used l hl := by
    rw [releaseAll_used h.extraArena, h.used l hl, releaseAll_entries]
    have hd := h.disjoint (slotOf cfg s l)
    simp only [not_mem_nil, or_false]
    exact ⟨fun ⟨hu, hn⟩ => hu.resolve_right hn, fun hu => ⟨.inl hu, fun hx => hd hx hu⟩⟩

/-- Releasing and erasing all entries. -/
theorem slotInv_dropAll (hl : ListInv cfg s t.entries) (h : SlotInv cfg s extra t.toSeqState) :
    SlotInv cfg s extra (t.dropAll cfg s).toSeqState := by
  refine h.sublist (nil_sublist _) fun l hlt => ?_
  simp only [dropAll, map_nil, not_mem_nil, false_or]
  rw [releaseAll_used (arena_map hl), h.used l hlt]
  constructor
  · rintro ⟨hu | hx, hn⟩
    · exact absurd hu hn
    · exact hx
  · intro hx
    exact ⟨.inr hx, h.disjoint _ hx⟩

/-! ## The operations -/

variable {identity : TailIdentity} {position : Int}

theorem slotInv_commitNew (hE : EntryInv cfg s t) (h : SlotInv cfg s extra t.toSeqState)
    {inBatch : Bool} {ordinal : Nat}
    (e : t.commitNew cfg s inBatch identity position ordinal = (t', .ok ()))
    (hE' : identity.key ∉ t.entries.map (·.key)) : SlotInv cfg s extra t'.toSeqState := by
  unfold commitNew at e
  split at e
  · cases e
  · next t1 x ht =>
    obtain ⟨hE1, hx, hsub⟩ := entryInv_takeSlot hE ht
    have h1 : SlotInv cfg s (x :: extra) t1.toSeqState := by
      rcases takeSlot_cases cfg s inBatch t with ⟨v, ns, he, -, -, hv⟩ | ⟨-, ha⟩
      · rw [hv] at ht
        obtain ⟨rfl, hx⟩ := Prod.mk.inj ht
        obtain rfl : v.slot = x := by simpa using hx
        exact slotInv_evict hE.toListInv h (by simp [he])
      · rw [ha] at ht
        rcases acquire_cases cfg s t with ⟨l, hl, hf, hq⟩ | hq
        · rw [hq] at ht
          obtain ⟨rfl, hx⟩ := Prod.mk.inj ht
          obtain rfl : slotOf cfg s l = x := by simpa using hx
          exact slotInv_acquire h hl hf
        · rw [hq] at ht
          cases ht
    let n : TailNode := ⟨⟨identity, position, ordinal, x⟩, fresh t1.entries⟩
    have ha : SlotInv cfg s extra (t1.addEntry ⟨identity, position, ordinal, x⟩).toSeqState :=
      SlotInv.cons (n := n) h1 (addEntry_perm _) rfl
    have h2 : SlotInv cfg s extra
        (recover cfg (t1.addEntry ⟨identity, position, ordinal, x⟩)).toSeqState :=
      ha.congr recover_entries recover_used
    have hl2 : ListInv cfg s
        (recover cfg (t1.addEntry ⟨identity, position, ordinal, x⟩)).entries := by
      rw [recover_entries]
      refine (entryInv_addEntry (e := ⟨identity, position, ordinal, x⟩) hE1 hx
        fun hm => ?_).toListInv
      exact hE' ((hsub.map _).subset hm)
    cases e
    split
    · exact h2
    · exact slotInv_trim hl2 h2 _

theorem slotInv_commit (hE : EntryInv cfg s t) (h : SlotInv cfg s extra t.toSeqState)
    {inBatch : Bool} {ordinal : Nat}
    (e : t.commit cfg s inBatch identity position ordinal = (t', .ok ())) :
    SlotInv cfg s extra t'.toSeqState := by
  unfold commit at e
  cases hf : t.find identity.key with
  | none =>
    rw [hf] at e
    exact slotInv_commitNew hE h e ((find_eq_none hE).mp hf)
  | some d =>
    rw [hf] at e
    obtain ⟨hd, hk⟩ := (find_eq_some hE).mp hf
    simp only at e
    split at e
    · cases e
      have hr := Reposition.ite (fun m => m.id = d.id) (fun _ => position) (fun _ => ordinal)
      have hp := perm_sort (t.entries.map fun m =>
        if m.id = d.id then { m with position := position, ordinal := ordinal } else m)
      let t1 : SeqTail := { t with entries := sort (t.entries.map fun m =>
        if m.id = d.id then { m with position := position, ordinal := ordinal } else m) }
      have h1 : SlotInv cfg s extra t1.toSeqState := by
        refine h.perm ((hp.map _).trans ?_) rfl
        rw [hr.map_slot]
      exact slotInv_trim (t := t1) ((hE.toListInv.reposition hr).perm hp) h1 _
    · have hE1 := entryInv_eraseEntry hE hd true
      refine slotInv_commitNew hE1 (slotInv_eraseEntry hE.toListInv h hd) e fun hm => ?_
      obtain ⟨m, hm, hmk⟩ := mem_map.mp hm
      simp only [eraseEntry_entries, mem_filter, decide_eq_true_eq] at hm
      exact hm.2 (by rw [hE.eq_of_key hm.1 hd (by rw [hmk, hk])])

theorem slotInv_recycle (hE : EntryInv cfg s t) (h : SlotInv cfg s extra t.toSeqState)
    (stream cell generation : Nat) :
    SlotInv cfg s extra (t.recycle cfg s stream cell generation).1.toSeqState := by
  unfold recycle
  cases hf : t.find (stream, cell) with
  | none => exact h
  | some d =>
    simp only
    split
    · exact slotInv_eraseEntry hE.toListInv h ((find_eq_some hE).mp hf).1
    · exact h

theorem slotInv_seqRm (hl : ListInv cfg s t.entries) (h : SlotInv cfg s extra t.toSeqState)
    (p0 p1 : Int) : SlotInv cfg s extra (t.seqRm cfg s p0 p1).1.toSeqState := by
  have h1 := slotInv_eraseWhere hl h fun n => decide (n.toTailEntry.InRange p0 p1)
  have he := rebuildIndex_state
    (t := t.eraseWhere cfg s fun n => decide (n.toTailEntry.InRange p0 p1))
  rw [← he] at h1
  unfold seqRm
  split
  · next hr => rw [hr] at h1; exact h1
  · next hr =>
    rw [hr] at h1
    simp only
    split
    · exact h1.congr rfl rfl
    · exact h1

theorem slotInv_seqRmCell (hl : ListInv cfg s t.entries) (h : SlotInv cfg s extra t.toSeqState)
    (stream cell : Nat) : SlotInv cfg s extra (t.seqRmCell cfg s stream cell).1.toSeqState :=
  slotInv_eraseWhere hl h fun n => decide (n.key = (stream, cell))

theorem slotInv_invalidateSlots (hl : ListInv cfg s t.entries)
    (h : SlotInv cfg s extra t.toSeqState) (slots : List Int) (flags : Nat) :
    SlotInv cfg s extra (t.invalidateSlots cfg s slots flags).1.toSeqState := by
  have h1 := slotInv_eraseWhere hl h fun n => decide (n.slot ∈ slots)
  have he := rebuildIndex_state (t := t.eraseWhere cfg s fun n => decide (n.slot ∈ slots))
  rw [← he] at h1
  unfold invalidateSlots
  split
  · split
    · next hr => rw [hr] at h1; exact h1
    · next hr => rw [hr] at h1; exact h1.congr rfl rfl
  · exact h

theorem slotInv_resort (hl : ListInv cfg s t.entries) (h : SlotInv cfg s extra t.toSeqState)
    (degraded : Bool) : SlotInv cfg s extra (t.resort cfg s degraded).1.toSeqState := by
  have hp := perm_sort t.entries
  have h1 := slotInv_trim (t := { t with entries := sort t.entries }) (hl.perm hp)
    (h.perm (hp.map _) rfl) cfg.limit
  have he := rebuildIndex_state (t := trim cfg s cfg.limit { t with entries := sort t.entries })
  rw [← he] at h1
  unfold resort
  split
  · next hr => rw [hr] at h1; exact h1
  · next hr =>
    rw [hr] at h1
    simp only
    split
    · exact h1.congr rfl rfl
    · exact h1

theorem slotInv_movePositions (h : SlotInv cfg s extra t.toSeqState) (ids : List TailIdentity)
    (f : Int → Int) : SlotInv cfg s extra (t.movePositions ids f).toSeqState :=
  h.perm (by rw [movePositions, (reposition_movePositions ids f).map_slot]) rfl

theorem slotInv_seqAdd (hl : ListInv cfg s t.entries) (h : SlotInv cfg s extra t.toSeqState)
    (ids : List TailIdentity) (shift : Int) (degraded : Bool) :
    SlotInv cfg s extra (t.seqAdd cfg s ids shift degraded).1.toSeqState := by
  unfold seqAdd
  split
  · have hl1 := listInv_movePositions hl ids (· + shift)
    refine slotInv_resort ?_ (slotInv_eraseWhere hl1 (slotInv_movePositions h ids _) _) degraded
    rw [eraseWhere_entries]
    exact hl1.sublist filter_sublist
  · exact h

theorem slotInv_seqDiv (hl : ListInv cfg s t.entries) (h : SlotInv cfg s extra t.toSeqState)
    (ids : List TailIdentity) (divisor : Int) (degraded : Bool) :
    SlotInv cfg s extra (t.seqDiv cfg s ids divisor degraded).1.toSeqState := by
  unfold seqDiv
  split
  · exact slotInv_resort (listInv_movePositions hl ids _) (slotInv_movePositions h ids _) degraded
  · exact h

theorem slotInv_restore (h : SlotInv cfg s extra t.toSeqState) {ordinal l : Nat} {x : Int}
    (hl : l < cfg.arenaStride) (e : t.restore cfg s identity position ordinal l = (t', .ok x)) :
    SlotInv cfg s extra t'.toSeqState := by
  unfold restore at e
  split at e
  · cases e
  · next hc =>
    push Not at hc
    have hfree : t.used l = false := by simpa using hc.2.1
    cases e
    let n : TailNode :=
      ⟨⟨identity, position, ordinal, slotOf cfg s l⟩, fresh t.entries⟩
    exact SlotInv.cons (n := n) (slotInv_acquire (c := t.cursor) h hl hfree)
      (perm_insertBefore t.entries n) rfl

end SeqTail
end BeeLlama
