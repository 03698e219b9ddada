import BeeLlama.Kv.TailFrame
import BeeLlama.Kv.TailPlan

/-!
# The arenas of the exact tail do not run out

The layouts give each sequence an arena with room for its newest tokens and, in the standard store,
for the tokens of a batch. So `acquire` finds a free slot in every run of batches, removals, shifts
and copies (`Room`):

* A slot is used if and only if an entry is on it (`SlotInv` without extra slots), so an arena with
  fewer entries than slots has a free one (`acquire_room`).
* `begin_batch` trims the standard store to `n_tokens`, and a batch adds at most `n_ubatch` entries
  to a sequence. The compact store evicts.
* A copy takes the slots of the entries that it replaces first (`assignSlots_room`).
-/

namespace BeeLlama

open List Nat SeqTail

section Acquire

variable {cfg : TailCfg} {s : Nat} {extra : List Int}

/-- The scan of `acquire` comes to every slot. -/
theorem exists_offset {c n l : Nat} (hl : l < n) : ∃ o, o < n ∧ (c + o) % n = l := by
  have hc := div_add_mod c n
  have hr := mod_lt c (zero_lt_of_lt hl)
  by_cases h : c % n ≤ l
  · refine ⟨l - c % n, by omega, ?_⟩
    have e : c + (l - c % n) = l + n * (c / n) := by omega
    rw [e, add_mul_mod_self_left, mod_eq_of_lt hl]
  · refine ⟨l + n - c % n, by omega, ?_⟩
    have e : c + (l + n - c % n) = l + n * (c / n + 1) := by
      rw [Nat.mul_add]
      omega
    rw [e, add_mul_mod_self_left, mod_eq_of_lt hl]

namespace SeqTail

variable {t t' : SeqTail}

/-- `acquire` fails only if all slots are used. -/
theorem acquire_full {er : TailError} (e : (t.acquire cfg s).2 = .error er) :
    ∀ l, l < cfg.arenaStride → t.used l = true := by
  intro l hl
  unfold acquire at e
  split at e
  · cases e
  · next hno =>
    obtain ⟨o, ho, hol⟩ := @exists_offset t.cursor _ _ hl
    have := find?_eq_none.mp hno o (mem_range.mpr ho)
    rw [hol] at this
    simpa using this

/-- An arena with fewer entries and extra slots than slots has a free one. -/
theorem acquire_room (h : SlotInv cfg s extra t.toSeqState)
    (hroom : t.entries.length + extra.length < cfg.arenaStride) :
    ∃ l, l < cfg.arenaStride ∧ t.used l = false ∧ t.acquire cfg s =
      ({ t with used := Function.update t.used l true, cursor := (l + 1) % cfg.arenaStride },
        .ok (slotOf cfg s l)) := by
  rcases acquire_cases cfg s t with hok | hno
  · exact hok
  · have hfull := acquire_full (congrArg Prod.snd hno)
    have hsub : (List.range cfg.arenaStride).map (slotOf cfg s) ⊆
        t.entries.map (·.slot) ++ extra := fun x hx => by
      obtain ⟨l, hl, rfl⟩ := mem_map.mp hx
      have hl := mem_range.mp hl
      exact mem_append.mpr ((h.used l hl).mp (hfull l hl))
    have hnodup : ((List.range cfg.arenaStride).map (slotOf cfg s)).Nodup :=
      nodup_range.map fun _ _ e => slotOf_inj.mp e
    have hle := (subperm_of_subset hnodup hsub).length_le
    simp only [length_map, length_range, length_append] at hle
    omega

variable {inBatch : Bool}

/-- `commit` has a slot for the new entry: it evicts one, or there is a free one. -/
theorem takeSlot_room (h : SlotInv cfg s [] t.toSeqState) (hlim : cfg.limit ≤ cfg.arenaStride)
    (hpos : 0 < cfg.limit)
    (hin : (cfg.compactStorage = true ∨ inBatch = false) ∨ t.entries.length < cfg.arenaStride) :
    ∃ t₁ x, t.takeSlot cfg s inBatch = (t₁, .ok x) := by
  rcases takeSlot_cases cfg s inBatch t with ⟨v, ns, -, -, -, e⟩ | ⟨hno, e⟩
  · exact ⟨_, _, e⟩
  · have hroom : t.entries.length + ([] : List Int).length < cfg.arenaStride := by
      rcases hin with hin | hlt
      · have hlt : ¬ (cfg.limit ≤ t.entries.length ∧ t.entries ≠ []) := fun hc => hno ⟨hin, hc⟩
        by_cases he : t.entries = []
        · rw [he]
          exact Nat.lt_of_lt_of_le hpos hlim
        · exact Nat.lt_of_lt_of_le (Nat.not_le.mp fun hle => hlt ⟨hle, he⟩) hlim
      · exact hlt
    obtain ⟨l, -, -, ha⟩ := acquire_room h hroom
    rw [e, ha]
    exact ⟨_, _, rfl⟩

theorem commitNew_room (h : SlotInv cfg s [] t.toSeqState) (hlim : cfg.limit ≤ cfg.arenaStride)
    (hpos : 0 < cfg.limit)
    (hin : (cfg.compactStorage = true ∨ inBatch = false) ∨ t.entries.length < cfg.arenaStride)
    (identity : TailIdentity) (position : Int) (ordinal : Nat) :
    ∃ t₁, t.commitNew cfg s inBatch identity position ordinal = (t₁, .ok ()) := by
  obtain ⟨t₁, x, e⟩ := takeSlot_room h hlim hpos hin
  unfold commitNew
  rw [e]
  exact ⟨_, rfl⟩

theorem commit_room (hE : EntryInv cfg s t) (h : SlotInv cfg s [] t.toSeqState)
    (hlim : cfg.limit ≤ cfg.arenaStride) (hpos : 0 < cfg.limit)
    (hin : (cfg.compactStorage = true ∨ inBatch = false) ∨ t.entries.length < cfg.arenaStride)
    (identity : TailIdentity) (position : Int) (ordinal : Nat) :
    ∃ t₁, t.commit cfg s inBatch identity position ordinal = (t₁, .ok ()) := by
  unfold commit
  cases hf : t.find identity.key with
  | none => exact commitNew_room h hlim hpos hin identity position ordinal
  | some d =>
    obtain ⟨hd, -⟩ := (find_eq_some hE).mp hf
    dsimp only
    split
    · exact ⟨_, rfl⟩
    · have hlt := eraseEntry_length_lt cfg s hd true
      exact commitNew_room (slotInv_eraseEntry hE.toListInv h hd) hlim hpos
        (hin.imp_right fun hl => by omega) identity position ordinal

/-- A `commit` adds at most one entry. -/
theorem takeSlot_length {x : Int} (e : t.takeSlot cfg s inBatch = (t', .ok x)) :
    t'.entries.length ≤ t.entries.length := by
  rcases takeSlot_cases cfg s inBatch t with ⟨v, ns, -, -, -, hv⟩ | ⟨-, ha⟩
  · rw [hv] at e
    cases e
    rw [eraseEntry_entries]
    exact length_filter_le _ _
  · rw [ha] at e
    rcases acquire_cases cfg s t with ⟨l, -, -, hq⟩ | hq
    · rw [hq] at e
      cases e
      exact Nat.le_refl _
    · rw [hq] at e
      cases e

theorem commitNew_length {identity : TailIdentity} {position : Int}
    {ordinal : Nat} (e : t.commitNew cfg s inBatch identity position ordinal = (t', .ok ())) :
    t'.entries.length ≤ t.entries.length + 1 := by
  unfold commitNew at e
  split at e
  · cases e
  · next t1 slot ht =>
    have hlen := takeSlot_length ht
    have hadd : (recover cfg (t1.addEntry ⟨identity, position, ordinal, slot⟩)).entries.length =
        t1.entries.length + 1 := by
      rw [recover_entries, (addEntry_perm _).length_eq, length_cons]
    cases e
    split
    · omega
    · have := (trim_sublist cfg s
        (recover cfg (t1.addEntry ⟨identity, position, ordinal, slot⟩)) cfg.limit).length_le
      omega

theorem commit_length (hE : EntryInv cfg s t) {identity : TailIdentity}
    {position : Int} {ordinal : Nat}
    (e : t.commit cfg s inBatch identity position ordinal = (t', .ok ())) :
    t'.entries.length ≤ t.entries.length + 1 := by
  unfold commit at e
  cases hf : t.find identity.key with
  | none =>
    rw [hf] at e
    exact commitNew_length e
  | some d =>
    rw [hf] at e
    obtain ⟨hd, -⟩ := (find_eq_some hE).mp hf
    dsimp only at e
    split at e
    · cases e
      have hle := (trim_sublist cfg s { t with entries := TailNode.sort (t.entries.map fun m =>
        if m.id = d.id then { m with position := position, ordinal := ordinal } else m) }
        cfg.limit).length_le
      rw [(TailNode.perm_sort _).length_eq, length_map] at hle
      exact le_succ_of_le hle
    · have hlt := eraseEntry_length_lt cfg s hd true
      have := commitNew_length e
      omega

/-- The slot that `commit` returns: none, or one of the arena. -/
theorem retained_cases (hE : EntryInv cfg s t) (identity : TailIdentity) :
    t.retained identity = LLAMA_KV_TAIL_BODY_SLOT ∨ InArena cfg s (t.retained identity) := by
  unfold retained
  cases hf : t.find identity.key with
  | none => exact .inl rfl
  | some n =>
    dsimp only
    split
    · exact .inr (hE.arena n ((find_eq_some hE).mp hf).1)
    · exact .inl rfl

end SeqTail

end Acquire

/-! ## Copies -/

namespace TailStore

section Copy

variable {cfg : TailCfg} {d : Nat}

/-- The loop of `prepare_seq_cp` has a slot for each copied entry: while none is reusable, there are
no more slots in use than entries retained so far and still to come. -/
theorem assignSlots_room (hlim : cfg.limit ≤ cfg.arenaStride) (cs : List Candidate) :
    ∀ (reusable : List Int) (a : Assigned) (t : SeqTail), SlotInv cfg d a.acquired t.toSeqState →
      t.entries.length + a.acquired.length ≤
        a.destination.length + reusable.length + (keptSlots cs).length →
      a.destination.length + cs.length ≤ cfg.limit →
      ∃ t' a', assignSlots cfg d cs reusable a t = (t', .ok a') := by
  induction cs with
  | nil =>
    intro reusable a t _ _ _
    exact ⟨t, a, rfl⟩
  | cons c cs ih =>
    intro reusable a t h hused hlen
    have hdest : ∀ slot, (a.copy c slot).destination.length = a.destination.length + 1 :=
      fun slot => by simp [Assigned.copy]
    have hle : (keptSlots cs).length ≤ cs.length := by
      unfold keptSlots
      rw [length_map]
      exact length_filter_le _ _
    rw [length_cons] at hlen
    unfold assignSlots
    split
    · next hc =>
      have hk : keptSlots (c :: cs) = keptSlots cs := by simp [keptSlots, hc]
      rw [hk] at hused
      split
      · next slot hl =>
        obtain ⟨rest, rfl⟩ := getLast?_eq_some_iff.mp hl
        rw [dropLast_concat]
        rw [length_append, length_singleton] at hused
        refine ih rest (a.copy c slot) t h ?_ ?_
        · show t.entries.length + a.acquired.length ≤ _
          rw [hdest]
          omega
        · rw [hdest]
          omega
      · next hl =>
        obtain rfl := getLast?_eq_none_iff.mp hl
        rw [length_nil] at hused
        obtain ⟨l, hlt, hf, hq⟩ := acquire_room h (by omega)
        rw [hq]
        have hi := SlotInv.extra_perm (slotInv_acquire
          (c := (l + 1) % cfg.arenaStride) h hlt hf)
          (perm_append_singleton (slotOf cfg d l) a.acquired).symm
        refine ih [] { a.copy c (slotOf cfg d l) with
          acquired := a.acquired ++ [slotOf cfg d l] } _ hi ?_ ?_
        · show t.entries.length + (a.acquired ++ [slotOf cfg d l]).length ≤
            (a.copy c (slotOf cfg d l)).destination.length + 0 + _
          rw [hdest, length_append, length_singleton]
          omega
        · show (a.copy c (slotOf cfg d l)).destination.length + _ ≤ _
          rw [hdest]
          omega
    · next hc =>
      have hk : keptSlots (c :: cs) = c.entry.slot :: keptSlots cs := by simp [keptSlots, hc]
      rw [hk, length_cons] at hused
      refine ih reusable { a with destination := a.destination ++ [c.entry] } t h ?_ ?_
      · show t.entries.length + a.acquired.length ≤ (a.destination ++ [c.entry]).length + _ + _
        rw [length_append, length_singleton]
        omega
      · show (a.destination ++ [c.entry]).length + _ ≤ _
        rw [length_append, length_singleton]
        omega

/-- The copies lead from the slots of copied candidates to slots of the destination. -/
theorem assignSlots_copies (cs : List Candidate) :
    ∀ (reusable : List Int) (a : Assigned) (t t' : SeqTail) (a' : Assigned),
      (∀ c ∈ a.copies, c.dstSlot ∈ a.destination.map (·.slot)) →
      assignSlots cfg d cs reusable a t = (t', .ok a') →
      ∀ c ∈ a'.copies, c.dstSlot ∈ a'.destination.map (·.slot) ∧
        (c ∈ a.copies ∨ ∃ k ∈ cs, k.copied = true ∧ c.srcSlot = k.srcSlot) := by
  induction cs with
  | nil =>
    intro reusable a t t' a' h e c hc
    unfold assignSlots at e
    obtain rfl := Except.ok.inj (Prod.mk.inj e).2
    exact ⟨h c hc, .inl hc⟩
  | cons k cs ih =>
    intro reusable a t t' a' h e c hc
    have hcopy : ∀ slot, ∀ c ∈ (a.copy k slot).copies,
        c.dstSlot ∈ (a.copy k slot).destination.map (·.slot) := fun slot c hc => by
      simp only [Assigned.copy, mem_append, mem_singleton, map_append, map_cons, map_nil] at hc ⊢
      rcases hc with hc | rfl
      · exact .inl (h c hc)
      · exact .inr rfl
    have hmem : ∀ slot, k.copied = true → (c ∈ (a.copy k slot).copies ∨
        ∃ k ∈ cs, k.copied = true ∧ c.srcSlot = k.srcSlot) →
        c ∈ a.copies ∨ ∃ k' ∈ k :: cs, k'.copied = true ∧ c.srcSlot = k'.srcSlot :=
      fun slot hk hor => by
        rcases hor with hin | ⟨k', hk', hsrc⟩
        · rcases mem_append.mp hin with hin | hin
          · exact .inl hin
          · rw [mem_singleton.mp hin]
            exact .inr ⟨k, mem_cons_self, hk, rfl⟩
        · exact .inr ⟨k', mem_cons_of_mem _ hk', hsrc⟩
    unfold assignSlots at e
    split at e
    · next hk =>
      split at e
      · next slot _ =>
        exact (ih _ _ _ _ _ (hcopy slot) e c hc).imp_right (hmem slot hk)
      · rcases acquire_cases cfg d t with ⟨l, -, -, hq⟩ | hq
        · rw [hq] at e
          exact (ih reusable { a.copy k (slotOf cfg d l) with
            acquired := a.acquired ++ [slotOf cfg d l] } _ _ _ (hcopy (slotOf cfg d l)) e c
            hc).imp_right (hmem (slotOf cfg d l) hk)
        · rw [hq] at e
          cases e
    · refine (ih _ _ _ _ _ (fun c hc => ?_) e c hc).imp_right fun hor => ?_
      · rw [map_append]
        exact mem_append_left _ (h c hc)
      · rcases hor with hin | ⟨k', hk', hsrc⟩
        · exact .inl hin
        · exact .inr ⟨k', mem_cons_of_mem _ hk', hsrc⟩

variable {st st' : TailStore}

/-- A copied candidate comes from an entry of the source. -/
theorem retained_srcSlot {src dst srcStream dstStream : Nat} {p0 p1 : Int} {k : Candidate}
    (hk : k ∈ (st.retainedCandidates src dst srcStream dstStream p0 p1).1) (hc : k.copied = true) :
    ∃ n ∈ (st.seqs src).entries, k.srcSlot = n.slot := by
  have hmem : k ∈
      candidates (st.seqs src).entries (st.seqs dst).entries srcStream dstStream p0 p1 :=
    mem_of_mem_drop hk
  unfold candidates at hmem
  rw [mem_insertionSort, mem_append, mem_map, mem_map] at hmem
  rcases hmem with ⟨n, -, rfl⟩ | ⟨n, hn, rfl⟩
  · cases hc
  · exact ⟨n, mem_of_mem_filter hn, rfl⟩

/-- The slots of a copy are in the arenas of its sequences. -/
theorem prepareSeqCp_slots {src dst p0 p1 : Int} {srcStream dstStream : Nat}
    {copies : List TailSlotCopy} (h : st.Inv)
    (e : st.prepareSeqCp src dst srcStream dstStream p0 p1 = (st', .ok copies)) :
    ∀ c ∈ copies, (∃ s, s < st.cfg.nSeqMax ∧ InArena st.cfg s c.srcSlot) ∧
      ∃ s, s < st.cfg.nSeqMax ∧ InArena st.cfg s c.dstSlot := by
  unfold TailStore.prepareSeqCp at e
  split at e
  · obtain rfl := Except.ok.inj (Prod.mk.inj e).2
    exact fun c hc => by cases hc
  · next hv =>
    simp only [Bool.or_eq_true, Bool.not_eq_true', not_or, Bool.not_eq_false] at hv
    have hs := (validSeq_iff.mp hv.1.1).2
    have hd := (validSeq_iff.mp hv.1.2).2
    split at e
    · cases e
    · dsimp only at e
      split at e
      · cases e
      · next t a ha =>
        obtain rfl := Except.ok.inj (Prod.mk.inj e).2
        have harena := arena_map (h.seq _ hd).toListInv
        obtain ⟨-, -, hdest, -⟩ := assignSlots_entries _ _ {} _ (fun x hx => by
          simp only [map_nil, nil_append, mem_append] at hx
          rcases hx with hx | hx
          · rw [retainedCandidates_reusable] at hx
            exact harena x (mem_of_mem_filter hx)
          · exact harena x ((keptSlots_retained ..).subset hx)) _ _ ha
        intro c hc
        obtain ⟨hin, hsrc⟩ := assignSlots_copies _ _ {} _ _ _ (fun c hc => by cases hc) ha c hc
        refine ⟨⟨_, hs, ?_⟩, _, hd, hdest _ hin⟩
        rcases hsrc with hc | ⟨k, hk, hcopied, hsrc⟩
        · cases hc
        · obtain ⟨n, hn, hslot⟩ := retained_srcSlot hk hcopied
          rw [hsrc, hslot]
          exact (h.seq _ hs).arena n hn

/-- The slots of the destination are those of the survivors and the reusable ones. -/
theorem retained_room (h : SlotInv st.cfg d [] (st.seqs d).toSeqState)
    (src srcStream dstStream : Nat) (p0 p1 : Int) :
    (st.seqs d).entries.length ≤
      (st.retainedCandidates src d srcStream dstStream p0 p1).2.length +
        (keptSlots (st.retainedCandidates src d srcStream dstStream p0 p1).1).length := by
  rw [retainedCandidates_reusable]
  generalize keptSlots (st.retainedCandidates src d srcStream dstStream p0 p1).1 = kept
  have hsub : (st.seqs d).entries.map (·.slot) ⊆
      ((st.seqs d).entries.map (·.slot)).filter (fun x => decide (x ∉ kept)) ++ kept :=
    fun x hx => by
      by_cases hk : x ∈ kept
      · exact mem_append_right _ hk
      · exact mem_append_left _ (mem_filter.mpr ⟨hx, by simpa using hk⟩)
  have hle := (subperm_of_subset h.slots hsub).length_le
  rwa [length_append, length_map] at hle

/-- `prepare_seq_cp` finds its slots. -/
theorem prepareSeqCp_room (ho : st.Owned) (hf : Fits st.cfg) (hidle : st.pendingSeqCp = none)
    (src dst : Int) (srcStream dstStream : Nat) (p0 p1 : Int) :
    ∃ st' copies, st.prepareSeqCp src dst srcStream dstStream p0 p1 = (st', .ok copies) := by
  unfold TailStore.prepareSeqCp
  split
  · exact ⟨_, _, rfl⟩
  · next hv =>
    simp only [Bool.or_eq_true, Bool.not_eq_true', not_or, Bool.not_eq_false] at hv
    have hd := (validSeq_iff.mp hv.1.2).2
    have hslot := ho.seq _ hd
    rw [acquired_none hidle] at hslot
    rw [hidle, if_neg (by simp)]
    obtain ⟨t, a, e⟩ := assignSlots_room hf.limit
      (st.retainedCandidates src.toNat dst.toNat srcStream dstStream p0 p1).1
      (st.retainedCandidates src.toNat dst.toNat srcStream dstStream p0 p1).2 {}
      (st.seqs dst.toNat) hslot
      (by simpa using retained_room hslot src.toNat srcStream dstStream p0 p1)
      (by simpa using retainedCandidates_length)
    dsimp only
    rw [e]
    exact ⟨_, _, rfl⟩

end Copy

end TailStore
end BeeLlama
