import BeeLlama.Kv.TailSeq

/-!
# The entries of one sequence's tail

`ListInv` is about the list alone: the addresses and the cells of the entries differ, and the slots
lie in the arena of the sequence. `Indexed` says that the index finds each entry by its cell,
`Sorted` that the list is in order; `EntryInv` is the three together. An operation takes the list
through states where one of the three is not yet true again (moved positions, a stale index).

Which slots are taken is the subject of `BeeLlama/Kv/TailSlots.lean`; nothing here depends on it.
-/

namespace BeeLlama

open List Function Nat TailNode

/-! ## The order of the entries -/

namespace TailEntry

variable {a b c : TailEntry}

theorem Le.trans (h : a.Le b) (h' : b.Le c) : a.Le c := by
  simp only [Le, Before] at *; omega

theorem Le.total (a b : TailEntry) : a.Le b ∨ b.Le a := by
  simp only [Le, Before]; omega

theorem Before.le (h : a.Before b) : a.Le b := by
  simp only [Le, Before] at *; omega

theorem le_of_not_before (h : ¬ a.Before b) : b.Le a := h

end TailEntry

/-- The list is in order. -/
def Sorted (ns : List TailNode) : Prop := ns.Pairwise fun a b => a.toTailEntry.Le b.toTailEntry

theorem Sorted.sort (ns : List TailNode) : Sorted (TailNode.sort ns) :=
  haveI : Std.Total fun a b : TailNode => a.toTailEntry.Le b.toTailEntry :=
    ⟨fun _ _ => TailEntry.Le.total _ _⟩
  haveI : IsTrans TailNode fun a b : TailNode => a.toTailEntry.Le b.toTailEntry :=
    ⟨fun _ _ _ => TailEntry.Le.trans⟩
  pairwise_insertionSort _ ns

theorem TailNode.perm_sort (ns : List TailNode) : (TailNode.sort ns).Perm ns :=
  perm_insertionSort _ ns

theorem TailNode.perm_insertBefore (ns : List TailNode) (n : TailNode) :
    (TailNode.insertBefore ns n).Perm (n :: ns) :=
  perm_orderedInsert _ n ns

theorem TailNode.perm_insert (ns : List TailNode) (n : TailNode) :
    (TailNode.insert ns n).Perm (n :: ns) := by
  unfold insert
  cases ns.getLast? with
  | none => exact perm_append_singleton n ns
  | some b =>
    simp only
    split
    · exact perm_append_singleton n ns
    · exact perm_insertBefore ns n

theorem Sorted.insertBefore {ns : List TailNode} (h : Sorted ns) (n : TailNode) :
    Sorted (TailNode.insertBefore ns n) := by
  induction ns with
  | nil => simp [TailNode.insertBefore, Sorted]
  | cons m ns ih =>
    obtain ⟨hm, hns⟩ := pairwise_cons.mp h
    by_cases hb : n.toTailEntry.Before m.toTailEntry
    · rw [TailNode.insertBefore, orderedInsert_cons, if_pos hb]
      refine pairwise_cons.mpr ⟨fun x hx => ?_, h⟩
      rcases mem_cons.mp hx with rfl | hx
      · exact hb.le
      · exact hb.le.trans (hm x hx)
    · rw [TailNode.insertBefore, orderedInsert_cons, if_neg hb]
      refine pairwise_cons.mpr ⟨fun x hx => ?_, ih hns⟩
      rcases mem_cons.mp ((perm_insertBefore ns n).mem_iff.mp hx) with rfl | hx
      · exact TailEntry.le_of_not_before hb
      · exact hm x hx

theorem Sorted.insert {ns : List TailNode} (h : Sorted ns) (n : TailNode) :
    Sorted (TailNode.insert ns n) := by
  unfold TailNode.insert
  cases e : ns.getLast? with
  | none =>
    have : ns = [] := getLast?_eq_none_iff.mp e
    subst this
    simp [Sorted]
  | some b =>
    simp only
    split
    · next hb =>
      refine pairwise_append.mpr ⟨h, pairwise_singleton _ _, fun x hx y hy => ?_⟩
      obtain rfl := mem_singleton.mp hy
      -- the last entry is the greatest
      obtain ⟨ms, rfl⟩ := getLast?_eq_some_iff.mp e
      rcases mem_append.mp hx with hx | hx
      · exact ((pairwise_append.mp h).2.2 x hx b (by simp)).trans hb
      · obtain rfl := mem_singleton.mp hx
        exact hb
    · exact h.insertBefore n

/-! ## Slots of an arena -/

/-- The slot `l` of the arena of sequence `s`. -/
def slotOf (cfg : TailCfg) (s l : Nat) : Int := (s * cfg.arenaStride + l : Nat)

/-- The slot is one of the arena of sequence `s`. -/
def InArena (cfg : TailCfg) (s : Nat) (x : Int) : Prop :=
  ∃ l, l < cfg.arenaStride ∧ x = slotOf cfg s l

theorem slotOf_inj {cfg : TailCfg} {s l l' : Nat} : slotOf cfg s l = slotOf cfg s l' ↔ l = l' := by
  simp only [slotOf]; omega

/-- The slots of one arena are the interval `[s * stride, (s + 1) * stride)`. -/
theorem inArena_iff {cfg : TailCfg} {s : Nat} {x : Int} : InArena cfg s x ↔
    (s * cfg.arenaStride : Nat) ≤ x ∧ x < ((s + 1) * cfg.arenaStride : Nat) := by
  have e : (s + 1) * cfg.arenaStride = s * cfg.arenaStride + cfg.arenaStride := succ_mul ..
  rw [e]
  constructor
  · rintro ⟨l, hl, rfl⟩
    simp only [slotOf]
    omega
  · rintro ⟨h1, h2⟩
    exact ⟨x.toNat - s * cfg.arenaStride, by omega, by simp only [slotOf]; omega⟩

/-- Two arenas have no slot in common. -/
theorem InArena.eq {cfg : TailCfg} {s s' : Nat} {x : Int} (h : InArena cfg s x)
    (h' : InArena cfg s' x) : s = s' := by
  obtain ⟨l, hl, rfl⟩ := h
  obtain ⟨l', hl', e⟩ := h'
  simp only [slotOf] at e
  have e' : s * cfg.arenaStride + l = s' * cfg.arenaStride + l' := by omega
  have hp : 0 < cfg.arenaStride := by omega
  have h1 : (s * cfg.arenaStride + l) / cfg.arenaStride = s := by
    rw [Nat.mul_comm, mul_add_div hp, div_eq_of_lt hl, Nat.add_zero]
  have h2 : (s' * cfg.arenaStride + l') / cfg.arenaStride = s' := by
    rw [Nat.mul_comm, mul_add_div hp, div_eq_of_lt hl', Nat.add_zero]
  rw [← h1, e', h2]

/-! ## The invariants -/

/-- The addresses and the cells of the entries differ, the slots are in the arena. -/
structure ListInv (cfg : TailCfg) (s : Nat) (ns : List TailNode) : Prop where
  ids : (ns.map (·.id)).Nodup
  keys : (ns.map (·.key)).Nodup
  arena : ∀ n ∈ ns, InArena cfg s n.slot

/-- The index finds each entry by its cell. -/
def Indexed (t : SeqTail) : Prop :=
  ∀ k i, t.index k = some i ↔ ∃ n ∈ t.entries, n.key = k ∧ n.id = i

/-- The list, its order and its index. -/
structure EntryInv (cfg : TailCfg) (s : Nat) (t : SeqTail) : Prop
    extends ListInv cfg s t.entries where
  index : Indexed t
  sorted : Sorted t.entries

section ListInv

variable {cfg : TailCfg} {s : Nat} {ns ns' : List TailNode}

theorem ListInv.nil : ListInv cfg s [] := by
  constructor <;> simp

/-- The list loses entries. -/
theorem ListInv.sublist (h : ListInv cfg s ns) (hsub : ns'.Sublist ns) : ListInv cfg s ns' where
  ids := h.ids.sublist (hsub.map _)
  keys := h.keys.sublist (hsub.map _)
  arena n hn := h.arena n (hsub.subset hn)

theorem ListInv.perm (h : ListInv cfg s ns) (hp : ns'.Perm ns) : ListInv cfg s ns' where
  ids := (hp.map _).nodup_iff.mpr h.ids
  keys := (hp.map _).nodup_iff.mpr h.keys
  arena n hn := h.arena n (hp.mem_iff.mp hn)

/-- A new entry. -/
theorem ListInv.cons {n : TailNode} (h : ListInv cfg s ns) (hid : n.id ∉ ns.map (·.id))
    (hkey : n.key ∉ ns.map (·.key)) (hn : InArena cfg s n.slot) : ListInv cfg s (n :: ns) where
  ids := nodup_cons.mpr ⟨hid, h.ids⟩
  keys := nodup_cons.mpr ⟨hkey, h.keys⟩
  arena m hm := by
    rcases mem_cons.mp hm with rfl | hm
    · exact hn
    · exact h.arena m hm

/-- An entry of the list is known by its address. -/
theorem ListInv.eq_of_id (h : ListInv cfg s ns) {n m : TailNode} (hn : n ∈ ns) (hm : m ∈ ns)
    (e : n.id = m.id) : n = m :=
  inj_on_of_nodup_map h.ids hn hm e

theorem ListInv.eq_of_key (h : ListInv cfg s ns) {n m : TailNode} (hn : n ∈ ns) (hm : m ∈ ns)
    (e : n.key = m.key) : n = m :=
  inj_on_of_nodup_map h.keys hn hm e

end ListInv

/-! ## Moving positions -/

section Reposition

variable {cfg : TailCfg} {s : Nat} {f : TailNode → TailNode}

/-- The function moves entries in the order only. -/
structure Reposition (f : TailNode → TailNode) : Prop where
  id : ∀ n, (f n).id = n.id
  identity : ∀ n, (f n).identity = n.identity
  slot : ∀ n, (f n).slot = n.slot

theorem Reposition.key (hf : Reposition f) (n : TailNode) : (f n).key = n.key := by
  simp only [TailEntry.key, hf.identity n]

theorem Reposition.ite (p : TailNode → Prop) [DecidablePred p] (pos : TailNode → Int)
    (ord : TailNode → Nat) :
    Reposition fun n => if p n then { n with position := pos n, ordinal := ord n } else n := by
  refine ⟨fun n => ?_, fun n => ?_, fun n => ?_⟩ <;> split <;> rfl

theorem Reposition.map_slot (hf : Reposition f) (ns : List TailNode) :
    (ns.map f).map (·.slot) = ns.map (·.slot) := by
  rw [map_map]
  exact map_congr_left fun n _ => hf.slot n

theorem ListInv.reposition {ns : List TailNode} (h : ListInv cfg s ns) (hf : Reposition f) :
    ListInv cfg s (ns.map f) where
  ids := by
    have e : (ns.map f).map (·.id) = ns.map (·.id) := by
      rw [map_map]
      exact map_congr_left fun n _ => hf.id n
    rw [e]
    exact h.ids
  keys := by
    have e : (ns.map f).map (·.key) = ns.map (·.key) := by
      rw [map_map]
      exact map_congr_left fun n _ => hf.key n
    rw [e]
    exact h.keys
  arena n hn := by
    obtain ⟨m, hm, rfl⟩ := mem_map.mp hn
    rw [hf.slot]
    exact h.arena m hm

theorem Indexed.reposition {t t' : SeqTail} (h : Indexed t) (hf : Reposition f)
    (hp : t'.entries.Perm (t.entries.map f)) (hi : t'.index = t.index) : Indexed t' := by
  intro k i
  rw [hi, h k i]
  simp only [hp.mem_iff, mem_map]
  constructor
  · rintro ⟨n, hn, hk, e⟩
    exact ⟨f n, ⟨n, hn, rfl⟩, by rw [hf.key, hk], by rw [hf.id, e]⟩
  · rintro ⟨_, ⟨n, hn, rfl⟩, hk, e⟩
    exact ⟨n, hn, by rw [← hk, hf.key], by rw [← e, hf.id]⟩

end Reposition

/-! ## Releasing and acquiring slots -/

namespace SeqTail

variable {cfg : TailCfg} {s : Nat} {t t' : SeqTail}

@[simp] theorem release_entries (x : Int) : (t.release cfg s x).entries = t.entries := by
  unfold release; split <;> rfl

@[simp] theorem release_index (x : Int) : (t.release cfg s x).index = t.index := by
  unfold release; split <;> rfl

@[simp] theorem release_cursor (x : Int) : (t.release cfg s x).cursor = t.cursor := by
  unfold release; split <;> rfl

@[simp] theorem release_degradation (x : Int) :
    (t.release cfg s x).degradation = t.degradation := by
  unfold release; split <;> rfl

@[simp] theorem release_recovery (x : Int) : (t.release cfg s x).recovery = t.recovery := by
  unfold release; split <;> rfl

theorem release_used {x : Int} (hx : InArena cfg s x) (l : Nat) :
    (t.release cfg s x).used l = (t.used l && decide (x ≠ slotOf cfg s l)) := by
  obtain ⟨k, hk, rfl⟩ := hx
  have hn : ¬ slotOf cfg s k < 0 := by simp only [slotOf]; omega
  have hk' : (slotOf cfg s k).toNat - s * cfg.arenaStride = k := by simp only [slotOf]; omega
  rw [release, if_neg hn, hk']
  by_cases e : l = k
  · subst e; simp
  · have : slotOf cfg s k ≠ slotOf cfg s l := fun h => e (slotOf_inj.mp h).symm
    simp [update_of_ne e, this]

section ReleaseAll

variable (slots : List Int)

@[simp] theorem releaseAll_entries : (t.releaseAll cfg s slots).entries = t.entries := by
  unfold releaseAll
  induction slots generalizing t with
  | nil => rfl
  | cons x xs ih => rw [foldl_cons, ih, release_entries]

@[simp] theorem releaseAll_index : (t.releaseAll cfg s slots).index = t.index := by
  unfold releaseAll
  induction slots generalizing t with
  | nil => rfl
  | cons x xs ih => rw [foldl_cons, ih, release_index]

@[simp] theorem releaseAll_cursor : (t.releaseAll cfg s slots).cursor = t.cursor := by
  unfold releaseAll
  induction slots generalizing t with
  | nil => rfl
  | cons x xs ih => rw [foldl_cons, ih, release_cursor]

@[simp] theorem releaseAll_degradation :
    (t.releaseAll cfg s slots).degradation = t.degradation := by
  unfold releaseAll
  induction slots generalizing t with
  | nil => rfl
  | cons x xs ih => rw [foldl_cons, ih, release_degradation]

@[simp] theorem releaseAll_recovery : (t.releaseAll cfg s slots).recovery = t.recovery := by
  unfold releaseAll
  induction slots generalizing t with
  | nil => rfl
  | cons x xs ih => rw [foldl_cons, ih, release_recovery]

variable {slots}

theorem releaseAll_used (hs : ∀ x ∈ slots, InArena cfg s x) (l : Nat) :
    (t.releaseAll cfg s slots).used l = true ↔ t.used l = true ∧ slotOf cfg s l ∉ slots := by
  unfold releaseAll
  induction slots generalizing t with
  | nil => simp
  | cons x xs ih =>
    rw [foldl_cons, ih (fun y hy => hs y (by simp [hy])), release_used (hs x (by simp))]
    simp only [Bool.and_eq_true, decide_eq_true_eq, mem_cons, not_or, and_assoc]
    exact ⟨fun ⟨a, b, c⟩ => ⟨a, fun e => b e.symm, c⟩, fun ⟨a, b, c⟩ => ⟨a, fun e => b e.symm, c⟩⟩

end ReleaseAll

/-- `acquire` either marks one free slot, or finds none and changes nothing. -/
theorem acquire_cases (cfg : TailCfg) (s : Nat) (t : SeqTail) :
    (∃ l, l < cfg.arenaStride ∧ t.used l = false ∧ t.acquire cfg s =
      ({ t with used := Function.update t.used l true, cursor := (l + 1) % cfg.arenaStride },
        .ok (slotOf cfg s l))) ∨
    t.acquire cfg s = (t, .error (.arenaExhausted s cfg.arenaStride)) := by
  unfold acquire
  cases e : (List.range cfg.arenaStride).find?
      fun o => !t.used ((t.cursor + o) % cfg.arenaStride) with
  | none => exact .inr rfl
  | some o =>
    left
    have ho := find?_some e
    have hlt := mem_range.mp (mem_of_find?_eq_some e)
    exact ⟨(t.cursor + o) % cfg.arenaStride, mod_lt _ (by omega), by simpa using ho, rfl⟩

/-! ## The index -/

private theorem emplaceAll_spec (ns : List TailNode) :
    ∀ index : Nat × Nat → Option Nat, (emplaceAll ns index).2 = true →
      (ns.map (·.key)).Nodup ∧ (∀ n ∈ ns, index n.key = none) ∧
      ∀ k i, (emplaceAll ns index).1 k = some i ↔
        index k = some i ∨ ∃ n ∈ ns, n.key = k ∧ n.id = i := by
  induction ns with
  | nil => intro index _; simp [emplaceAll]
  | cons n ns ih =>
    intro index h
    unfold emplaceAll at h ⊢
    split at h
    · next hn =>
      rw [if_pos hn]
      obtain ⟨hnd, hnone, hk⟩ := ih _ h
      have hkey : ∀ m ∈ ns, m.key ≠ n.key := fun m hm e => by
        have := hnone m hm
        simp [e] at this
      refine ⟨?_, ?_, ?_⟩
      · refine nodup_cons.mpr ⟨fun hm => ?_, hnd⟩
        obtain ⟨m, hm, e⟩ := mem_map.mp hm
        exact hkey m hm e
      · intro m hm
        rcases mem_cons.mp hm with rfl | hm
        · exact hn
        · have := hnone m hm
          rwa [update_of_ne (hkey m hm)] at this
      · intro k i
        rw [hk k i]
        by_cases e : k = n.key
        · subst e
          simp [hn]
        · rw [update_of_ne e]
          simp [Ne.symm e]
    · simp at h

private theorem emplaceAll_ok {ns : List TailNode} (hnd : (ns.map (·.key)).Nodup) :
    ∀ index : Nat × Nat → Option Nat, (∀ n ∈ ns, index n.key = none) →
      (emplaceAll ns index).2 = true := by
  induction ns with
  | nil => intro _ _; rfl
  | cons n ns ih =>
    intro index h
    obtain ⟨hn, hns⟩ := nodup_cons.mp hnd
    unfold emplaceAll
    rw [if_pos (h n (by simp))]
    refine ih hns _ fun m hm => ?_
    have hne : m.key ≠ n.key := fun e => hn (mem_map.mpr ⟨m, hm, e⟩)
    rw [update_of_ne hne]
    exact h m (by simp [hm])

@[simp] theorem rebuildIndex_state : t.rebuildIndex.1.toSeqState = t.toSeqState := rfl

/-- `rebuild_index` succeeds iff no two entries have the same cell. -/
theorem rebuildIndex_ok_iff : t.rebuildIndex.2 = .ok () ↔ (t.entries.map (·.key)).Nodup := by
  simp only [rebuildIndex]
  constructor
  · intro h
    split at h
    · next hb => exact (emplaceAll_spec _ _ hb).1
    · cases h
  · intro h
    rw [if_pos (emplaceAll_ok h _ (by simp))]

theorem rebuildIndex_indexed (h : (t.entries.map (·.key)).Nodup) : Indexed t.rebuildIndex.1 := by
  intro k i
  have := (emplaceAll_spec t.entries (fun _ => none) (emplaceAll_ok h _ (by simp))).2.2 k i
  simpa [rebuildIndex] using this

/-- After moves in the list, `rebuild_index` makes the invariant whole. -/
theorem entryInv_rebuildIndex (h : ListInv cfg s t.entries) (hs : Sorted t.entries) :
    t.rebuildIndex.2 = .ok () ∧ EntryInv cfg s t.rebuildIndex.1 :=
  ⟨rebuildIndex_ok_iff.mpr h.keys,
    { toListInv := h, index := rebuildIndex_indexed h.keys, sorted := hs }⟩

variable {n : TailNode}

/-- The index leads to the entry with the cell. -/
theorem find_eq_some (h : EntryInv cfg s t) {k : Nat × Nat} :
    t.find k = some n ↔ n ∈ t.entries ∧ n.key = k := by
  unfold find
  constructor
  · intro hf
    obtain ⟨i, hi, hn⟩ := Option.bind_eq_some_iff.mp hf
    obtain ⟨m, hm, hk, e⟩ := (h.index k i).mp hi
    have hn' := mem_of_find?_eq_some hn
    have hid : n.id = i := by simpa using find?_some hn
    obtain rfl := h.eq_of_id hm hn' (by rw [e, hid])
    exact ⟨hn', hk⟩
  · rintro ⟨hn, hk⟩
    rw [(h.index k n.id).mpr ⟨n, hn, hk, rfl⟩, Option.bind_some]
    obtain ⟨m, hm⟩ := Option.isSome_iff_exists.mp
      (find?_isSome.mpr ⟨n, hn, by simp⟩ : (t.entries.find? fun m => m.id = n.id).isSome)
    rw [hm]
    have hid : m.id = n.id := by simpa using find?_some hm
    rw [h.eq_of_id (mem_of_find?_eq_some hm) hn hid]

theorem find_eq_none (h : EntryInv cfg s t) {k : Nat × Nat} :
    t.find k = none ↔ k ∉ t.entries.map (·.key) := by
  constructor
  · intro hf hm
    obtain ⟨n, hn, e⟩ := mem_map.mp hm
    rw [(find_eq_some h).mpr ⟨hn, e⟩] at hf
    cases hf
  · intro hk
    cases e : t.find k with
    | none => rfl
    | some n =>
      obtain ⟨hn, e⟩ := (find_eq_some h).mp e
      exact absurd (mem_map.mpr ⟨n, hn, e⟩) hk

/-! ## Erasing entries -/

@[simp] theorem eraseWhere_entries (p : TailNode → Bool) :
    (t.eraseWhere cfg s p).entries = t.entries.filter fun n => !p n := by
  simp [eraseWhere]

@[simp] theorem eraseEntry_entries (n : TailNode) (r : Bool) :
    (t.eraseEntry cfg s n r).entries = t.entries.filter fun m => m.id ≠ n.id := by
  unfold eraseEntry
  cases r <;> simp

@[simp] theorem eraseEntry_index (n : TailNode) (r : Bool) :
    (t.eraseEntry cfg s n r).index = Function.update t.index n.key none := by
  unfold eraseEntry
  cases r <;> simp

theorem Sorted.filter {ns : List TailNode} (h : Sorted ns) (p : TailNode → Bool) :
    Sorted (ns.filter p) :=
  h.sublist filter_sublist

theorem eraseEntry_length_lt (cfg : TailCfg) (s : Nat) (hn : n ∈ t.entries) (r : Bool) :
    (t.eraseEntry cfg s n r).entries.length < t.entries.length := by
  rw [eraseEntry_entries, length_filter_lt_length_iff_exists]
  exact ⟨n, hn, by simp⟩

/-- `erase_entry` of an entry of the list, with or without the release of its slot. -/
theorem entryInv_eraseEntry (h : EntryInv cfg s t) (hn : n ∈ t.entries) (r : Bool) :
    EntryInv cfg s (t.eraseEntry cfg s n r) := by
  refine { toListInv := ?_, index := fun k i => ?_, sorted := ?_ }
  · rw [eraseEntry_entries]
    exact h.toListInv.sublist filter_sublist
  · rw [eraseEntry_entries, eraseEntry_index]
    simp only [mem_filter, decide_eq_true_eq]
    by_cases e : k = n.key
    · subst e
      rw [update_self]
      constructor
      · intro hc; cases hc
      · rintro ⟨m, ⟨hm, hne⟩, hk, -⟩
        exact absurd (by rw [h.eq_of_key hm hn hk]) hne
    · rw [update_of_ne e, h.index k i]
      constructor
      · rintro ⟨m, hm, hk, e'⟩
        exact ⟨m, ⟨hm, fun hid => e (by rw [← hk, h.eq_of_id hm hn hid])⟩, hk, e'⟩
      · rintro ⟨m, ⟨hm, -⟩, hk, e'⟩
        exact ⟨m, hm, hk, e'⟩
  · rw [eraseEntry_entries]
    exact Sorted.filter h.sorted _

/-! ## Trimming -/

/-- `popFront` is `erase_entry` of the first entry. -/
theorem popFront_eq (h : ListInv cfg s t.entries) {ns : List TailNode}
    (e : t.entries = n :: ns) : popFront cfg s t = t.eraseEntry cfg s n true := by
  have hids := h.ids
  rw [e, map_cons, nodup_cons] at hids
  have hf : t.entries.filter (fun m => m.id ≠ n.id) = ns := by
    rw [e, filter_cons_of_neg (by simp), filter_eq_self]
    intro m hm
    have : m.id ≠ n.id := fun e' => hids.1 (mem_map.mpr ⟨m, hm, e'⟩)
    simpa using this
  simp only [eraseEntry, if_true, release_index, release_entries, hf]
  simp only [popFront, e, release_index]

theorem popFront_entries : (popFront cfg s t).entries = t.entries.tail := by
  unfold popFront
  cases e : t.entries with
  | nil => simp [e]
  | cons n ns => rfl

theorem entryInv_popFront (h : EntryInv cfg s t) : EntryInv cfg s (popFront cfg s t) := by
  cases e : t.entries with
  | nil => simpa [popFront, e] using h
  | cons n ns =>
    rw [popFront_eq h.toListInv e]
    exact entryInv_eraseEntry h (by simp [e]) true

theorem trim_entries (limit : Nat) :
    (trim cfg s limit t).entries = t.entries.drop (t.entries.length - limit) := by
  unfold trim
  generalize t.entries.length - limit = k
  induction k generalizing t with
  | zero => rfl
  | succ k ih =>
    rw [iterate_succ_apply, ih, popFront_entries, drop_tail, Nat.add_comm]

theorem trim_sublist (cfg : TailCfg) (s : Nat) (t : SeqTail) (limit : Nat) :
    (trim cfg s limit t).entries.Sublist t.entries := by
  rw [trim_entries]; exact drop_sublist _ _

theorem trim_length_le (limit : Nat) : (trim cfg s limit t).entries.length ≤ limit := by
  rw [trim_entries, length_drop]; omega

theorem trim_eq_self {limit : Nat} (h : t.entries.length ≤ limit) : trim cfg s limit t = t := by
  unfold trim
  rw [Nat.sub_eq_zero_of_le h]
  rfl

/-- What `popFront` keeps, `trim` keeps. -/
theorem trim_induction {P : SeqTail → Prop} (hp : ∀ t, P t → P (popFront cfg s t)) (h : P t)
    (limit : Nat) : P (trim cfg s limit t) := by
  unfold trim
  generalize t.entries.length - limit = k
  induction k generalizing t with
  | zero => exact h
  | succ k ih => exact ih (hp t h)

theorem entryInv_trim (h : EntryInv cfg s t) (limit : Nat) : EntryInv cfg s (trim cfg s limit t) :=
  trim_induction (P := EntryInv cfg s) (fun _ => entryInv_popFront) h limit

/-! ## New entries -/

theorem TailNode.fresh_notMem (ns : List TailNode) : TailNode.fresh ns ∉ ns.map (·.id) := by
  have hlt : ∀ n ∈ ns, n.id < fresh ns := by
    induction ns with
    | nil => simp
    | cons m ns ih =>
      intro n hn
      simp only [fresh, map_cons, foldr_cons] at ih ⊢
      rcases mem_cons.mp hn with rfl | hn
      · omega
      · have := ih n hn
        omega
  intro hm
  obtain ⟨n, hn, e⟩ := mem_map.mp hm
  have := hlt n hn
  omega

/-- A new list node for the cell of `n`, found by the index. -/
theorem indexed_cons (h : Indexed t) (hkey : n.key ∉ t.entries.map (·.key))
    (hp : t'.entries.Perm (n :: t.entries))
    (hi : t'.index = Function.update t.index n.key (some n.id)) : Indexed t' := by
  intro k i
  rw [hi]
  simp only [hp.mem_iff, mem_cons]
  by_cases e : k = n.key
  · subst e
    rw [update_self, Option.some.injEq]
    constructor
    · intro e; exact ⟨n, .inl rfl, rfl, e⟩
    · rintro ⟨m, rfl | hm, hk, e⟩
      · exact e
      · exact absurd (mem_map.mpr ⟨m, hm, hk⟩) hkey
  · rw [update_of_ne e, h k i]
    constructor
    · rintro ⟨m, hm, hk, e'⟩; exact ⟨m, .inr hm, hk, e'⟩
    · rintro ⟨m, rfl | hm, hk, e'⟩
      · exact absurd hk.symm e
      · exact ⟨m, hm, hk, e'⟩

theorem addEntry_perm (e : TailEntry) :
    (t.addEntry e).entries.Perm (⟨e, TailNode.fresh t.entries⟩ :: t.entries) :=
  perm_insert _ _

theorem entryInv_addEntry {e : TailEntry} (h : EntryInv cfg s t) (he : InArena cfg s e.slot)
    (hkey : e.key ∉ t.entries.map (·.key)) : EntryInv cfg s (t.addEntry e) where
  toListInv := (h.toListInv.cons (n := ⟨e, fresh t.entries⟩)
    (TailNode.fresh_notMem _) hkey he).perm (addEntry_perm e)
  index := indexed_cons (n := ⟨e, fresh t.entries⟩) h.index hkey (addEntry_perm e) rfl
  sorted := Sorted.insert h.sorted _

@[simp] theorem recover_entries : (recover cfg t).entries = t.entries := by
  unfold recover; split
  · rfl
  · split <;> rfl

@[simp] theorem recover_index : (recover cfg t).index = t.index := by
  unfold recover; split
  · rfl
  · split <;> rfl

@[simp] theorem recover_used : (recover cfg t).used = t.used := by
  unfold recover; split
  · rfl
  · split <;> rfl

/-- The invariant depends on the list and the index only. -/
theorem entryInv_congr (h : EntryInv cfg s t) (he : t'.entries = t.entries)
    (hi : t'.index = t.index) : EntryInv cfg s t' where
  toListInv := by rw [he]; exact h.toListInv
  index k i := by rw [hi, he]; exact h.index k i
  sorted := by rw [he]; exact h.sorted

/-- The two ways in which `commit` gets a slot: it evicts the first entry, or takes a free slot. -/
theorem takeSlot_cases (cfg : TailCfg) (s : Nat) (inBatch : Bool) (t : SeqTail) :
    (∃ v ns, t.entries = v :: ns ∧ (cfg.compactStorage = true ∨ inBatch = false) ∧
      cfg.limit ≤ t.entries.length ∧
      t.takeSlot cfg s inBatch = (t.eraseEntry cfg s v false, .ok v.slot)) ∨
    (¬ ((cfg.compactStorage = true ∨ inBatch = false) ∧ cfg.limit ≤ t.entries.length ∧
      t.entries ≠ []) ∧ t.takeSlot cfg s inBatch = t.acquire cfg s) := by
  unfold takeSlot
  cases e : t.entries with
  | nil => exact .inr ⟨by simp, rfl⟩
  | cons v ns =>
    by_cases hc : ((cfg.compactStorage || !inBatch) && decide ((v :: ns).length ≥ cfg.limit)) = true
    · left
      simp only [hc, if_true]
      simp only [Bool.and_eq_true, Bool.or_eq_true, Bool.not_eq_true', decide_eq_true_eq] at hc
      exact ⟨v, ns, rfl, hc.1, hc.2, rfl⟩
    · right
      simp only [hc]
      simp only [Bool.and_eq_true, Bool.or_eq_true, Bool.not_eq_true', decide_eq_true_eq] at hc
      exact ⟨fun ⟨a, b, _⟩ => hc ⟨a, b⟩, rfl⟩

/-- `takeSlot` gives a slot of the arena, and the other entries are entries as before. -/
theorem entryInv_takeSlot (h : EntryInv cfg s t) {inBatch : Bool} {x : Int}
    (e : t.takeSlot cfg s inBatch = (t', .ok x)) :
    EntryInv cfg s t' ∧ InArena cfg s x ∧ t'.entries.Sublist t.entries := by
  rcases takeSlot_cases cfg s inBatch t with ⟨v, ns, he, -, -, hv⟩ | ⟨-, ha⟩
  · rw [hv] at e
    obtain ⟨rfl, hx⟩ := Prod.mk.inj e
    obtain rfl : v.slot = x := by simpa using hx
    have hvm : v ∈ t.entries := by simp [he]
    refine ⟨entryInv_eraseEntry h hvm false, h.arena v hvm, ?_⟩
    rw [eraseEntry_entries]
    exact filter_sublist
  · rw [ha] at e
    rcases acquire_cases cfg s t with ⟨l, hl, hf, hq⟩ | hq
    · rw [hq] at e
      obtain ⟨rfl, hx⟩ := Prod.mk.inj e
      obtain rfl : slotOf cfg s l = x := by simpa using hx
      exact ⟨entryInv_congr h rfl rfl, ⟨l, hl, rfl⟩, List.Sublist.refl _⟩
    · rw [hq] at e
      cases e

theorem takeSlot_error {inBatch : Bool} {er : TailError}
    (e : t.takeSlot cfg s inBatch = (t', .error er)) : t' = t := by
  rcases takeSlot_cases cfg s inBatch t with ⟨v, ns, he, -, -, hv⟩ | ⟨-, ha⟩
  · rw [hv] at e
    cases e
  · rw [ha] at e
    rcases acquire_cases cfg s t with ⟨l, hl, hf, hq⟩ | hq
    · rw [hq] at e
      cases e
    · rw [hq] at e
      exact (Prod.mk.inj e).1.symm

end SeqTail
end BeeLlama
