import BeeLlama.Recurrent.Passes

/-!
# The slot of a ubatch

`find_slot` from its first pass to the staged sources, on a memory in which a sequence is at most
in the cell at its tail (`Held`) and a cell is its own source or has none (`SelfSrc`).

* `Left`: what the first pass leaves when the sequences of `out` have left their cells.
* `Slot`: the passes and the staged sources together; `findSlot_cases` says when `find_slot` comes
  so far, and that the assert on the zeroed state does not fail.
* `Slot.relocated`: the sets are in the slot with the states of their first sequences, and no other
  sequence has lost anything but the sequences of the ubatch.
-/

namespace BeeLlama.RecurrentMemory

open List Function RecurrentMemory

/-- A cell is its own source, or it has none. -/
def SelfSrc (m : RecurrentMemory) : Prop := ∀ c, c < m.size → m.src c = -1 ∨ m.src c = (c : Nat)

/-- The ids of the ubatch are in range. -/
def IdsValid (m : RecurrentMemory) (sets : List RsSet) : Prop :=
  ∀ s ∈ sets, ∀ id ∈ s.seqIds, 0 ≤ id ∧ id < m.size

instance (m : RecurrentMemory) (sets : List RsSet) : Decidable (m.IdsValid sets) :=
  inferInstanceAs (Decidable (∀ s ∈ sets, ∀ id ∈ s.seqIds, 0 ≤ id ∧ id < m.size))

section

variable {m m' m'' : RecurrentMemory} {out out' : Finset Nat}

/-! ## The first pass -/

/-- The sequences of `out` have left their cells. -/
structure Left (m m' : RecurrentMemory) (out : Finset Nat) : Prop where
  held : m'.Held
  frame : Frame m m'
  gone : ∀ x ∈ out, m'.tail x < 0
  same : ∀ x, x ∉ out → m'.tail x = m.tail x
  kept : ∀ x, m.Lives x → x ∉ out → Kept m m' out x
  src : ∀ c, m'.src c = m.src c ∨ m'.src c = -1
  emptied : ∀ c, c < m.size → m'.seqId c = ∅ → m'.src c = -1 ∨ (m.seqId c = ∅ ∧ m'.src c = m.src c)

theorem Left.rfl (h : m.Held) : Left m m ∅ :=
  ⟨h, .rfl, by simp, fun _ _ => Eq.refl _,
    fun _ hx _ => ⟨hx, Eq.refl _, Eq.refl _, Finset.sdiff_empty.symm⟩, fun _ => .inl (Eq.refl _),
    fun _ _ he => .inr ⟨he, Eq.refl _⟩⟩

theorem Left.trans (h : Left m m' out) (h' : Left m' m'' out') : Left m m'' (out ∪ out') where
  held := h'.held
  frame := h.frame.trans h'.frame
  gone x hx := by
    by_cases hx' : x ∈ out'
    · exact h'.gone x hx'
    · rw [h'.same x hx']
      exact h.gone x ((Finset.mem_union.mp hx).resolve_right hx')
  same x hx := by
    rw [Finset.mem_union, not_or] at hx
    rw [h'.same x hx.2, h.same x hx.1]
  kept x hl hx := by
    rw [Finset.mem_union, not_or] at hx
    have hk := h.kept x hl hx.1
    exact hk.trans (h'.kept x hk.lives hx.2)
  src c := by
    rcases h'.src c with e | e
    · rw [e]
      exact h.src c
    · exact .inr e
  emptied c hc he := by
    rcases h'.emptied c (h.frame.size.symm ▸ hc) he with e | ⟨he', e⟩
    · exact .inl e
    · rw [e]
      exact h.emptied c hc he'

theorem Left.selfSrc (h : Left m m' out) (hs : m.SelfSrc) : m'.SelfSrc := by
  intro c hc
  rcases h.src c with e | e
  · rw [e]
    exact hs c (h.frame.size ▸ hc)
  · exact .inl e

/-- The sequence `s` leaves its cell. -/
theorem Held.dropSeq (h : m.Held) (s : Nat) (hs : s < m.size) : Left m (m.dropSeq s) {s} := by
  unfold RecurrentMemory.dropSeq
  by_cases ht : m.tail s ≥ 0
  · rw [if_pos ht]
    obtain ⟨c, hc⟩ : ∃ c : Nat, m.tail s = c := ⟨(m.tail s).toNat, by omega⟩
    rw [hc, Int.toNat_natCast]
    have hseq : ∀ i, i < m.size → (m.leave c s).seqId i = (m.seqId i).erase s := by
      intro i hi
      rcases eq_or_ne i c with rfl | hic
      · exact leave_seqId_self
      · rw [leave_seqId hic, Finset.erase_eq_of_notMem (h.not_mem hi (by omega))]
    have hstay : ∀ i, i ≠ c ∨ (m.seqId c).erase s ≠ ∅ →
        (m.leave c s).pos i = m.pos i ∧ (m.leave c s).src i = m.src i := by
      intro i hi
      simp only [leave]
      split
      · rename_i he
        have hic := hi.resolve_right (not_not.mpr he)
        exact ⟨update_of_ne hic .., update_of_ne hic ..⟩
      · exact ⟨rfl, rfl⟩
    refine ⟨⟨fun i hi x hx => ?_, fun x hx => ?_⟩, ⟨rfl, rfl, rfl, rfl⟩, fun x hx => ?_,
      fun x hx => update_of_ne (by simpa using hx) .., fun x hl hx => ?_, fun i => ?_,
      fun i hi he => ?_⟩
    · have hi' : i < m.size := hi
      rw [hseq i hi', Finset.mem_erase] at hx
      obtain ⟨hlt, e⟩ := h.own i hi' x hx.2
      exact ⟨hlt, (update_of_ne hx.1 ..).trans e⟩
    · show Function.update m.tail s (-1) x < m.size
      rcases eq_or_ne x s with rfl | hxs
      · rw [update_self]
        omega
      · rw [update_of_ne hxs]
        exact h.tail_lt x hx
    · rw [Finset.mem_singleton.mp hx]
      show Function.update m.tail s (-1) s < 0
      rw [update_self]
      omega
    · have hxs : x ≠ s := by simpa using hx
      obtain ⟨h0, hlt, hmem⟩ := hl
      have htx : Function.update m.tail s (-1) x = m.tail x := update_of_ne hxs ..
      have hcell := hseq (m.tail x).toNat (by omega)
      obtain ⟨hp, hsrc⟩ := hstay (m.tail x).toNat (by
        rcases eq_or_ne (m.tail x).toNat c with e | e
        · rw [← e]
          exact .inr (Finset.ne_empty_of_mem (Finset.mem_erase.mpr ⟨hxs, hmem⟩))
        · exact .inl e)
      refine ⟨⟨?_, ?_, ?_⟩, ?_, ?_, ?_⟩ <;> dsimp only <;> rw [htx]
      · exact h0
      · exact hlt
      · rw [hcell]
        exact Finset.mem_erase.mpr ⟨hxs, hmem⟩
      · exact hp
      · exact hsrc
      · rw [hcell, Finset.sdiff_singleton_eq_erase]
    · simp only [leave]
      split
      · rcases eq_or_ne i c with rfl | hic
        · exact .inr (update_self ..)
        · exact .inl (update_of_ne hic ..)
      · exact .inl rfl
    · change (m.leave c s).seqId i = ∅ at he
      rcases eq_or_ne i c with rfl | hic
      · rw [leave_seqId_self] at he
        left
        simp only [leave, he, if_true]
        exact update_self ..
      · rw [leave_seqId hic] at he
        exact .inr ⟨he, (hstay i (.inl hic)).2⟩
  · rw [if_neg ht]
    refine ⟨h, .rfl, fun x hx => ?_, fun _ _ => rfl, fun x hl hx => ⟨hl, rfl, rfl, ?_⟩,
      fun _ => .inl rfl, fun _ _ he => .inr ⟨he, rfl⟩⟩
    · rw [Finset.mem_singleton.mp hx]
      omega
    · rw [Finset.sdiff_singleton_eq_erase, Finset.erase_eq_of_notMem]
      obtain ⟨h0, hlt, -⟩ := hl
      exact h.not_mem (by omega) (by omega)

theorem unshareIds_left (ids : List Int) : ∀ {m : RecurrentMemory} (first : Bool), m.Held →
    ∃ out, Left m (m.unshareIds first ids).1 out ∧
      ((m.unshareIds first ids).2 = true ↔ ∀ id ∈ ids, 0 ≤ id ∧ id < m.size) ∧
      ((m.unshareIds first ids).2 = true →
        out = ((if first then ids.tail else ids).map Int.toNat).toFinset) := by
  induction ids with
  | nil =>
    intro m first h
    exact ⟨∅, .rfl h, by simp [unshareIds], fun _ => by cases first <;> rfl⟩
  | cons id ids ih =>
    intro m first h
    unfold unshareIds
    split
    · rename_i hid
      refine ⟨∅, .rfl h, iff_of_false (by simp) fun hall => ?_, fun e => by simp at e⟩
      have := hall id mem_cons_self
      omega
    · rename_i hid
      have hvalid : 0 ≤ id ∧ id < m.size := by omega
      cases first with
      | true =>
        obtain ⟨out, hl, hiff, hout⟩ := ih false h
        exact ⟨out, hl, by rw [forall_mem_cons]; simpa [hvalid] using hiff, hout⟩
      | false =>
        have hd := h.dropSeq id.toNat (by omega)
        obtain ⟨out, hl, hiff, hout⟩ := ih false hd.held
        rw [hd.frame.size] at hiff
        refine ⟨{id.toNat} ∪ out, hd.trans hl, ?_, fun e => ?_⟩
        · rw [forall_mem_cons]
          simpa [hvalid] using hiff
        · rw [hout e]
          simp

/-- The first pass succeeds if the ids are valid; all but the first one of each set have left. -/
theorem unshare_left (sets : List RsSet) : ∀ {m : RecurrentMemory}, m.Held →
    ∃ out, Left m (m.unshare sets).1 out ∧ ((m.unshare sets).2 = true ↔ m.IdsValid sets) ∧
      ((m.unshare sets).2 = true →
        out = (sets.flatMap (·.seqIds.tail.map Int.toNat)).toFinset) := by
  induction sets with
  | nil => exact fun h => ⟨∅, .rfl h, by simp [unshare, IdsValid], fun _ => rfl⟩
  | cons s sets ih =>
    intro m h
    obtain ⟨out, hl, hiff, hout⟩ := unshareIds_left s.seqIds true h
    unfold unshare
    split
    · rename_i m' e
      rw [e] at hl hiff
      refine ⟨out, hl, iff_of_false (by simp) fun hv => ?_, fun e => by simp at e⟩
      exact Bool.false_ne_true (hiff.mpr (hv s mem_cons_self))
    · rename_i m' e
      rw [e] at hl hiff hout
      obtain ⟨out', hl', hiff', hout'⟩ := ih hl.held
      refine ⟨out ∪ out', hl.trans hl', hiff'.trans ?_, fun e' => ?_⟩
      · unfold IdsValid
        rw [hl.frame.size, forall_mem_cons]
        exact (and_iff_right (hiff.mp rfl)).symm
      · rw [hout rfl, hout' e', flatMap_cons, toFinset_append]
        rfl

theorem unshareIds_head (ids : List Int) : ∀ (m : RecurrentMemory) (first : Bool),
    (m.unshareIds first ids).1.head = m.head := by
  induction ids with
  | nil => exact fun _ _ => rfl
  | cons id ids ih =>
    intro m first
    unfold unshareIds
    split
    · rfl
    · rw [ih]
      split
      · rfl
      · exact dropSeq_head m _

theorem unshare_head (sets : List RsSet) : ∀ m : RecurrentMemory,
    (m.unshare sets).1.head = m.head := by
  induction sets with
  | nil => exact fun _ => rfl
  | cons s sets ih =>
    intro m
    have := unshareIds_head s.seqIds m true
    unfold unshare
    split
    · rename_i m' e
      rwa [e] at this
    · rename_i m' e
      rw [e] at this
      exact (ih m').trans this

/-! ## The staged sources -/

variable {u : RsUbatch} {lo len : Nat}

/-- The cell for the zeroed state is in the slot and no source, or every cell of the slot is one. -/
theorem findRsZ_spec (m : RecurrentMemory) (lo len : Nat) :
    (∃ z : Nat, m.findRsZ lo len = z ∧ lo ≤ z ∧ z < lo + len ∧
      ∀ j, j < m.size → m.src j ≠ (z : Nat)) ∨
    (m.findRsZ lo len = -1 ∧ ∀ i, lo ≤ i → i < lo + len →
      ∃ j, j < m.size ∧ m.src j = (i : Nat)) := by
  unfold findRsZ
  split
  · rename_i i e
    have hi := mem_of_find?_eq_some e
    have hall := find?_some e
    simp only [pure_def, bind_eq_flatMap, mem_flatMap, mem_singleton, mem_range'_1] at hi
    obtain ⟨z, hz, rfl⟩ := hi
    exact .inl ⟨z, rfl, hz.1, hz.2, by simpa using hall⟩
  · rename_i e
    refine .inr ⟨rfl, fun i h1 h2 => ?_⟩
    have := find?_eq_none.mp e i (by simp [h1, h2])
    simpa using this

/-- A cell of the slot has no source, so there are too few sources for all cells of the slot. -/
theorem Passed.findRsZ (hp : Passed m u lo len m') (hs : m.SelfSrc) :
    ¬ (m'.findRsZ lo len < 0 ∧ ∃ i ∈ List.range' lo len, m'.src i < 0) := by
  rintro ⟨hz, i0, hi0, hneg⟩
  have hsize := hp.frame.size
  have hread : ∀ i ∈ (List.range' lo len).toFinset,
      ∃ j, j < m.size ∧ m'.src j = (i : Nat) := by
    intro i hi
    rw [mem_toFinset, mem_range'_1] at hi
    rcases findRsZ_spec m' lo len with ⟨z, e, -⟩ | ⟨-, hall⟩
    · omega
    · rw [← hsize]
      exact hall i hi.1 hi.2
  choose! g hg using hread
  have hmem : ∀ i ∈ (List.range' lo len).toFinset, g i ∈ (List.range' lo len).toFinset := by
    intro i hi
    obtain ⟨hlt, e⟩ := hg i hi
    rw [mem_toFinset, mem_range'_1] at hi ⊢
    by_contra hout
    have := hp.outside (g i) hlt (by omega)
    have := hs (g i) hlt
    omega
  obtain ⟨c, hc, e⟩ := exists_preimage hmem (P := fun x c => m'.src x = (c : Nat))
    (fun c hc => (hg c hc).2) (fun x c d e e' => by omega)
    (mem_toFinset.mpr hi0)
  have := (hg c hc).2
  rw [e] at this
  omega

/-- The cells after the passes hold every sequence at its tail. -/
theorem Passed.held (hp : Passed m u lo len m') (hm : m.Held) (hu : u.Ok)
    (hids : m.IdsValid u.sets) (hothers : ∀ x ∈ u.others, m.tail x < 0) : m'.Held := by
  have hsize := hp.frame.size
  refine ⟨fun c hc x hx => ?_, fun x hx => ?_⟩
  · rw [hsize] at hc ⊢
    by_cases hin : lo ≤ c ∧ c < lo + u.sets.length
    · obtain ⟨k, rfl⟩ := Nat.exists_eq_add_of_le hin.1
      obtain ⟨s, hk⟩ : ∃ s, u.sets[k]? = some s :=
        ⟨_, getElem?_eq_getElem (show k < u.sets.length by omega)⟩
      have hs := mem_of_getElem? hk
      rw [(hp.cell k s hk).1, mem_toFinset] at hx
      obtain ⟨j, t, hj, hxt, e⟩ := hp.tail x (RsUbatch.mem_seqs.mpr ⟨s, hs, hx⟩)
      obtain ⟨id, hid, rfl⟩ := mem_map.mp hx
      obtain ⟨id', hid', e'⟩ := mem_map.mp hxt
      have h1 := hids s hs id hid
      have h2 := hids t (mem_of_getElem? hj) id' hid'
      obtain rfl : id' = id := by omega
      obtain rfl := hu.eq_of_mem hj hk hid' hid
      exact ⟨by omega, e⟩
    · obtain ⟨d, hd, e, -, -, htail⟩ := hp.rest c hc (by omega)
      rw [e, Finset.mem_sdiff, mem_toFinset] at hx
      obtain ⟨hxlt, hxd⟩ := hm.own d hd x hx.1
      refine ⟨hxlt, htail x hxlt (fun hxs => ?_) hxd⟩
      obtain ⟨s, hs, hxm⟩ := RsUbatch.mem_seqs.mp hxs
      obtain ⟨id, rest, hsid⟩ := exists_cons_of_ne_nil (hu.ids s hs)
      rw [hsid, map_cons, mem_cons] at hxm
      rcases hxm with rfl | hxr
      · refine hx.2 (mem_map.mpr ⟨s, hs, ?_⟩)
        rw [RsSet.first, hsid]
        rfl
      · have := hothers x (by
          rw [RsUbatch.others, mem_toFinset, mem_flatMap]
          exact ⟨s, hs, by rw [hsid]; exact hxr⟩)
        omega
  · rw [hsize] at hx ⊢
    exact hp.tail_lt x hx

/-! ## The passes of `find_slot` -/

/-- The search starts at the first cell if enough cells before `head` are unused. -/
def startHead (m : RecurrentMemory) (u : RsUbatch) : RecurrentMemory :=
  if m.head > m.used + 2 * u.sets.length then { m with head := 0 } else m

/-- The memory after the first pass. -/
def unshared (m : RecurrentMemory) (u : RsUbatch) : RecurrentMemory :=
  ((m.startHead u).unshare u.sets).1

/-- The memory that `find_slot` leaves, if its passes leave `m`. -/
def staged (m : RecurrentMemory) (lo len : Nat) : RecurrentMemory :=
  { m with
    rsZ := m.findRsZ lo len
    src0 := fun i => if lo ≤ i ∧ i < lo + len then
      if m.src i < 0 then m.findRsZ lo len else m.src i else m.src0 i
    src := fun i => if lo ≤ i ∧ i < lo + len then i else m.src i
    head := lo
    n := len
    used := m.countUsed }

/-- `find_slot` after its first pass. -/
def slotFrom (m : RecurrentMemory) (u : RsUbatch) : Except RsAssert (RecurrentMemory × Bool) :=
  match claim ⟨m, m.firstEmpty m.size m.head, (m.size : Int) - 1, 0⟩ u.firsts with
  | .error x => .error x
  | .ok a =>
    let lo := a.min.toNat
    let len := (a.max - a.min + 1).toNat
    match ((a.mem.gather lo u.firsts).place lo u.sets).stageSources lo len with
    | .error x => .error x
    | .ok m => .ok ({ m with head := lo, n := len, used := m.countUsed },
        decide (len ≥ u.sets.length))

theorem findSlot_eq (m : RecurrentMemory) (u : RsUbatch) :
    m.findSlot u = if u.equalSeqs = false then .error .equalSeqs
      else if ((m.startHead u).unshare u.sets).2 = true then (m.unshared u).slotFrom u
      else .ok (m.unshared u, false) := by
  unfold findSlot unshared slotFrom
  cases u.equalSeqs with
  | false => rfl
  | true =>
    dsimp only
    change _ = if ((m.startHead u).unshare u.sets).2 = true then _ else _
    unfold startHead
    generalize unshare _ u.sets = r
    obtain ⟨m2, b⟩ := r
    cases b <;> rfl

theorem startHead_held (hm : m.Held) (u : RsUbatch) :
    (m.startHead u).Held ∧ (m.startHead u).size = m.size := by
  unfold startHead
  split
  · exact ⟨⟨hm.own, hm.tail_lt⟩, rfl⟩
  · exact ⟨hm, rfl⟩

theorem startHead_left (h : Left (m.startHead u) m' out) : Left m m' out := by
  unfold startHead at h
  split at h
  · refine ⟨h.held, ⟨h.frame.size, h.frame.nSeqMax, h.frame.nRsSeq, h.frame.rsIdx⟩, h.gone,
      h.same, fun x hl hx => ?_, h.src, h.emptied⟩
    obtain ⟨h1, h2, h3, h4⟩ := h.kept x hl hx
    exact ⟨h1, h2, h3, h4⟩
  · exact h

/-- The memory after the first pass, and when it succeeds. -/
theorem unshared_left (hm : m.Held) (hhead : m.head < m.size) (u : RsUbatch) :
    ∃ out, Left m (m.unshared u) out ∧ (m.unshared u).head < m.size ∧
      (((m.startHead u).unshare u.sets).2 = true ↔ m.IdsValid u.sets) ∧
      (m.IdsValid u.sets → out = u.others) := by
  obtain ⟨hm1, hsize⟩ := startHead_held hm u
  obtain ⟨out, h, hiff, hout⟩ := unshare_left u.sets hm1
  rw [IdsValid, hsize] at hiff
  refine ⟨out, startHead_left h, ?_, hiff, fun hv => hout (hiff.mpr hv)⟩
  rw [unshared, unshare_head, startHead]
  split
  · exact Nat.zero_lt_of_lt hhead
  · exact hhead

theorem slotFrom_spec (hm : m.Held) (hhead : m.head < m.size) (hne : u.sets ≠ [])
    (hids : ∀ s ∈ u.sets, s.seqIds ≠ []) (hv : m.IdsValid u.sets) (hnd : u.firsts.Nodup) :
    ((∃ s ∈ u.firsts, ¬ m.Fit s) ∧ m.slotFrom u = .error .tailHasSeqId) ∨
    (¬ m.SelfSrc ∧ m.slotFrom u = .error .rsZ) ∨
    ∃ m₄ lo len, Passed m u lo len m₄ ∧ m.slotFrom u = .ok (m₄.staged lo len, true) := by
  unfold slotFrom
  rcases passes_spec hm hhead hne (fun s hs => ⟨hids s hs, hv s hs⟩) hnd with
    ⟨hfit, e⟩ | ⟨a, e, -, hp⟩
  · rw [e]
    exact .inl ⟨hfit, rfl⟩
  · right
    rw [e]
    dsimp only
    unfold stageSources
    set m₄ := (a.mem.gather a.min.toNat u.firsts).place a.min.toNat u.sets
    by_cases hz : m₄.findRsZ a.min.toNat (a.max - a.min + 1).toNat < 0 ∧
        ∃ i ∈ List.range' a.min.toNat (a.max - a.min + 1).toNat, m₄.src i < 0
    · rw [if_pos hz]
      exact .inl ⟨fun hs => hp.findRsZ hs hz, rfl⟩
    · rw [if_neg hz]
      refine .inr ⟨_, _, _, hp, ?_⟩
      rw [decide_eq_true hp.range.1]
      rfl

/-- What `find_slot` comes to: its asserts on the empty cells do not fail, and the one on the
zeroed state does not if every cell is its own source. -/
theorem findSlot_cases (hm : m.Held) (hhead : m.head < m.size) (hne : u.sets ≠ [])
    (hids : ∀ s ∈ u.sets, s.seqIds ≠ []) (hnd : m.IdsValid u.sets → u.firsts.Nodup) :
    (u.equalSeqs = false ∧ m.findSlot u = .error .equalSeqs) ∨
    (u.equalSeqs = true ∧ ¬ m.IdsValid u.sets ∧ m.findSlot u = .ok (m.unshared u, false)) ∨
    (m.IdsValid u.sets ∧ (∃ s ∈ u.firsts, ¬ (m.unshared u).Fit s) ∧
      m.findSlot u = .error .tailHasSeqId) ∨
    (¬ m.SelfSrc ∧ m.findSlot u = .error .rsZ) ∨
    ∃ m₄ lo len, m.IdsValid u.sets ∧ Passed (m.unshared u) u lo len m₄ ∧
      m.findSlot u = .ok (m₄.staged lo len, true) := by
  obtain ⟨out, hl, hhead2, hiff, -⟩ := unshared_left hm hhead u
  rw [findSlot_eq]
  cases he : u.equalSeqs with
  | false => exact .inl ⟨rfl, rfl⟩
  | true =>
    right
    rw [if_neg (by simp)]
    by_cases hv : m.IdsValid u.sets
    · right
      rw [if_pos (hiff.mpr hv)]
      have hsize := hl.frame.size
      rcases slotFrom_spec hl.held (hsize.symm ▸ hhead2) hne hids
        (by rwa [IdsValid, hsize]) (hnd hv) with ⟨hfit, e⟩ | ⟨hs, e⟩ | ⟨m₄, lo, len, hp, e⟩
      · exact .inl ⟨hv, hfit, e⟩
      · exact .inr (.inl ⟨fun h => hs (hl.selfSrc h), e⟩)
      · exact .inr (.inr ⟨m₄, lo, len, hv, hp, e⟩)
    · rw [if_neg fun e => hv (hiff.mp e)]
      exact .inl ⟨rfl, hv, rfl⟩

/-! ## The slot -/

/-- The row that the state of cell `c` is read from after `find_slot`. -/
def stateRow (m : RecurrentMemory) (c : Nat) : Int :=
  if m.head ≤ c ∧ c < m.head + m.n then m.src0 c else m.src c

/-- Cell `c` is to start from the zeroed state. -/
def Zeroed (m : RecurrentMemory) (c : Nat) : Prop := 0 ≤ m.rsZ ∧ m.src0 c = m.rsZ

/-- What `find_slot` leaves when it returns `true`. -/
structure Relocated (m : RecurrentMemory) (u : RsUbatch) (m' : RecurrentMemory) : Prop where
  frame : Frame m m'
  slot : u.sets.length ≤ m'.n ∧ m'.head + m'.n ≤ m.size
  cell : ∀ k s, u.sets[k]? = some s →
    m'.seqId (m'.head + k) = (s.seqIds.map Int.toNat).toFinset ∧ m'.pos (m'.head + k) = s.lastPos
  tail : ∀ x ∈ u.seqs, ∃ k s, u.sets[k]? = some s ∧ x ∈ s.seqIds.map Int.toNat ∧
    m'.tail x = (m'.head + k : Nat)
  /-- The cell of a set is read from where the state of its first sequence was. -/
  reads : ∀ k s, u.sets[k]? = some s → m.Lives s.first →
    (0 ≤ m.src (m.tail s.first).toNat → m'.src0 (m'.head + k) = m.src (m.tail s.first).toNat) ∧
    (m.src (m.tail s.first).toNat < 0 → m'.Zeroed (m'.head + k))
  /-- The cell of a new sequence is zeroed, or it is an empty cell that is its own source. -/
  new : ∀ k s, u.sets[k]? = some s → m.tail s.first < 0 → m'.Zeroed (m'.head + k) ∨
    ∃ e, e < m.size ∧ m.seqId e = ∅ ∧ m.src e = (e : Nat) ∧ m'.src0 (m'.head + k) = (e : Nat)
  /-- The cell of any other sequence, wherever it is now. -/
  kept : ∀ x, m.Lives x → x ∉ u.seqs → m'.Lives x ∧
    m'.pos (m'.tail x).toNat = m.pos (m.tail x).toNat ∧
    m'.seqId (m'.tail x).toNat = m.seqId (m.tail x).toNat \ u.seqs ∧
    (0 ≤ m.src (m.tail x).toNat → m'.stateRow (m'.tail x).toNat = m.src (m.tail x).toNat) ∧
    (m.src (m.tail x).toNat < 0 → m'.stateRow (m'.tail x).toNat < 0 ∨ m'.Zeroed (m'.tail x).toNat)
  none : ∀ x, x ∉ u.seqs → m.tail x < 0 → m'.tail x = m.tail x
  /-- The zeroed row is not the state of a sequence. -/
  unread : ∀ x, m.Lives x → x ∉ u.others → 0 ≤ m.src (m.tail x).toNat →
    m'.rsZ ≠ m.src (m.tail x).toNat

theorem RsUbatch.others_union (hids : ∀ s ∈ u.sets, s.seqIds ≠ []) :
    u.others ∪ u.firsts.toFinset = u.seqs := by
  ext x
  rw [Finset.mem_union, RsUbatch.mem_seqs, RsUbatch.others, RsUbatch.firsts, mem_toFinset,
    mem_toFinset, mem_flatMap, mem_map, ← exists_or]
  refine exists_congr fun s => ?_
  rw [← and_or_left]
  refine and_congr_right fun hs => ?_
  obtain ⟨id, rest, e⟩ := exists_cons_of_ne_nil (hids s hs)
  rw [RsSet.first, e, map_cons, mem_cons, or_comm, eq_comm]
  rfl

theorem staged_src0 {lo len c : Nat} (hc : lo ≤ c ∧ c < lo + len) :
    (m.staged lo len).src0 c = if m.src c < 0 then m.findRsZ lo len else m.src c := if_pos hc

theorem staged_stateRow {lo len c : Nat} (h : 0 ≤ m.src c) :
    (m.staged lo len).stateRow c = m.src c := by
  unfold stateRow
  by_cases hc : lo ≤ c ∧ c < lo + len
  · exact (if_pos hc).trans ((staged_src0 hc).trans (if_neg (by omega)))
  · exact (if_neg hc).trans (if_neg hc)

/-- A cell of the slot without a source is zeroed. -/
theorem Passed.zeroed {m₄ : RecurrentMemory} (hp : Passed m u lo len m₄) (hs : m.SelfSrc) {c : Nat}
    (hc : lo ≤ c ∧ c < lo + len) (hsrc : m₄.src c < 0) : (m₄.staged lo len).Zeroed c := by
  refine ⟨?_, (staged_src0 hc).trans (if_pos hsrc)⟩
  by_contra hz
  exact hp.findRsZ hs ⟨not_le.mp hz, c, mem_range'_1.mpr hc, hsrc⟩

variable {m₂ m₄ : RecurrentMemory}

theorem Passed.relocated (hl : Left m m₂ u.others)
    (hp : Passed m₂ u lo len m₄) (hs : m.SelfSrc) (hids : ∀ s ∈ u.sets, s.seqIds ≠ [])
    (hfirsts : ∀ x ∈ u.firsts, x ∉ u.others) : Relocated m u (m₄.staged lo len) := by
  have hsize := hl.frame.size
  have hs2 := hl.selfSrc hs
  have hslot : ∀ k s, u.sets[k]? = some s → (lo ≤ lo + k ∧ lo + k < lo + len) ∧
      s.first ∉ u.others := by
    intro k s hk
    have := (List.getElem?_eq_some_iff.mp hk).1
    have := hp.range.1
    exact ⟨by omega, hfirsts _ (mem_of_getElem? (RsUbatch.firsts_get hk))⟩
  have hall := RsUbatch.others_union hids
  have hlived : ∀ k s, u.sets[k]? = some s → m.Lives s.first →
      m₄.src (lo + k) = m.src (m.tail s.first).toNat := by
    intro k s hk hlv
    have hk2 := hl.kept _ hlv (hslot k s hk).2
    rw [hp.lived k s hk hk2.lives, hk2.src]
  have hkept : ∀ x, m.Lives x → x ∉ u.seqs → Kept m m₄ u.seqs x := by
    intro x hx hxs
    rw [← hall, Finset.mem_union, not_or] at hxs
    have hk2 := hl.kept x hx hxs.1
    rw [← hall]
    exact hk2.trans (hp.kept x hk2.lives (by rw [← hall, Finset.mem_union, not_or]; exact hxs))
  refine ⟨hl.frame.trans ⟨hp.frame.size, hp.frame.nSeqMax, hp.frame.nRsSeq, hp.frame.rsIdx⟩,
    ⟨hp.range.1, hsize ▸ hp.range.2⟩, hp.cell, hp.tail, fun k s hk hlv => ?_,
    fun k s hk hneg => ?_, fun x hx hxs => ?_, fun x hxs hneg => ?_, fun x hx hd hsrc => ?_⟩
  · have hin := (hslot k s hk).1
    have e := hlived k s hk hlv
    refine ⟨fun hsrc => ?_, fun hsrc => hp.zeroed hs2 hin (e.trans_lt hsrc)⟩
    exact (staged_src0 hin).trans (by rw [if_neg (by omega), e])
  · obtain ⟨hin, hd⟩ := hslot k s hk
    obtain ⟨e, he, hem, hsrc⟩ := hp.fresh k s hk (by rwa [hl.same _ hd])
    rw [hsize] at he
    have hcases : m₂.src e = -1 ∨ (m.seqId e = ∅ ∧ m.src e = (e : Nat) ∧ m₂.src e = m.src e) := by
      rcases hl.emptied e he hem with hno | ⟨hem', hsame⟩
      · exact .inl hno
      · exact (hs e he).imp hsame.trans fun hself => ⟨hem', hself, hsame⟩
    rcases hcases with hno | ⟨hem', hself, hsame⟩
    · exact .inl (hp.zeroed hs2 hin (hsrc.trans_lt (by omega)))
    · refine .inr ⟨e, he, hem', hself, (staged_src0 hin).trans ?_⟩
      rw [if_neg (by omega), hsrc, hsame, hself]
  · have hk := hkept x hx hxs
    have hrow := hk.src
    refine ⟨hk.lives, hk.pos, hk.seqId, fun hsrc => ?_, fun hsrc => ?_⟩
    · show (m₄.staged lo len).stateRow (m₄.tail x).toNat = _
      rw [staged_stateRow (by omega), hrow]
    · by_cases hin : lo ≤ (m₄.tail x).toNat ∧ (m₄.tail x).toNat < lo + len
      · exact .inr (hp.zeroed hs2 hin (hrow.trans_lt hsrc))
      · refine .inl ?_
        have e : (m₄.staged lo len).stateRow (m₄.tail x).toNat = m₄.src (m₄.tail x).toNat :=
          (if_neg hin).trans (if_neg hin)
        exact e.trans_lt (by omega)
  · have hxs' := hxs
    rw [← hall, Finset.mem_union, not_or] at hxs
    have := hl.same x hxs.1
    exact (hp.none x hxs' (by omega)).trans this
  · -- some cell has the state of `x` as its source
    have hread : ∃ j, j < m₄.size ∧ m₄.src j = m.src (m.tail x).toNat := by
      by_cases hxs : x ∈ u.seqs
      · rw [← hall, Finset.mem_union] at hxs
        obtain ⟨s, hsm, rfl⟩ := mem_map.mp (mem_toFinset.mp (hxs.resolve_left hd))
        obtain ⟨k, hk⟩ := getElem?_of_mem hsm
        have := (hslot k s hk).1
        have := hp.range.2
        exact ⟨lo + k, by rw [hp.frame.size]; omega, hlived k s hk hx⟩
      · have hk := hkept x hx hxs
        have h1 := hk.lives.1
        have h2 := hk.lives.2.1
        exact ⟨_, by omega, hk.src⟩
    obtain ⟨j, hj, e⟩ := hread
    show m₄.findRsZ lo len ≠ _
    rcases findRsZ_spec m₄ lo len with ⟨z, hz, -, -, hno⟩ | ⟨hz, -⟩
    · rw [hz, ← e]
      exact (hno j hj).symm
    · omega

theorem Passed.staged_held (hl : Left m m₂ u.others)
    (hp : Passed m₂ u lo len m₄) (hu : u.Ok) (hids : m.IdsValid u.sets) :
    (m₄.staged lo len).Held := by
  have h := hp.held hl.held hu (by rwa [IdsValid, hl.frame.size]) hl.gone
  exact ⟨h.own, h.tail_lt⟩

theorem Passed.staged_selfSrc (hl : Left m m₂ u.others)
    (hp : Passed m₂ u lo len m₄) (hs : m.SelfSrc) : (m₄.staged lo len).SelfSrc := by
  intro c hc
  have hc' : c < m₂.size := hp.frame.size ▸ hc
  show (if lo ≤ c ∧ c < lo + len then (c : Int) else m₄.src c) = -1 ∨
    (if lo ≤ c ∧ c < lo + len then (c : Int) else m₄.src c) = c
  split
  · exact .inr rfl
  · rename_i hout
    rw [hp.outside c hc' (by omega)]
    exact hl.selfSrc hs c hc'

end

end BeeLlama.RecurrentMemory
