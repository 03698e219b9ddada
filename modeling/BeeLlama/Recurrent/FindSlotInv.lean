import BeeLlama.Recurrent.Slot

/-!
# `find_slot` keeps the tails

`findSlot_spec`: on a memory whose tails are in order, the tails are in order again, the assert on
`seq_meta.tail` does not fail, and each set reads the state that its first sequence had.
-/

namespace BeeLlama.RecurrentMemory

open List

section

variable {m : RecurrentMemory} {u : RsUbatch}

theorem Inv.unshareIds (ids : List Int) : ∀ {m : RecurrentMemory} (first : Bool), m.Inv →
    (m.unshareIds first ids).1.Inv := by
  induction ids with
  | nil => exact fun _ h => h
  | cons id ids ih =>
    intro m first h
    unfold RecurrentMemory.unshareIds
    split
    · exact h
    · refine ih false ?_
      split
      · exact h
      · exact h.dropSeq (by omega)

theorem Inv.unshare (sets : List RsSet) : ∀ {m : RecurrentMemory}, m.Inv →
    (m.unshare sets).1.Inv := by
  induction sets with
  | nil => exact fun h => h
  | cons s sets ih =>
    intro m h
    have hs := h.unshareIds s.seqIds true
    unfold RecurrentMemory.unshare
    split
    · rename_i e
      rwa [e] at hs
    · rename_i e
      rw [e] at hs
      exact ih hs

theorem Inv.unshared (h : m.Inv) (u : RsUbatch) : (m.unshared u).Inv := by
  refine Inv.unshare u.sets ?_
  unfold startHead
  split
  · exact ⟨h.size_lt, h.seqs_le, Nat.zero_lt_of_lt h.head_lt,
      h.tails.congr rfl rfl rfl h.tails.empty, h.used⟩
  · exact h

/-- No tail is left over. -/
theorem Inv.fit (h : m.Inv) {s : Nat} (hs : s < m.size) : m.Fit s := by
  by_cases ht : m.tail s < 0
  · exact .inl ht
  · exact .inr (h.lives hs (by omega))

/-- The tails after the passes. -/
theorem Passed.inv {m₄ : RecurrentMemory} {lo len : Nat} (h : m.Inv) (hp : Passed m u lo len m₄)
    (hu : u.Ok) (hids : m.IdsValid u.sets) (hothers : ∀ x ∈ u.others, m.tail x < 0) :
    (m₄.staged lo len).Inv := by
  have hheld := hp.held h.tails.held hu hids hothers
  have hsize := hp.frame.size
  have hlo : lo < m.size := by
    have := length_pos_iff.mpr hu.ne
    have := hp.range
    omega
  refine ⟨hsize.symm ▸ h.size_lt, ?_, hsize.symm ▸ hlo, ⟨hheld.own, fun s hs => ?_,
    fun c hc he => ?_⟩, rfl⟩
  · show m₄.nSeqMax ≤ m₄.size
    rw [hsize, hp.frame.nSeqMax]
    exact h.seqs_le
  · have hs' : s < m.size := hsize ▸ hs
    by_cases hin : s ∈ u.seqs
    · obtain ⟨k, t, hk, hst, e⟩ := hp.tail s hin
      have := (List.getElem?_eq_some_iff.mp hk).1
      have := hp.range
      refine .inr ⟨lo + k, hsize.symm ▸ (by omega), e, .inl ?_⟩
      show s ∈ m₄.seqId (lo + k)
      rw [(hp.cell k t hk).1, mem_toFinset]
      exact hst
    · rcases h.fit hs' with hneg | hl
      · rcases h.tails.tail s hs' with e | ⟨c, -, e, -⟩
        · exact .inl ((hp.none s hin hneg).trans e)
        · omega
      · obtain ⟨h0, hlt, hmem⟩ := (hp.kept s hl hin).lives
        exact .inr ⟨(m₄.tail s).toNat, by show _ < m₄.size; omega,
          (Int.toNat_of_nonneg h0).symm, .inl hmem⟩
  · have hc' : c < m.size := hsize ▸ hc
    have hout : c < lo ∨ lo + u.sets.length ≤ c := by
      by_contra hin
      obtain ⟨k, rfl⟩ := Nat.exists_eq_add_of_le (show lo ≤ c by omega)
      obtain ⟨s, hk⟩ : ∃ s, u.sets[k]? = some s :=
        ⟨_, getElem?_eq_getElem (show k < u.sets.length by omega)⟩
      have hcell := (hp.cell k s hk).1
      rw [show m₄.seqId (lo + k) = ∅ from he] at hcell
      refine hu.ids _ (mem_of_getElem? hk) ?_
      simpa using hcell.symm
    obtain ⟨d, hd, -, hpos, hem, -⟩ := hp.rest c hc' hout
    exact hpos.trans (h.tails.empty d hd (hem he))

/-! ## `find_slot` -/

/-- What `find_slot` leaves when it returns `true`. -/
structure Found (m : RecurrentMemory) (u : RsUbatch) (m' : RecurrentMemory) : Prop where
  inv : m'.Inv
  frame : Frame m m'
  cells : ∀ k s, u.sets[k]? = some s → m'.seqId (m'.head + k) = (s.seqIds.map Int.toNat).toFinset
  /-- The cell of a set is read from where the state of its first sequence was. -/
  reads : ∀ k s, u.sets[k]? = some s → ((RsSet.first s : Nat) : Int) ∉ s.seqIds.tail →
    0 ≤ m.tail (RsSet.first s) → 0 ≤ m.src (m.tail (RsSet.first s)).toNat →
    m'.src0 (m'.head + k) = m.src (m.tail (RsSet.first s)).toNat

/-- The first sequence of a set is in no other set. -/
theorem RsUbatch.Ok.first_notMem (hu : u.Ok) (h0 : ∀ s ∈ u.sets, ∀ id ∈ s.seqIds, 0 ≤ id)
    {k : Nat} {s : RsSet} (hk : u.sets[k]? = some s)
    (hs : ((RsSet.first s : Nat) : Int) ∉ s.seqIds.tail) : s.first ∉ u.others := by
  intro hx
  rw [RsUbatch.others, mem_toFinset, mem_flatMap] at hx
  obtain ⟨t, ht, hxt⟩ := hx
  obtain ⟨j, hj⟩ := getElem?_of_mem ht
  obtain ⟨id, hid, e⟩ := mem_map.mp hxt
  have hsm := mem_of_getElem? hk
  have := h0 t ht id (mem_of_mem_tail hid)
  obtain rfl : id = (s.first : Nat) := by omega
  obtain rfl := hu.eq_of_mem hj hk (mem_of_mem_tail hid) (hu.first_mem hsm (h0 s hsm))
  obtain rfl := Option.some.inj (hj.symm.trans hk)
  exact hs hid

/-- `find_slot` on a memory that keeps the invariant: it keeps it again, and of its asserts only
those on the ubatch and on the zeroed state can fail. -/
theorem findSlot_spec (h : m.Inv) (hu : u.Ok) :
    (∃ m', m.findSlot u = .ok (m', false) ∧ m'.Inv ∧ Frame m m') ∨
    (∃ m', m.findSlot u = .ok (m', true) ∧ Found m u m') ∨
    m.findSlot u = .error .equalSeqs ∨ m.findSlot u = .error .rsZ := by
  have hheld := h.tails.held
  have hunshared := h.unshared u
  obtain ⟨out, hl, -, -, hout⟩ := unshared_left hheld h.head_lt u
  have h0 : m.IdsValid u.sets → ∀ s ∈ u.sets, ∀ id ∈ s.seqIds, 0 ≤ id :=
    fun hv s hs id hid => (hv s hs id hid).1
  rcases findSlot_cases hheld h.head_lt hu.ne hu.ids fun hv => hu.firsts_nodup (h0 hv) with
    ⟨-, e⟩ | ⟨-, -, e⟩ | ⟨hv, ⟨s, hs, hno⟩, -⟩ | ⟨-, e⟩ | ⟨m4, lo, len, hv, hp, e⟩
  · exact .inr (.inr (.inl e))
  · exact .inl ⟨_, e, hunshared, hl.frame⟩
  · obtain ⟨t, ht, rfl⟩ := mem_map.mp hs
    have := hv t ht _ (hu.first_mem ht (h0 hv t ht))
    exact absurd (hunshared.fit (by rw [hl.frame.size]; omega)) hno
  · exact .inr (.inr (.inr e))
  · obtain rfl := hout hv
    have hinv := hp.inv hunshared hu (by rwa [IdsValid, hl.frame.size]) hl.gone
    refine .inr (.inl ⟨_, e, hinv, hl.frame.trans ⟨hp.frame.size, hp.frame.nSeqMax,
      hp.frame.nRsSeq, hp.frame.rsIdx⟩, fun k s hk => (hp.cell k s hk).1, ?_⟩)
    intro k s hk hdup ht hsrc
    have hsm := mem_of_getElem? hk
    have hlt := hv s hsm _ (hu.first_mem hsm (h0 hv s hsm))
    have hd := RsUbatch.Ok.first_notMem hu (h0 hv) hk hdup
    have hk2 := hl.kept _ (h.lives (by omega) ht) hd
    have hrow := (hp.lived k s hk hk2.lives).trans hk2.src
    have := (List.getElem?_eq_some_iff.mp hk).1
    have := hp.range
    have hin : lo ≤ lo + k ∧ lo + k < lo + len := by omega
    exact (staged_src0 hin).trans (by rw [if_neg (by omega), hrow])

end

end BeeLlama.RecurrentMemory
