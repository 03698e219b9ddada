import BeeLlama.Recurrent.FindSlot
import Mathlib.Tactic.Ring

/-!
# The tails of the recurrent memory

`Tails m waits`: `tail` of `s` is the cell with `s` and every cell knows its sequences, except that
a sequence with `waits` may have an empty cell that was taken for it. `Inv` adds that nobody waits
and that `used` counts the cells with a sequence. There is one lemma for each operation; the passes
of `find_slot` are in `BeeLlama/Recurrent/FindSlotInv.lean`.
-/

namespace BeeLlama.RecurrentMemory

open Function Finset Int RecurrentMemory RecurrentMemory

/-- The tails and the cells agree. -/
structure Tails (m : RecurrentMemory) (waits : Nat → Prop) : Prop where
  own : ∀ c, c < m.size → ∀ s ∈ m.seqId c, s < m.size ∧ m.tail s = c
  tail : ∀ s, s < m.size → m.tail s = -1 ∨
    ∃ c, c < m.size ∧ m.tail s = (c : Nat) ∧ (s ∈ m.seqId c ∨ (waits s ∧ m.seqId c = ∅))
  empty : ∀ c, c < m.size → m.seqId c = ∅ → m.pos c = -1

/-- The invariant of the memory between two calls. -/
structure Inv (m : RecurrentMemory) : Prop where
  size_lt : m.size < 2 ^ 32
  seqs_le : m.nSeqMax ≤ m.size
  head_lt : m.head < m.size
  tails : m.Tails fun _ => False
  used : m.used = m.countUsed

section

variable {m : RecurrentMemory} {waits : Nat → Prop}

variable {m' : RecurrentMemory} {i : Nat} {gone counted : Nat → Bool} {c s : Nat}

theorem Tails.congr (h : m.Tails waits) (hsize : m'.size = m.size)
    (hseq : m'.seqId = m.seqId) (htail : m'.tail = m.tail)
    (hpos : ∀ c, c < m.size → m.seqId c = ∅ → m'.pos c = -1) : m'.Tails waits := by
  refine ⟨?_, ?_, ?_⟩
  · rw [hsize, hseq, htail]
    exact h.own
  · rw [hsize, hseq, htail]
    exact h.tail
  · rw [hsize, hseq]
    exact hpos

/-- A sequence that does not wait is in the cell at its tail. -/
theorem Tails.mem_of_tail (h : m.Tails waits) {s : Nat} (hs : s < m.size) (hw : ¬ waits s)
    (ht : 0 ≤ m.tail s) : (m.tail s).toNat < m.size ∧ s ∈ m.seqId (m.tail s).toNat := by
  rcases h.tail s hs with e | ⟨c, hc, e, hi | ⟨hws, -⟩⟩
  · omega
  · rw [e, toNat_natCast]
    exact ⟨hc, hi⟩
  · exact absurd hws hw

theorem Tails.not_mem (h : m.Tails waits) {s c : Nat} (hc : c < m.size)
    (ht : m.tail s ≠ (c : Nat)) : s ∉ m.seqId c := fun hi => ht (h.own c hc s hi).2

/-! ## Counting -/

/-- The cells with a sequence. -/
def usedCells (m : RecurrentMemory) : Finset Nat :=
  (Finset.range m.size).filter fun i => m.seqId i ≠ ∅

theorem mem_usedCells : i ∈ m.usedCells ↔ i < m.size ∧ m.seqId i ≠ ∅ := by
  simp [usedCells]

theorem countUsed_eq (m : RecurrentMemory) : m.countUsed = m.usedCells.card := by
  have : m.usedCells = ((List.range m.size).filter fun i => !m.isEmpty i).toFinset := by
    ext i
    simp [usedCells, isEmpty]
  rw [this, List.toFinset_card_of_nodup (List.nodup_range.filter _)]
  rfl

theorem countUsed_le (m : RecurrentMemory) : m.countUsed ≤ m.size := by
  rw [countUsed_eq]
  exact (card_filter_le _ _).trans (card_range m.size).le

theorem countUsed_congr (hsize : m'.size = m.size)
    (h : ∀ c, c < m.size → (m'.seqId c = ∅ ↔ m.seqId c = ∅)) : m'.countUsed = m.countUsed := by
  rw [countUsed_eq, countUsed_eq, usedCells, usedCells, hsize]
  congr 1
  refine Finset.filter_congr fun c hc => ?_
  rw [ne_eq, h c (Finset.mem_range.mp hc)]

theorem decUsed_succ {u : Nat} (h : u + 1 < 2 ^ 32) : decUsed (u + 1) = u := by
  unfold decUsed UINT32_MAX
  omega

theorem decUsed_iterate {k u : Nat} (h : u + k < 2 ^ 32) : decUsed^[k] (u + k) = u := by
  induction k with
  | zero => rfl
  | succ k ih =>
    rw [iterate_succ_apply, ← Nat.add_assoc, decUsed_succ (by omega)]
    exact ih (by omega)

/-- A cell that becomes empty counts one less. -/
theorem countUsed_empty (hsize : m'.size = m.size) {c : Nat}
    (hc : c < m.size) (hne : m.seqId c ≠ ∅) (he : m'.seqId c = ∅)
    (h : ∀ i, i ≠ c → m'.seqId i = m.seqId i) : m.countUsed = m'.countUsed + 1 := by
  have hmem : c ∈ m.usedCells := Finset.mem_filter.mpr ⟨Finset.mem_range.mpr hc, hne⟩
  have : m'.usedCells = m.usedCells.erase c := by
    ext i
    rw [mem_erase, usedCells, usedCells, Finset.mem_filter, Finset.mem_filter, hsize]
    rcases eq_or_ne i c with rfl | hi
    · simp [he]
    · simp [hi, h i hi]
  rw [countUsed_eq, countUsed_eq, this, card_erase_of_mem hmem]
  have := card_pos.mpr ⟨c, hmem⟩
  omega

/-! ## The loops over the cells -/

variable {keep : Nat → Finset Nat}

theorem sweep_seqId (hi : i < m.size) : (m.sweep keep gone counted).seqId i = keep i := if_pos hi

theorem sweep_head_lt (h : m.head < m.size) : (m.sweep keep gone counted).head < m.size := by
  unfold sweep
  dsimp only
  split
  · exact (Nat.min_le_right ..).trans_lt h
  · exact h

/-- `used` after a loop that empties some cells and counts those that had a sequence. -/
theorem sweep_used (hsize : m.size < 2 ^ 32) (hu : m.used = m.countUsed)
    (hk : ∀ i, i < m.size → (keep i = ∅ ↔ m.seqId i = ∅ ∨ counted i = true))
    (hc : ∀ i, i < m.size → counted i = true → m.seqId i ≠ ∅) :
    (m.sweep keep gone counted).used = (m.sweep keep gone counted).countUsed := by
  set k := ((List.range m.size).filter counted).length with hkdef
  have hsplit : m.countUsed = (m.sweep keep gone counted).countUsed + k := by
    have hcard : k = ((Finset.range m.size).filter fun i => counted i = true).card := by
      rw [hkdef, ← List.toFinset_card_of_nodup (List.nodup_range.filter _)]
      congr 1
      ext i
      simp
    rw [countUsed_eq, countUsed_eq, hcard, ← card_union_of_disjoint]
    · congr 1
      ext i
      rw [mem_union, mem_usedCells, mem_usedCells, Finset.mem_filter, Finset.mem_range]
      by_cases hi : i < m.size
      · rw [sweep_seqId hi, ne_eq (keep i), hk i hi]
        tauto
      · have : ¬ i < (m.sweep keep gone counted).size := hi
        tauto
    · rw [Finset.disjoint_left]
      intro i hi hci
      obtain ⟨hlt, hne⟩ := mem_usedCells.mp hi
      have hi : i < m.size := hlt
      rw [sweep_seqId hi, ne_eq, hk i hi] at hne
      exact hne (.inr (Finset.mem_filter.mp hci).2)
  show decUsed^[k] m.used = _
  have := m.countUsed_le
  rw [hu, hsplit]
  exact decUsed_iterate (by omega)

/-! ## One sequence leaves a cell -/

@[simp] theorem leave_seqId_self : (m.leave c s).seqId c = (m.seqId c).erase s :=
  update_self ..

theorem leave_seqId {c s i : Nat} (hi : i ≠ c) : (m.leave c s).seqId i = m.seqId i :=
  update_of_ne hi ..

theorem leave_pos {c s i : Nat} (hi : i ≠ c) : (m.leave c s).pos i = m.pos i := by
  simp only [leave]
  split
  · exact update_of_ne hi ..
  · rfl

theorem leave_pos_self (he : (m.seqId c).erase s = ∅) : (m.leave c s).pos c = -1 := by
  simp only [leave, he, if_true]
  exact update_self ..

/-- The sequence leaves its cell and its tail is reset. -/
theorem Tails.leave (h : m.Tails waits) (hc : c < m.size) (hs : s ∈ m.seqId c)
    (hsize : m'.size = m.size) (hseq : m'.seqId = (m.leave c s).seqId)
    (hpos : m'.pos = (m.leave c s).pos) (htail : m'.tail = Function.update m.tail s (-1)) :
    m'.Tails waits := by
  have hmem : ∀ i, i < m.size → ∀ x, x ∈ m'.seqId i ↔ x ∈ m.seqId i ∧ x ≠ s := by
    intro i hi x
    rw [hseq]
    rcases eq_or_ne i c with rfl | hic
    · rw [leave_seqId_self, mem_erase, and_comm]
    · rw [leave_seqId hic]
      refine ⟨fun hx => ⟨hx, fun e => hic ?_⟩, fun hx => hx.1⟩
      subst e
      have h1 := (h.own i hi x hx).2
      have h2 := (h.own c hc x hs).2
      omega
  refine ⟨fun i hi x hx => ?_, fun x hx => ?_, fun i hi he => ?_⟩
  · rw [hsize] at hi ⊢
    obtain ⟨hx, hne⟩ := (hmem i hi x).mp hx
    rw [htail, update_of_ne hne]
    exact h.own i hi x hx
  · rw [hsize] at hx ⊢
    rcases eq_or_ne x s with rfl | hne
    · left
      rw [htail, update_self]
    · rw [htail, update_of_ne hne]
      rcases h.tail x hx with ht | ⟨i, hi, ht, hx' | ⟨hw, he⟩⟩
      · exact .inl ht
      · exact .inr ⟨i, hi, ht, .inl ((hmem i hi x).mpr ⟨hx', hne⟩)⟩
      · refine .inr ⟨i, hi, ht, .inr ⟨hw, ?_⟩⟩
        rw [eq_empty_iff_forall_notMem] at he ⊢
        exact fun y hy => he y ((hmem i hi y).mp hy).1
  · rw [hsize] at hi
    rw [hpos]
    rw [hseq] at he
    rcases eq_or_ne i c with rfl | hic
    · rw [leave_seqId_self] at he
      exact leave_pos_self he
    · rw [leave_seqId hic] at he
      rw [leave_pos hic]
      exact h.empty i hi he

/-- `used` after a sequence left its cell. -/
theorem leave_used (hlt : m.size < 2 ^ 32) (hu : m.used = m.countUsed)
    (hc : c < m.size) (hs : s ∈ m.seqId c) (hsize : m'.size = m.size)
    (hseq : m'.seqId = (m.leave c s).seqId)
    (hused : m'.used = if (m.seqId c).erase s = ∅ then decUsed m.used else m.used) :
    m'.used = m'.countUsed := by
  have hne : m.seqId c ≠ ∅ := ne_empty_of_mem hs
  have hle := m.countUsed_le
  rw [hused]
  split
  · rename_i he
    have := countUsed_empty hsize hc hne (by rw [hseq, leave_seqId_self, he])
      fun i hi => by rw [hseq, leave_seqId hi]
    rw [hu, this]
    exact decUsed_succ (by omega)
  · rename_i he
    rw [hu]
    refine (countUsed_congr hsize fun i hi => ?_).symm
    rw [hseq]
    rcases eq_or_ne i c with rfl | hic
    · rw [leave_seqId_self]
      exact iff_of_false he hne
    · rw [leave_seqId hic]

theorem Tails.dropSeq (h : m.Tails waits) {s : Nat} (hs : s < m.size) (hw : ¬ waits s) :
    (m.dropSeq s).Tails waits ∧ (m.dropSeq s).size = m.size ∧ (m.dropSeq s).tail s = -1 ∧
      ∀ x, x ≠ s → (m.dropSeq s).tail x = m.tail x := by
  unfold RecurrentMemory.dropSeq
  split
  · rename_i ht
    obtain ⟨hc, hi⟩ := h.mem_of_tail hs hw ht
    exact ⟨h.leave hc hi rfl rfl rfl rfl, rfl, update_self .., fun x hx => update_of_ne hx ..⟩
  · rename_i ht
    refine ⟨h, rfl, ?_, fun _ _ => rfl⟩
    rcases h.tail s hs with e | ⟨c, -, e, -⟩
    · exact e
    · omega

theorem dropSeq_nSeqMax (m : RecurrentMemory) (s : Nat) : (m.dropSeq s).nSeqMax = m.nSeqMax := by
  unfold dropSeq
  split <;> rfl

theorem dropSeq_head (m : RecurrentMemory) (s : Nat) : (m.dropSeq s).head = m.head := by
  unfold dropSeq
  split <;> rfl

theorem Inv.dropSeq (h : m.Inv) {s : Nat} (hs : s < m.size) : (m.dropSeq s).Inv := by
  obtain ⟨ht, hsize, -, -⟩ := h.tails.dropSeq hs not_false
  refine ⟨hsize ▸ h.size_lt, ?_, ?_, ht, ?_⟩
  · rw [hsize, dropSeq_nSeqMax]
    exact h.seqs_le
  · rw [hsize, dropSeq_head]
    exact h.head_lt
  · unfold RecurrentMemory.dropSeq
    split
    · rename_i ht
      obtain ⟨hc, hi⟩ := h.tails.mem_of_tail hs not_false ht
      exact leave_used h.size_lt h.used hc hi rfl rfl rfl
    · exact h.used

/-! ## The operations -/

theorem Inv.congr (h : m.Inv) (hsize : m'.size = m.size)
    (hmax : m'.nSeqMax = m.nSeqMax) (hseq : m'.seqId = m.seqId) (htail : m'.tail = m.tail)
    (hused : m'.used = m.used) (hhead : m'.head = m.head)
    (hpos : ∀ c, c < m.size → m.seqId c = ∅ → m'.pos c = -1) : m'.Inv := by
  refine ⟨hsize ▸ h.size_lt, ?_, ?_, h.tails.congr hsize hseq htail hpos, ?_⟩
  · rw [hsize, hmax]
    exact h.seqs_le
  · rw [hsize, hhead]
    exact h.head_lt
  · rw [hused, h.used]
    exact (countUsed_congr hsize fun c _ => by rw [hseq]).symm

theorem Inv.clear (h : m.Inv) : m.clear.Inv where
  size_lt := h.size_lt
  seqs_le := h.seqs_le
  head_lt := Nat.zero_lt_of_lt h.head_lt
  tails := {
    own := fun c hc s hs => by
      have hs' : s ∈ if c < m.size then ∅ else m.seqId c := hs
      rw [if_pos (show c < m.size from hc)] at hs'
      exact absurd hs' (notMem_empty s)
    tail := fun s hs => .inl (if_pos hs)
    empty := fun c hc _ => if_pos hc }
  used := by
    have : m.clear.usedCells = ∅ := by
      rw [eq_empty_iff_forall_notMem]
      intro i hi
      obtain ⟨hi, hne⟩ := mem_usedCells.mp hi
      exact hne (if_pos hi)
    rw [countUsed_eq, this]
    rfl

/-- `set_rs_idx` changes nothing else. -/
theorem setRsIdx_eq (m : RecurrentMemory) (seqId : Int) (idx : Nat) :
    m.setRsIdx seqId idx = { m with rsIdx := (m.setRsIdx seqId idx).rsIdx } := by
  unfold setRsIdx
  split <;> rfl

theorem Inv.setRsIdx (h : m.Inv) (seqId : Int) (idx : Nat) : (m.setRsIdx seqId idx).Inv := by
  rw [setRsIdx_eq]
  exact h.congr rfl rfl rfl rfl rfl rfl h.tails.empty

variable {seqId p0 p1 : Int}

theorem rmCells_seqId (hi : i < m.size) :
    (m.rmCells seqId p0 p1).seqId i = m.keptBy seqId p0 p1 i := if_pos hi

/-- The loop of `seq_rm` when the tail of the sequence was in the range: the sequence leaves. -/
theorem Inv.rmCells_leave (h : m.Inv) {s c : Nat} {p0 p1 : Int} (hp0 : 0 ≤ p0) (hc : c < m.size)
    (hs : s ∈ m.seqId c) (hr : p0 ≤ m.pos c ∧ m.pos c < p1) :
    ({ m with tail := Function.update m.tail s (-1) }.rmCells s p0 p1).Inv := by
  set m1 : RecurrentMemory := { m with tail := Function.update m.tail s (-1) } with hm1
  have hnot : ∀ i, i < m.size → i ≠ c → s ∉ m.seqId i := fun i hi hic hsi => hic (by
    have h1 := (h.tails.own i hi s hsi).2
    have h2 := (h.tails.own c hc s hs).2
    omega)
  have hkept : ∀ i, i < m.size → m1.keptBy s p0 p1 i = (m.leave c s).seqId i := by
    intro i hi
    unfold keptBy
    rcases eq_or_ne i c with rfl | hic
    · rw [if_pos hr, if_neg (by omega), leave_seqId_self, toNat_natCast]
    · rw [leave_seqId hic]
      split
      · rw [if_neg (by omega), toNat_natCast]
        exact erase_eq_of_notMem (hnot i hi hic)
      · rfl
  have hgone : ∀ i, i < m.size → (m1.goneBy s p0 p1 i = true ↔
      i = c ∧ (m.seqId c).erase s = ∅) := by
    intro i hi
    unfold goneBy
    rw [hkept i hi]
    rcases eq_or_ne i c with rfl | hic
    · rw [leave_seqId_self]
      simp [hasSeqId, hm1, hr, hs]
    · simp [hasSeqId, hm1, hnot i hi hic, hic]
  refine ⟨h.size_lt, h.seqs_le, sweep_head_lt h.head_lt, h.tails.leave hc hs rfl ?_ ?_ rfl, ?_⟩
  · funext i
    by_cases hi : i < m.size
    · exact (rmCells_seqId hi).trans (hkept i hi)
    · show (if i < m.size then _ else m.seqId i) = _
      rw [if_neg hi, leave_seqId (by omega)]
  · funext i
    show (if i < m.size ∧ m1.goneBy s p0 p1 i = true then -1 else m.pos i) = _
    by_cases hi : i < m.size
    · rcases eq_or_ne i c with rfl | hic
      · by_cases he : (m.seqId i).erase s = ∅
        · rw [if_pos ⟨hi, (hgone i hi).mpr ⟨rfl, he⟩⟩, leave_pos_self he]
        · rw [if_neg fun hg => he ((hgone i hi).mp hg.2).2]
          simp [leave, he]
      · rw [if_neg fun hg => hic ((hgone i hi).mp hg.2).1, leave_pos hic]
    · rw [if_neg fun hg => hi hg.1, leave_pos (by omega)]
  · have hcount : m1.countUsed = m.countUsed := rfl
    refine sweep_used (m := m1) h.size_lt h.used (fun i hi => ?_) fun i hi hci => ?_
    · rw [hkept i hi, Bool.and_eq_true, hgone i hi, decide_eq_true_iff]
      rcases eq_or_ne i c with rfl | hic
      · rw [leave_seqId_self]
        have hne : m1.seqId i ≠ ∅ := ne_empty_of_mem hs
        have hp : 0 ≤ m1.pos i := hp0.trans hr.1
        tauto
      · rw [leave_seqId hic]
        show m.seqId i = ∅ ↔ m.seqId i = ∅ ∨ _
        tauto
    · rw [Bool.and_eq_true, hgone i hi] at hci
      rw [hci.1.1]
      exact ne_empty_of_mem hs

/-- The loop of `seq_rm` when no cell of the sequence is in the range. -/
theorem Inv.rmCells_self (h : m.Inv) (hk : ∀ i, i < m.size → m.keptBy seqId p0 p1 i = m.seqId i)
    (hg : ∀ i, i < m.size → m.goneBy seqId p0 p1 i = false) : (m.rmCells seqId p0 p1).Inv := by
  refine ⟨h.size_lt, h.seqs_le, sweep_head_lt h.head_lt,
    h.tails.congr rfl ?_ rfl fun c hc he => ?_, ?_⟩
  · funext i
    by_cases hi : i < m.size
    · exact (rmCells_seqId hi).trans (hk i hi)
    · exact if_neg hi
  · show (if c < m.size ∧ m.goneBy seqId p0 p1 c = true then -1 else m.pos c) = -1
    rw [hg c hc, if_neg (by simp)]
    exact h.tails.empty c hc he
  · refine sweep_used h.size_lt h.used (fun i hi => ?_) fun i hi hci => ?_
    · rw [hk i hi, hg i hi]
      simp
    · rw [hg i hi] at hci
      simp at hci

/-- The removal leaves the tails in order: it is of one sequence, or it finds nothing. -/
def RmKeeps (m : RecurrentMemory) (seqId p0 p1 : Int) : Prop :=
  0 ≤ seqId ∨ ∀ c, c < m.size → m.seqId c ≠ ∅ → ¬ (lower p0 ≤ m.pos c ∧ m.pos c < upper p1)

theorem lower_nonneg (p0 : Int) : 0 ≤ lower p0 := by
  unfold lower
  split <;> omega

theorem Inv.seqRm_seq (h : m.Inv) (h0 : 0 ≤ seqId) (hlt : seqId < m.size)
    (hr : ¬ m.rollsBack seqId p0 p1) :
    ((if m.tail seqId.toNat ≥ 0 ∧ lower p0 ≤ m.pos (m.tail seqId.toNat).toNat ∧
        m.pos (m.tail seqId.toNat).toNat < upper p1 then
        { m with tail := Function.update m.tail seqId.toNat (-1) } else m).rmCells seqId
      (lower p0) (upper p1)).Inv := by
  obtain ⟨s, rfl⟩ : ∃ s : Nat, seqId = s := ⟨seqId.toNat, by omega⟩
  rw [toNat_natCast]
  split
  · rename_i hin
    obtain ⟨hc, hs⟩ := h.tails.mem_of_tail (by omega) not_false hin.1
    exact h.rmCells_leave (lower_nonneg p0) hc hs hin.2
  · rename_i hout
    have hno : ∀ i, i < m.size → lower p0 ≤ m.pos i ∧ m.pos i < upper p1 → s ∉ m.seqId i := by
      intro i hi hin hs
      have ht := (h.tails.own i hi s hs).2
      rw [ht, toNat_natCast] at hout
      exact hout ⟨by omega, hin⟩
    refine h.rmCells_self (fun i hi => ?_) fun i hi => ?_
    · unfold keptBy
      split
      · rename_i hin
        rw [if_neg (by omega), toNat_natCast]
        exact erase_eq_of_notMem (hno i hi hin)
      · rfl
    · unfold goneBy
      by_cases hin : lower p0 ≤ m.pos i ∧ m.pos i < upper p1
      · simp [hasSeqId, hno i hi hin]
      · rw [decide_eq_false hin]
        rfl

theorem Inv.seqRm_all (h : m.Inv) (hn : seqId < 0)
    (hk : m.RmKeeps seqId p0 p1) : (m.rmCells seqId (lower p0) (upper p1)).Inv := by
  have hno : ∀ i, i < m.size → ¬ (lower p0 ≤ m.pos i ∧ m.pos i < upper p1) := by
    intro i hi hin
    by_cases he : m.seqId i = ∅
    · have := h.tails.empty i hi he
      have := lower_nonneg p0
      omega
    · exact hk.resolve_left (by omega) i hi he hin
  refine h.rmCells_self (fun i hi => if_neg (hno i hi)) fun i hi => ?_
  unfold goneBy
  rw [decide_eq_false (hno i hi)]
  rfl

theorem Inv.seqRm (h : m.Inv) (hk : m.RmKeeps seqId p0 p1) : (m.seqRm seqId p0 p1).1.Inv := by
  unfold RecurrentMemory.seqRm
  split
  · exact h
  · dsimp only
    have hm : ∀ {m' : RecurrentMemory}, (m' = m ∨ m' = m.setRsIdx seqId 0 ∨
        m' = { m with rsIdx := fun _ => 0 }) → m'.Inv ∧ m'.size = m.size ∧
          m'.RmKeeps seqId p0 p1 := by
      rintro m' (rfl | rfl | rfl)
      · exact ⟨h, rfl, hk⟩
      · refine ⟨h.setRsIdx seqId 0, ?_, ?_⟩
        · rw [setRsIdx_eq]
        · rw [setRsIdx_eq]
          exact hk
      · exact ⟨h.congr rfl rfl rfl rfl rfl rfl h.tails.empty, rfl, hk⟩
    generalize hm' : (if lower p0 = 0 ∧ upper p1 = INT32_MAX then
      if seqId ≥ 0 then m.setRsIdx seqId 0 else { m with rsIdx := fun _ => 0 } else m) = m'
    have hcase : m' = m ∨ m' = m.setRsIdx seqId 0 ∨ m' = { m with rsIdx := fun _ => 0 } := by
      rw [← hm']
      split
      · split
        · exact .inr (.inl rfl)
        · exact .inr (.inr rfl)
      · exact .inl rfl
    obtain ⟨hi, hsize, hk'⟩ := hm hcase
    split
    · exact hi
    · split
      · split
        · rename_i hback
          split
          · rw [setRsIdx_eq]
            refine hi.congr rfl rfl rfl rfl rfl rfl fun c hc he => ?_
            obtain ⟨-, hs⟩ := hi.tails.mem_of_tail (by omega) not_false hback.1
            have hne : c ≠ (m'.tail seqId.toNat).toNat := by
              rintro rfl
              exact ne_empty_of_mem hs he
            exact (update_of_ne hne ..).trans (hi.tails.empty c hc he)
          · exact hi
        · exact hi.seqRm_seq (by omega) (by omega) (by assumption)
      · split
        · exact hi
        · exact hi.seqRm_all (by omega) hk'

/-- The removal from a cell counts right: the cell does not become empty, or it has a position. -/
def RmCellKeeps (m : RecurrentMemory) (seqId : Int) (cellIdx : Nat) : Prop :=
  m.hasSeqId cellIdx seqId = true → (m.seqId cellIdx).erase seqId.toNat = ∅ → 0 ≤ m.pos cellIdx

theorem hasSeqId_iff {id : Int} :
    m.hasSeqId i id = true ↔ 0 ≤ id ∧ id.toNat ∈ m.seqId i := decide_eq_true_iff

theorem Inv.seqRmCell (h : m.Inv) {seqId : Int} {cellIdx : Nat}
    (hk : m.RmCellKeeps seqId cellIdx) : (m.seqRmCell seqId cellIdx).1.Inv := by
  unfold RecurrentMemory.seqRmCell
  split
  · exact h
  · rename_i hin
    split
    · exact h
    · rename_i hhas
      have hhas' : m.hasSeqId cellIdx seqId = true := by simpa using hhas
      obtain ⟨-, hs⟩ := hasSeqId_iff.mp hhas'
      have hc : cellIdx < m.size := by omega
      obtain ⟨hlt, ht⟩ := h.tails.own cellIdx hc _ hs
      dsimp only
      rw [if_pos ⟨hlt, ht⟩]
      refine ⟨h.size_lt, h.seqs_le, ?_, h.tails.leave hc hs rfl rfl rfl rfl,
        leave_used h.size_lt h.used hc hs rfl rfl ?_⟩
      · show (if (decide _ && decide (cellIdx < m.head)) = true then cellIdx else m.head) < m.size
        split
        · exact hc
        · exact h.head_lt
      show (if (decide _ && decide _) = true then decUsed m.used else m.used) = _
      by_cases he : (m.seqId cellIdx).erase seqId.toNat = ∅
      · simp [he, hk hhas' he]
      · simp [he]

/-- A sequence without a cell joins a cell that has a sequence. -/
theorem Inv.join (h : m.Inv) {s c : Nat} (hs : s < m.size) (hc : c < m.size)
    (ht : m.tail s = -1) (hne : m.seqId c ≠ ∅) :
    ({ m with
        seqId := Function.update m.seqId c (insert s (m.seqId c))
        tail := Function.update m.tail s c } : RecurrentMemory).Inv := by
  have hmem : ∀ i x, x ∈ Function.update m.seqId c (insert s (m.seqId c)) i ↔
      x ∈ m.seqId i ∨ (i = c ∧ x = s) := by
    intro i x
    rcases eq_or_ne i c with rfl | hic
    · rw [update_self, mem_insert]
      tauto
    · rw [update_of_ne hic]
      tauto
  have hns : ∀ i, i < m.size → s ∉ m.seqId i := fun i hi =>
    h.tails.not_mem hi (by omega)
  refine ⟨h.size_lt, h.seqs_le, h.head_lt,
    ⟨fun i hi x hx => ?_, fun x hx => ?_, fun i hi he => ?_⟩, ?_⟩
  · rcases (hmem i x).mp hx with hx | ⟨rfl, rfl⟩
    · have hxs : x ≠ s := fun e => hns i hi (e ▸ hx)
      obtain ⟨hlt, e⟩ := h.tails.own i hi x hx
      exact ⟨hlt, (update_of_ne hxs ..).trans e⟩
    · exact ⟨hs, update_self ..⟩
  · rcases eq_or_ne x s with rfl | hxs
    · exact .inr ⟨c, hc, update_self .., .inl ((hmem c x).mpr (.inr ⟨rfl, rfl⟩))⟩
    · rcases h.tails.tail x hx with e | ⟨i, hi, e, hx' | ⟨hf, -⟩⟩
      · exact .inl ((update_of_ne hxs ..).trans e)
      · exact .inr ⟨i, hi, (update_of_ne hxs ..).trans e, .inl ((hmem i x).mpr (.inl hx'))⟩
      · exact hf.elim
  · refine h.tails.empty i hi (eq_empty_iff_forall_notMem.mpr fun x hx => ?_)
    exact (eq_empty_iff_forall_notMem.mp he) x ((hmem i x).mpr (.inl hx))
  · refine h.used.trans (Eq.symm ?_)
    refine countUsed_congr rfl fun i hi => ?_
    show Function.update m.seqId c (insert s (m.seqId c)) i = ∅ ↔ _
    rcases eq_or_ne i c with rfl | hic
    · rw [update_self]
      exact iff_of_false (insert_ne_empty _ _) hne
    · rw [update_of_ne hic]

theorem Inv.seqCp (h : m.Inv) (src dst : Int) : (m.seqCp src dst).Inv := by
  unfold RecurrentMemory.seqCp
  split
  · exact h
  · rename_i hne
    split
    · rename_i hin
      have hd : dst.toNat < m.size := by omega
      obtain ⟨-, hsize, hdst, hother⟩ := h.tails.dropSeq hd not_false
      have hi := h.dropSeq hd
      dsimp only
      split
      · rename_i ht
        obtain ⟨hc, hs⟩ := hi.tails.mem_of_tail (s := src.toNat) (by omega) not_false ht
        have := hi.join (s := dst.toNat) (by omega) hc hdst (ne_empty_of_mem hs)
        rwa [toNat_of_nonneg ht] at this
      · exact hi
    · exact h

/-- The cells that `seq_keep` empties have a position. -/
def KeepKeeps (m : RecurrentMemory) (seqId : Int) : Prop :=
  ∀ c, c < m.size → m.seqId c ≠ ∅ → m.hasSeqId c seqId = false → 0 ≤ m.pos c

theorem Inv.seqKeep (h : m.Inv) {seqId : Int} (hk : m.KeepKeeps seqId) : (m.seqKeep seqId).Inv := by
  have hseq : ∀ i, i < m.size → (m.seqKeep seqId).seqId i =
      if m.hasSeqId i seqId then {seqId.toNat} else ∅ := fun i hi => if_pos hi
  have htail : ∀ i, i < m.size → (m.seqKeep seqId).tail i =
      if (i : Int) ≠ seqId then -1 else m.tail i := by
    intro i hi
    show (if i < m.size ∧ (i : Int) ≠ seqId then -1 else m.tail i) = _
    simp only [hi, true_and]
  refine ⟨h.size_lt, h.seqs_le, sweep_head_lt h.head_lt,
    ⟨fun i hi x hx => ?_, fun x hx => ?_, fun i hi he => ?_⟩, ?_⟩
  · rw [hseq i hi] at hx
    split at hx
    · rename_i hhas
      obtain ⟨h0, hs⟩ := hasSeqId_iff.mp hhas
      obtain rfl := Finset.mem_singleton.mp hx
      obtain ⟨hlt, e⟩ := h.tails.own i hi _ hs
      rw [htail _ hlt, if_neg (by omega)]
      exact ⟨hlt, e⟩
    · exact absurd hx (notMem_empty x)
  · rw [htail x hx]
    split
    · exact .inl rfl
    · rename_i hxs
      rcases h.tails.tail x hx with e | ⟨c, hc, e, hs | ⟨hf, -⟩⟩
      · exact .inl e
      · refine .inr ⟨c, hc, e, .inl ?_⟩
        have hx' : seqId.toNat = x := by omega
        rw [hseq c hc, if_pos (hasSeqId_iff.mpr ⟨by omega, hx'.symm ▸ hs⟩), hx']
        exact Finset.mem_singleton_self x
      · exact hf.elim
  · rw [hseq i hi] at he
    have hno : m.hasSeqId i seqId = false := by
      by_contra hhas
      rw [if_pos (by simpa using hhas)] at he
      exact absurd he (singleton_ne_empty _)
    show (if i < m.size ∧ (!m.hasSeqId i seqId) = true then -1 else m.pos i) = -1
    rw [hno, if_pos ⟨hi, rfl⟩]
  · refine sweep_used (m := { m with
      tail := fun i => if i < m.size ∧ (i : Int) ≠ seqId then -1 else m.tail i })
      h.size_lt h.used (fun i hi => ?_) fun i hi hci => ?_
    · have := hk i hi
      have hemp : m.seqId i = ∅ → m.hasSeqId i seqId = false := fun he => by
        simp [hasSeqId, he]
      show (if m.hasSeqId i seqId = true then {seqId.toNat} else ∅) = ∅ ↔ m.seqId i = ∅ ∨
        (!m.hasSeqId i seqId && decide (m.pos i ≥ 0)) = true
      cases hhas : m.hasSeqId i seqId with
      | true =>
        have hne : m.seqId i ≠ ∅ := fun he => by simp [hemp he] at hhas
        simp [hne]
      | false =>
        by_cases he : m.seqId i = ∅
        · simp [he]
        · simp [he, this he hhas]
    · have hp : 0 ≤ m.pos i := by
        simp only [Bool.and_eq_true, decide_eq_true_eq] at hci
        exact hci.2
      intro he
      have := h.tails.empty i hi he
      omega

theorem Inv.movePos (h : m.Inv) (seqId p0 p1 : Int) (f : Int → Int) :
    (m.movePos seqId p0 p1 f).Inv := by
  unfold RecurrentMemory.movePos
  split
  · exact h
  · split
    · dsimp only
      split
      · rename_i hin
        refine h.congr rfl rfl rfl rfl rfl rfl fun c hc he => ?_
        have hne : c ≠ (m.tail seqId.toNat).toNat := by
          rintro rfl
          exact ne_empty_of_mem (hasSeqId_iff.mp hin.2.1).2 he
        exact (update_of_ne hne ..).trans (h.tails.empty c hc he)
      · exact h
    · exact h

theorem Inv.seqAdd (h : m.Inv) (seqId p0 p1 shift : Int) : (m.seqAdd seqId p0 p1 shift).Inv := by
  unfold RecurrentMemory.seqAdd
  split
  · exact h
  · exact h.movePos seqId p0 p1 _

theorem Inv.seqDiv (h : m.Inv) (seqId p0 p1 d : Int) : (m.seqDiv seqId p0 p1 d).Inv := by
  unfold RecurrentMemory.seqDiv
  split
  · exact h
  · exact h.movePos seqId p0 p1 _

end

end BeeLlama.RecurrentMemory
