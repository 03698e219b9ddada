import BeeLlama.Recurrent.Run

/-!
# `find_slot` relocates without loss

* `Steady`: what every call keeps, also one that leaves tails over: a sequence is at most in the
  cell at its tail, and a cell is its own source or has none. So it holds in every reachable memory
  (`reach_steady`).
* `findSlot_relocates`: on a reachable memory whose tails are in order, `find_slot` puts the sets in
  a slot of cells that follow each other, and the other sequences keep what they had, apart from the
  sequences of the ubatch that were in their cell.
-/

namespace BeeLlama.RecurrentMemory

open Function Finset RecurrentMemory RecurrentMemory

/-- What every call keeps. -/
structure Steady (m : RecurrentMemory) : Prop where
  seqs_le : m.nSeqMax ≤ m.size
  head_lt : m.head < m.size
  held : m.Held
  selfSrc : m.SelfSrc

section

variable {m m' : RecurrentMemory}

/-- Cells lose sequences or their source, and a tail is reset when the sequence is in no cell. -/
theorem Steady.sub (h : m.Steady) (hsize : m'.size = m.size) (hmax : m'.nSeqMax = m.nSeqMax)
    (hhead : m'.head < m.size) (hseq : ∀ c, c < m.size → m'.seqId c ⊆ m.seqId c)
    (htail : ∀ x, x < m.size → m'.tail x = m.tail x ∨
      (m'.tail x = -1 ∧ ∀ c, c < m.size → x ∉ m'.seqId c))
    (hsrc : ∀ c, c < m.size → m'.src c = m.src c ∨ m'.src c = -1) : m'.Steady := by
  refine ⟨?_, hsize.symm ▸ hhead, ⟨fun c hc x hx => ?_, fun x hx => ?_⟩, fun c hc => ?_⟩
  · rw [hsize, hmax]
    exact h.seqs_le
  · rw [hsize] at hc ⊢
    obtain ⟨hlt, e⟩ := h.held.own c hc x (hseq c hc hx)
    refine ⟨hlt, ?_⟩
    rcases htail x hlt with e' | ⟨-, hno⟩
    · exact e'.trans e
    · exact absurd hx (hno c hc)
  · rw [hsize] at hx ⊢
    rcases htail x hx with e | ⟨e, -⟩
    · rw [e]
      exact h.held.tail_lt x hx
    · omega
  · rw [hsize] at hc
    rcases hsrc c hc with e | e
    · rw [e]
      exact h.selfSrc c hc
    · exact .inl e

theorem Steady.congr (h : m.Steady) (hsize : m'.size = m.size) (hmax : m'.nSeqMax = m.nSeqMax)
    (hhead : m'.head = m.head) (hseq : m'.seqId = m.seqId) (htail : m'.tail = m.tail)
    (hsrc : m'.src = m.src) : m'.Steady :=
  h.sub hsize hmax (hhead ▸ h.head_lt) (fun c _ => by rw [hseq]) (fun x _ => .inl (by rw [htail]))
    fun c _ => .inl (by rw [hsrc])

theorem Left.steady {out : Finset Nat} (h : m.Steady) (hl : Left m m' out)
    (hhead : m'.head < m.size) : m'.Steady :=
  ⟨by rw [hl.frame.nSeqMax, hl.frame.size]; exact h.seqs_le, hl.frame.size.symm ▸ hhead, hl.held,
    hl.selfSrc h.selfSrc⟩

theorem Steady.clear (h : m.Steady) : m.clear.Steady := by
  refine h.sub rfl rfl (Nat.zero_lt_of_lt h.head_lt) (fun c hc => ?_)
    (fun x hx => .inr ⟨if_pos hx, fun c hc => ?_⟩) fun c hc => .inr (if_pos hc)
  · rw [show m.clear.seqId c = ∅ from if_pos hc]
    exact empty_subset _
  · rw [show m.clear.seqId c = ∅ from if_pos hc]
    exact notMem_empty x

theorem Steady.setRsIdx (h : m.Steady) (s : Int) (idx : Nat) : (m.setRsIdx s idx).Steady := by
  rw [setRsIdx_eq]
  exact h.congr rfl rfl rfl rfl rfl rfl

/-- The loop of `seq_rm`, after the tail of a sequence whose cell is in the range was reset. -/
theorem Steady.rmCells (h : m.Steady) {t : Nat → Int} {seqId p0 p1 : Int}
    (ht : t = m.tail ∨ (0 ≤ seqId ∧ 0 ≤ m.tail seqId.toNat ∧
      p0 ≤ m.pos (m.tail seqId.toNat).toNat ∧ m.pos (m.tail seqId.toNat).toNat < p1 ∧
      t = Function.update m.tail seqId.toNat (-1))) :
    ({ m with tail := t }.rmCells seqId p0 p1).Steady := by
  have hkept : ∀ c, m.keptBy seqId p0 p1 c ⊆ m.seqId c := by
    intro c
    unfold keptBy
    split
    · split
      · exact empty_subset _
      · exact Finset.erase_subset _ _
    · exact Finset.Subset.refl _
  refine h.sub rfl rfl (sweep_head_lt h.head_lt) (fun c hc => ?_) (fun x hx => ?_) fun c hc => ?_
  · rw [rmCells_seqId (m := { m with tail := t }) hc]
    exact hkept c
  · rcases ht with e | ⟨h0, ht0, hlo, hup, e⟩
    · exact .inl (congrFun e x)
    · rcases eq_or_ne x seqId.toNat with rfl | hne
      · refine .inr ⟨(congrFun e _).trans (update_self ..), fun c hc hmem => ?_⟩
        rw [rmCells_seqId (m := { m with tail := t }) hc] at hmem
        have hc' := (h.held.own c hc _ (hkept c hmem)).2
        rw [hc', Int.toNat_natCast] at hlo hup
        change seqId.toNat ∈ m.keptBy seqId p0 p1 c at hmem
        rw [keptBy, if_pos ⟨hlo, hup⟩, if_neg (by omega)] at hmem
        exact (mem_erase.mp hmem).1 rfl
      · exact .inl ((congrFun e x).trans (update_of_ne hne ..))
  · show (if c < m.size ∧ _ then -1 else m.src c) = m.src c ∨
      (if c < m.size ∧ _ then -1 else m.src c) = -1
    split
    · exact .inr rfl
    · exact .inl rfl

theorem Steady.seqRm (h : m.Steady) (seqId p0 p1 : Int) : (m.seqRm seqId p0 p1).1.Steady := by
  unfold RecurrentMemory.seqRm
  split
  · exact h
  · dsimp only
    obtain ⟨r, hr⟩ : ∃ r, (if lower p0 = 0 ∧ upper p1 = INT32_MAX then
        if seqId ≥ 0 then m.setRsIdx seqId 0 else { m with rsIdx := fun _ => 0 } else m) =
        { m with rsIdx := r } := by
      split
      · split
        · exact ⟨_, setRsIdx_eq m seqId 0⟩
        · exact ⟨_, rfl⟩
      · exact ⟨m.rsIdx, rfl⟩
    rw [hr]
    have h' : ({ m with rsIdx := r } : RecurrentMemory).Steady := h.congr rfl rfl rfl rfl rfl rfl
    split
    · exact h'
    · split
      · split
        · split
          · rw [setRsIdx_eq]
            exact h.congr rfl rfl rfl rfl rfl rfl
          · exact h'
        · rename_i h0 _
          split
          · rename_i hin
            exact h'.rmCells (.inr ⟨h0, hin.1, hin.2.1, hin.2.2, rfl⟩)
          · exact h'.rmCells (.inl rfl)
      · split
        · exact h'
        · exact h'.rmCells (.inl rfl)

theorem Steady.seqRmCell (h : m.Steady) (seqId : Int) (cellIdx : Nat) :
    (m.seqRmCell seqId cellIdx).1.Steady := by
  unfold RecurrentMemory.seqRmCell
  split
  · exact h
  · rename_i hin
    split
    · exact h
    · rename_i hhas
      have hc : cellIdx < m.size := by omega
      obtain ⟨hlt, ht⟩ := h.held.own cellIdx hc _ (hasSeqId_iff.mp (by simpa using hhas)).2
      have hl := h.held.dropSeq seqId.toNat hlt
      have hdrop : m.dropSeq seqId.toNat = { m.leave cellIdx seqId.toNat with
          tail := Function.update m.tail seqId.toNat (-1)
          used := if (m.seqId cellIdx).erase seqId.toNat = ∅ then decUsed m.used else m.used } := by
        unfold dropSeq
        rw [if_pos (by omega), ht, Int.toNat_natCast]
      dsimp only
      rw [if_pos ⟨hlt, ht⟩]
      have hs := hl.steady h (by rw [dropSeq_head]; exact h.head_lt)
      rw [hdrop] at hs
      refine ⟨hs.seqs_le, ?_, ⟨hs.held.own, hs.held.tail_lt⟩, hs.selfSrc⟩
      show (if (decide _ && decide (cellIdx < m.head)) = true then cellIdx else m.head) < m.size
      split
      · exact hc
      · exact h.head_lt

/-- A sequence without a cell joins a cell. -/
theorem Steady.join (h : m.Steady) {d c : Nat} (hd : d < m.size) (ht : m.tail d < 0)
    (hc : c < m.size) :
    ({ m with
        seqId := Function.update m.seqId c (insert d (m.seqId c))
        tail := Function.update m.tail d c } : RecurrentMemory).Steady := by
  refine ⟨h.seqs_le, h.head_lt, ⟨fun i (hi : i < m.size) x hx => ?_, fun x hx => ?_⟩, h.selfSrc⟩
  · have hmem : x ∈ m.seqId i ∨ (x = d ∧ i = c) := by
      change x ∈ Function.update m.seqId c (insert d (m.seqId c)) i at hx
      rcases eq_or_ne i c with rfl | hic
      · rw [update_self, mem_insert] at hx
        exact hx.symm.imp_right fun hx => ⟨hx, rfl⟩
      · rw [update_of_ne hic] at hx
        exact .inl hx
    rcases hmem with hx | ⟨rfl, rfl⟩
    · obtain ⟨hlt, e⟩ := h.held.own i hi x hx
      refine ⟨hlt, (update_of_ne ?_ ..).trans e⟩
      rintro rfl
      omega
    · exact ⟨hd, update_self ..⟩
  · show Function.update m.tail d (c : Int) x < (m.size : Int)
    rcases eq_or_ne x d with rfl | hxd
    · rw [update_self]
      omega
    · rw [update_of_ne hxd]
      exact h.held.tail_lt x hx

theorem Steady.seqCp (h : m.Steady) (src dst : Int) : (m.seqCp src dst).Steady := by
  unfold RecurrentMemory.seqCp
  split
  · exact h
  · split
    · rename_i hin
      have hl := h.held.dropSeq dst.toNat (by omega)
      have hs := hl.steady h (by rw [dropSeq_head]; exact h.head_lt)
      have hgone := hl.gone dst.toNat (Finset.mem_singleton_self _)
      have hsize := hl.frame.size
      dsimp only
      split
      · rename_i ht
        have hsrc := hs.held.tail_lt src.toNat (by omega)
        have := hs.join (d := dst.toNat) (c := ((m.dropSeq dst.toNat).tail src.toNat).toNat)
          (by omega) hgone (by omega)
        rwa [Int.toNat_of_nonneg ht] at this
      · exact hs
    · exact h

theorem Steady.seqKeep (h : m.Steady) (seqId : Int) : (m.seqKeep seqId).Steady := by
  have hseq : ∀ i, i < m.size → (m.seqKeep seqId).seqId i =
      if m.hasSeqId i seqId then {seqId.toNat} else ∅ := fun i hi => if_pos hi
  refine h.sub rfl rfl (sweep_head_lt h.head_lt) (fun c hc => ?_) (fun x hx => ?_) fun c hc => ?_
  · rw [hseq c hc]
    split
    · rename_i hhas
      exact singleton_subset_iff.mpr (hasSeqId_iff.mp hhas).2
    · exact empty_subset _
  · rcases eq_or_ne (x : Int) seqId with e | e
    · exact .inl (if_neg fun hx => hx.2 e)
    · refine .inr ⟨if_pos ⟨hx, e⟩, fun c hc hmem => ?_⟩
      rw [hseq c hc] at hmem
      split at hmem
      · rename_i hhas
        have := (hasSeqId_iff.mp hhas).1
        have := Finset.mem_singleton.mp hmem
        omega
      · exact notMem_empty x hmem
  · show (if c < m.size ∧ _ then -1 else m.src c) = m.src c ∨
      (if c < m.size ∧ _ then -1 else m.src c) = -1
    split
    · exact .inr rfl
    · exact .inl rfl

theorem Steady.movePos (h : m.Steady) (seqId p0 p1 : Int) (f : Int → Int) :
    (m.movePos seqId p0 p1 f).Steady := by
  unfold RecurrentMemory.movePos
  split
  · exact h
  · split
    · dsimp only
      split
      · exact h.congr rfl rfl rfl rfl rfl rfl
      · exact h
    · exact h

theorem Steady.findSlot (h : m.Steady) {u : RsUbatch} (hu : u.Ok) {b : Bool}
    (e : m.findSlot u = .ok (m', b)) : m'.Steady := by
  obtain ⟨out, hl, hhead, -, hout⟩ := unshared_left h.held h.head_lt u
  rcases findSlot_cases h.held h.head_lt hu.ne hu.ids
      fun hv => hu.firsts_nodup fun s hs id hid => (hv s hs id hid).1 with
    ⟨-, e'⟩ | ⟨-, -, e'⟩ | ⟨-, -, e'⟩ | ⟨-, e'⟩ | ⟨m4, lo, len, hv, hp, e'⟩ <;> rw [e'] at e
  · cases e
  · cases e
    exact hl.steady h hhead
  · cases e
  · cases e
  · cases e
    obtain rfl := hout hv
    have hsize : m4.size = m.size := hp.frame.size.trans hl.frame.size
    refine ⟨?_, ?_, hp.staged_held hl hu hv, hp.staged_selfSrc hl h.selfSrc⟩
    · show m4.nSeqMax ≤ m4.size
      rw [hsize, hp.frame.nSeqMax, hl.frame.nSeqMax]
      exact h.seqs_le
    · have := List.length_pos_iff.mpr hu.ne
      have := hp.range
      have := hl.frame.size
      show lo < m4.size
      omega

/-- Only records that parse are read, and a cell that is read is its own source. -/
theorem Steady.stateReadMeta (h : m.Steady) {rs : List CellRecord} {dest : Int}
    (e : m.stateReadMeta rs dest = .ok (m', true)) : m'.Steady := by
  have hown : ∀ {x : RecurrentMemory} {n : Nat}, x.Steady → (x.ownSources n).Steady := by
    intro x n hx
    refine ⟨hx.seqs_le, hx.head_lt, ⟨hx.held.own, hx.held.tail_lt⟩, fun c hc => ?_⟩
    show (if x.head ≤ c ∧ c < x.head + n then (c : Int) else x.src c) = -1 ∨
      (if x.head ≤ c ∧ c < x.head + n then (c : Int) else x.src c) = c
    split
    · exact .inr rfl
    · exact hx.selfSrc c hc
  unfold RecurrentMemory.stateReadMeta at e
  split at e
  · have hrm := h.seqRm dest (-1) (-1)
    dsimp only at e
    split at e
    · cases e
      exact hrm
    · rename_i last _
      split at e
      · simp at e
      · split at e
        · cases e
        · simp at e
        · rename_i m2 e2
          have hu : RsUbatch.Ok { nSeqTokens := rs.length, sets := [⟨[dest], last.pos⟩] } :=
            ⟨by simp, by simp, by simp⟩
          split at e
          · cases e
            exact hown (hrm.findSlot hu e2)
          · cases e
  · split at e
    · simp at e
    · rename_i hlen
      split at e
      · simp at e
      · rename_i m2 e2
        cases e
        obtain ⟨hl, heq, -, -⟩ := readWhole_spec h.seqs_le (by omega) e2
        have hsize : m2.size = m.size := by rw [heq]; rfl
        refine hown ⟨?_, ?_, ⟨hl.own, fun x hx => ?_⟩, fun c hc => .inl ?_⟩
        · show m2.nSeqMax ≤ m2.size
          rw [heq]
          exact h.seqs_le
        · exact hsize.symm ▸ Nat.zero_lt_of_lt h.head_lt
        · rcases hl.tail x hx with e | ⟨c, hc, e, -⟩
          · exact e.symm ▸ (by omega)
          · exact e.symm ▸ Int.ofNat_lt.mpr hc
        · have hc' : c < m.size := hsize ▸ hc
          show m2.src c = -1
          rw [heq]
          exact if_pos hc'

theorem Steady.stateRead (h : m.Steady) {rs : List CellRecord} {dest : Int} {dataOk b : Bool}
    (e : m.stateRead rs dest dataOk = .ok (m', b)) : m'.Steady := by
  unfold RecurrentMemory.stateRead at e
  split at e
  · cases e
  · rename_i x res ex
    dsimp only at e
    split at e
    · rename_i hres
      obtain ⟨rfl, -⟩ := Bool.and_eq_true_iff.mp hres
      have hx := h.stateReadMeta ex
      cases e
      split
      · split
        · exact hx.congr rfl rfl rfl rfl rfl rfl
        · exact hx.setRsIdx _ _
      · exact hx
    · cases e
      exact h.congr rfl rfl rfl rfl rfl rfl

/-! ## Every reachable memory -/

theorem Steady.apply (h : m.Steady) {op : Op} (hv : op.Valid) (e : op.apply m = .ok m') :
    m'.Steady := by
  have hok : ∀ {x : RecurrentMemory}, (.ok x : Except RsAssert RecurrentMemory) = .ok m' →
      x = m' := fun e => Except.ok.inj e
  cases op with
  | clear => rw [← hok e]; exact h.clear
  | findSlot u =>
    obtain ⟨b, e⟩ := map_fst_ok e
    exact h.findSlot hv e
  | prepare us =>
    obtain ⟨b, e⟩ := map_fst_ok e
    unfold prepare at e
    split at e
    · cases e
    · cases e
      exact h.congr rfl rfl rfl rfl rfl rfl
  | seqRm seqId p0 p1 => rw [← hok e]; exact h.seqRm seqId p0 p1
  | seqRmCell seqId cellIdx => rw [← hok e]; exact h.seqRmCell seqId cellIdx
  | seqCp src dst => rw [← hok e]; exact h.seqCp src dst
  | seqKeep seqId => rw [← hok e]; exact h.seqKeep seqId
  | seqAdd seqId p0 p1 shift =>
    rw [← hok e]
    unfold seqAdd
    split
    · exact h
    · exact h.movePos seqId p0 p1 _
  | seqDiv seqId p0 p1 d =>
    rw [← hok e]
    unfold seqDiv
    split
    · exact h
    · exact h.movePos seqId p0 p1 _
  | stateRead rs dest dataOk =>
    obtain ⟨b, e⟩ := map_fst_ok e
    exact h.stateRead e

/-- Every reachable memory is steady, also after calls that leave tails over. -/
theorem steady_inductive : sys.Inductive (fun _ _ => True) Steady where
  init m hm := by
    obtain ⟨memSize, nSeqMax, nRsSeq, h0, hmax, hsize, rfl⟩ := hm
    have h : (create memSize nSeqMax nRsSeq).Inv := inv_create h0 hmax hsize
    exact ⟨h.seqs_le, h.head_lt, h.tails.held, fun _ _ => .inl rfl⟩
  step m op m' h _ e _ := h.apply e.1 e.2

/-! ## The relocation -/

theorem TailInvariant.fit (h : m.TailInvariant) {x : Nat} (hx : x < m.size) : m.Fit x := by
  rcases h.tail x hx with ⟨e, -⟩ | ⟨c, hc, e, hmem, -⟩
  · exact .inl (by omega)
  · refine .inr ⟨by omega, by omega, ?_⟩
    rwa [e, Int.toNat_natCast]

/-- `find_slot` succeeds, the sets are in the slot with the states of their first sequences, and
every other sequence keeps its position, its state and the other sequences of its cell that are not
in the ubatch. -/
theorem findSlot_relocates (hr : sys.Reach (fun _ _ => True) m) (ht : m.TailInvariant)
    {u : RsUbatch} (hu : u.Apart) (he : u.equalSeqs = true) (hv : m.IdsValid u.sets) :
    ∃ m', m.findSlot u = .ok (m', true) ∧ Relocated m u m' := by
  have h := hr.inv steady_inductive
  obtain ⟨out, hl, -, -, hout⟩ := unshared_left h.held h.head_lt u
  obtain rfl := hout hv
  rcases findSlot_cases h.held h.head_lt hu.ne hu.ids fun _ => hu.firsts with
    ⟨hno, -⟩ | ⟨-, hno, -⟩ | ⟨-, ⟨s, hs, hno⟩, -⟩ | ⟨hno, -⟩ | ⟨m4, lo, len, -, hp, e⟩
  · simp [he] at hno
  · exact absurd hv hno
  · refine absurd ?_ hno
    have hd := hu.others s hs
    obtain ⟨t, hts, rfl⟩ := List.mem_map.mp hs
    obtain ⟨id, hid, e⟩ := List.mem_map.mp (RsSet.first_mem (hu.ids t hts))
    have := hv t hts id hid
    have hf : m.Fit t.first := ht.fit (by omega)
    refine hf.imp (fun hneg => ?_) fun hlv => (hl.kept _ hlv hd).lives
    rwa [hl.same _ hd]
  · exact absurd h.selfSrc hno
  · exact ⟨_, e, hp.relocated hl h.selfSrc hu.ids hu.others⟩

/-- Sequence `0` is decoded, and sequence `1` shares its cell. -/
def shareCell : List Op := [.findSlot (oneSeq 0 0), .seqCp 0 1]

theorem reach_shareCell : sys.Reach (fun m op => op.Keeps m) ((create 2 2 1).run shareCell) :=
  reach_run (.init create_init) ⟨oneSeq_ok 0 0, trivial, fun _ _ => ⟨trivial, trivial,
    fun _ _ => trivial⟩⟩ (by decide +kernel)

/-- Sequence `0` goes on and leaves the cell to sequence `1`. -/
theorem findSlot_relocates_shared :
    ∃ m', ((create 2 2 1).run shareCell).findSlot (oneSeq 0 1) = .ok (m', true) ∧
      Relocated ((create 2 2 1).run shareCell) (oneSeq 0 1) m' :=
  findSlot_relocates (reach_shareCell.mono fun _ _ _ => trivial)
    (reach_shareCell.inv inv_inductive).tailInvariant
    ⟨by decide, by decide, by decide, by decide⟩ rfl (by decide +kernel)

/-- Sequence `1` was in one cell with sequence `0`, and it is not after `find_slot` for
sequence `0`. -/
theorem findSlot_loses_owner :
    ¬ ∀ m, sys.Reach (fun _ _ => True) m → m.TailInvariant → ∀ u : RsUbatch, u.Apart →
      u.equalSeqs = true → m.IdsValid u.sets → ∃ m', m.findSlot u = .ok (m', true) ∧
        Relocated m u m' ∧ ∀ x, m.Lives x → x ∉ u.seqs →
          m'.seqId (m'.tail x).toNat = m.seqId (m.tail x).toNat := by
  intro h
  obtain ⟨m', -, hr, hall⟩ := h _ (reach_shareCell.mono fun _ _ _ => trivial)
    (reach_shareCell.inv inv_inductive).tailInvariant (oneSeq 0 1)
    ⟨by decide, by decide, by decide, by decide⟩ rfl (by decide +kernel)
  have hl : ((create 2 2 1).run shareCell).Lives 1 := by
    unfold Lives
    decide +kernel
  have h1 : 1 ∉ (oneSeq 0 1).seqs := by decide
  have hcell := (hr.kept 1 hl h1).2.2.1
  rw [hall 1 hl h1] at hcell
  revert hcell
  decide +kernel

end

end BeeLlama.RecurrentMemory
