import BeeLlama.Recurrent.Run

/-!
# Rollback of one sequence (`seq_rm`, `seq_cp`, `s_copy`)

`nextRead t` is the row that the next ubatch of sequence `t` reads its state from: the source of its
cell, in the snapshot of its rollback index. `findSlot_sCopy` says that `find_slot` and `s_copy`
read just that row.

* `seqRm_undisturbed`: a removal leaves the positions and the next state of the other sequences,
  unless it is a rollback in a shared cell: that moves the position of the cell, and the other
  sequences have no snapshot index for it.
* `seqCp_sameNext`: a copy reads what its source reads, if the rollback indexes are equal: `seq_cp`
  does not copy them.
-/

namespace BeeLlama.RecurrentMemory

open List Function RecurrentMemory

section

variable {m m' : RecurrentMemory}

/-- The snapshot that `s_copy` takes for sequence `t`. -/
def rollbackIdx (m : RecurrentMemory) (t : Nat) : Nat :=
  if m.nRsSeq ≠ 0 ∧ t < m.nSeqMax then m.rsIdx t else 0

/-- The row that the next ubatch of `t` reads its state from; `none` if there is no state yet. -/
def nextRead (m : RecurrentMemory) (t : Nat) : Option Int :=
  if m.tail t ≥ 0 ∧ t ∈ m.seqId (m.tail t).toNat ∧ m.src (m.tail t).toNat ≥ 0 then
    some ((m.rollbackIdx t * m.size : Nat) + m.src (m.tail t).toNat)
  else none

/-- `find_slot` and `s_copy` read the state of a sequence from `nextRead`. -/
theorem findSlot_sCopy (h : sys.Reach (fun m op => op.Keeps m) m) {u : RsUbatch} (hu : u.Ok)
    {t k : Nat} {p r : Int} (hk : u.sets[k]? = some ⟨[t], p⟩)
    (hr : m.nextRead t = some r) (e : m.findSlot u = .ok (m', true)) : (m'.sCopy k).2 = r := by
  have hf : Found m u m' := by
    have hm := h.inv inv_inductive
    rcases findSlot_spec hm hu with ⟨x, ex, -⟩ | ⟨x, ex, hf⟩ | ex | ex <;> rw [ex] at e
    · simp at e
    · cases e
      exact hf
    · cases e
    · cases e
  unfold nextRead at hr
  split at hr
  · rename_i hin
    cases hr
    have hsrc := hf.reads k _ hk (by simp) hin.1 hin.2.2
    have hcell := hf.cells k _ hk
    have hfirst : RsSet.first ⟨[(t : Int)], p⟩ = t := rfl
    rw [hfirst] at hsrc
    have hone : m'.seqId (m'.head + k) = {t} := by
      rw [hcell]
      simp
    have hmax := hf.frame.nSeqMax
    have hn := hf.frame.nRsSeq
    have hrs := hf.frame.rsIdx
    have hsize := hf.frame.size
    unfold sCopy rollbackIdx
    dsimp only
    rw [Nat.add_comm k, hsrc, hone, Finset.sort_singleton, head?_cons, hn, hmax]
    by_cases h0 : m.nRsSeq = 0
    · simp [h0]
    · rw [if_neg h0]
      by_cases ht : t < m.nSeqMax
      · simp [h0, ht, hrs, hsize]
      · simp [ht]
  · cases hr

/-- The second ubatch of a sequence reads the first cell. -/
theorem findSlot_sCopy_next :
    ∃ m', ((create 2 2 1).run [.findSlot (oneSeq 0 0)]).findSlot (oneSeq 0 1) = .ok (m', true) ∧
      (m'.sCopy 0).2 = 0 := by
  have h : sys.Reach (fun m op => op.Keeps m) ((create 2 2 1).run [.findSlot (oneSeq 0 0)]) :=
    reach_run (.init create_init) ⟨oneSeq_ok 0 0, trivial, fun _ _ => trivial⟩ (by decide +kernel)
  exact ⟨_, rfl, findSlot_sCopy h (oneSeq_ok 0 1) rfl (by decide +kernel) rfl⟩

/-! ## Other sequences -/

/-- The call left sequence `t` as it was. -/
structure Undisturbed (m m' : RecurrentMemory) (t : Nat) : Prop where
  posMin : m'.seqPosMin t = m.seqPosMin t
  posMax : m'.seqPosMax t = m.seqPosMax t
  next : m'.nextRead t = m.nextRead t

/-- The cells of `t` and its tail did not change. -/
theorem undisturbed_of_cells {t : Nat} (hsize : m'.size = m.size) (hmax : m'.nSeqMax = m.nSeqMax)
    (hn : m'.nRsSeq = m.nRsSeq) (hrs : m'.rsIdx t = m.rsIdx t) (htail : m'.tail t = m.tail t)
    (hmem : ∀ c, t ∈ m'.seqId c ↔ t ∈ m.seqId c)
    (hcell : ∀ c, t ∈ m.seqId c → m'.pos c = m.pos c ∧ m'.src c = m.src c) :
    Undisturbed m m' t := by
  have hhas : ∀ c, m'.hasSeqId c t = m.hasSeqId c t := fun c => by
    rw [Bool.eq_iff_iff, hasSeqId_iff, hasSeqId_iff, Int.toNat_natCast, hmem]
  have hfold : ∀ (f : Int → Int → Int) (l : List Nat) (a : Int),
      l.foldl (fun r i => if m'.hasSeqId i t then f r (m'.pos i) else r) a =
        l.foldl (fun r i => if m.hasSeqId i t then f r (m.pos i) else r) a := by
    intro f l a
    refine foldl_ext _ _ a fun r i _ => ?_
    rw [hhas i]
    split
    · rename_i hi
      have := (hasSeqId_iff.mp hi).2
      rw [(hcell i this).1]
    · rfl
  refine ⟨?_, ?_, ?_⟩
  · unfold seqPosMin
    rw [hsize, hfold]
  · unfold seqPosMax
    rw [hsize, hfold]
  · unfold nextRead rollbackIdx
    rw [htail, hsize, hmax, hn, hrs]
    by_cases hin : t ∈ m.seqId (m.tail t).toNat
    · simp only [(hcell _ hin).2, hmem]
    · have hin' : t ∉ m'.seqId (m.tail t).toNat := fun hx => hin ((hmem _).mp hx)
      rw [if_neg fun hx => hin' hx.2.1, if_neg fun hx => hin hx.2.1]

theorem setRsIdx_other {s : Int} {t idx : Nat} (ht : (t : Int) ≠ s) :
    (m.setRsIdx s idx).rsIdx t = m.rsIdx t := by
  unfold setRsIdx
  split
  · rfl
  · exact update_of_ne (by omega) ..

theorem rmCells_undisturbed {s : Nat} {t : Nat} (ht : t ≠ s) {p0 p1 : Int}
    {m₁ : RecurrentMemory} (hsize : m₁.size = m.size) (hmax : m₁.nSeqMax = m.nSeqMax)
    (hn : m₁.nRsSeq = m.nRsSeq) (hrs : m₁.rsIdx t = m.rsIdx t) (htail : m₁.tail t = m.tail t)
    (hseq : m₁.seqId = m.seqId) (hpos : m₁.pos = m.pos) (hsrc : m₁.src = m.src) :
    Undisturbed m (m₁.rmCells s p0 p1) t := by
  have hmem : ∀ c, t ∈ m₁.keptBy s p0 p1 c ↔ t ∈ m.seqId c := by
    intro c
    unfold keptBy
    rw [hseq]
    split
    · rw [if_neg (by omega), Int.toNat_natCast, Finset.mem_erase]
      tauto
    · rfl
  have hgone : ∀ c, t ∈ m.seqId c → m₁.goneBy s p0 p1 c = false := by
    intro c hc
    unfold goneBy
    have : m₁.keptBy s p0 p1 c ≠ ∅ := Finset.ne_empty_of_mem ((hmem c).mpr hc)
    rw [decide_eq_false this, Bool.and_false]
  refine undisturbed_of_cells hsize hmax hn hrs htail (fun c => ?_) fun c hc => ?_
  · show t ∈ (if c < m₁.size then m₁.keptBy s p0 p1 c else m₁.seqId c) ↔ _
    split
    · exact hmem c
    · rw [hseq]
  · show (if c < m₁.size ∧ m₁.goneBy s p0 p1 c = true then -1 else m₁.pos c) = _ ∧
      (if c < m₁.size ∧ m₁.goneBy s p0 p1 c = true then -1 else m₁.src c) = _
    rw [hgone c hc, hpos, hsrc]
    simp

/-- A rollback moves the position of a cell that other sequences have too. -/
def RollsBackShared (m : RecurrentMemory) (s p0 p1 : Int) : Prop :=
  m.rollsBack s p0 p1 ∧ ∃ t ∈ m.seqId (m.tail s.toNat).toNat, t ≠ s.toNat

variable {s p0 p1 : Int} {t c : Nat}

/-- What `seq_rm` of one sequence has done when it returned `true`. -/
theorem seqRm_cases (h0 : 0 ≤ s) (e : m.seqRm s p0 p1 = (m', true)) :
    (m.rollsBack s p0 p1 ∧ ∃ idx, m' = { m with
      rsIdx := (m.setRsIdx s idx).rsIdx
      pos := Function.update m.pos (m.tail s.toNat).toNat (lower p0 - 1) }) ∨
    (¬ m.rollsBack s p0 p1 ∧ ∃ rsIdx tail, (∀ t : Nat, (t : Int) ≠ s → rsIdx t = m.rsIdx t) ∧
      (∀ t : Nat, (t : Int) ≠ s → tail t = m.tail t) ∧
      m' = ({ m with rsIdx := rsIdx, tail := tail } : RecurrentMemory).rmCells s (lower p0)
        (upper p1)) := by
  unfold seqRm at e
  split at e
  · simp at e
  · dsimp only at e
    -- a removal of everything resets the index of the sequence first
    have hstart : (if lower p0 = 0 ∧ upper p1 = INT32_MAX then m.setRsIdx s 0 else m) =
        { m with rsIdx := if lower p0 = 0 ∧ upper p1 = INT32_MAX then (m.setRsIdx s 0).rsIdx
          else m.rsIdx } := by
      split
      · exact setRsIdx_eq m s 0
      · rfl
    rw [hstart] at e
    set rs := if lower p0 = 0 ∧ upper p1 = INT32_MAX then (m.setRsIdx s 0).rsIdx else m.rsIdx
      with hrs
    have hother : ∀ t : Nat, (t : Int) ≠ s → rs t = m.rsIdx t := by
      intro t ht
      rw [hrs]
      split
      · exact setRsIdx_other ht
      · rfl
    split at e
    · simp at e
    · have hback : ({ m with rsIdx := rs } : RecurrentMemory).rollsBack s p0 p1 ↔
        m.rollsBack s p0 p1 := Iff.rfl
      split at e
      · rename_i hb
        have hlow : rs = m.rsIdx := by
          rw [hrs, if_neg fun hx => by have := hb.2.1; omega]
        rw [hlow] at e
        split at e
        · cases e
          refine .inl ⟨hback.mp hb, (m.pos (m.tail s.toNat).toNat - (lower p0 - 1)).toNat, ?_⟩
          rw [setRsIdx_eq]
        · simp at e
      · rename_i hb
        cases e
        refine .inr ⟨fun hx => hb (hback.mpr hx), rs, ?_⟩
        split
        · refine ⟨Function.update m.tail s.toNat (-1), hother, fun t ht => ?_, rfl⟩
          exact update_of_ne (by omega) ..
        · exact ⟨m.tail, hother, fun _ _ => rfl, rfl⟩

/-- A removal that is no rollback in a shared cell leaves the other sequences as they were. -/
theorem seqRm_undisturbed (h0 : 0 ≤ s) (e : m.seqRm s p0 p1 = (m', true))
    (hs : ¬ m.RollsBackShared s p0 p1) {t : Nat} (ht : (t : Int) ≠ s) : Undisturbed m m' t := by
  rcases seqRm_cases h0 e with ⟨hb, idx, rfl⟩ | ⟨-, rs, tail, hrs, htl, rfl⟩
  · refine undisturbed_of_cells rfl rfl rfl (setRsIdx_other ht) rfl (fun _ => Iff.rfl)
      fun c hc => ⟨update_of_ne ?_ .., rfl⟩
    rintro rfl
    exact hs ⟨hb, t, hc, by omega⟩
  · obtain ⟨k, rfl⟩ : ∃ k : Nat, s = k := ⟨s.toNat, by omega⟩
    exact rmCells_undisturbed (by omega) rfl rfl rfl (hrs t ht) (htl t ht) rfl rfl rfl

/-! ## Positions of a sequence with one cell -/

theorem foldl_only {f : Int → Int → Int} {p : Nat → Bool} {g : Nat → Int} {c : Nat} {l : List Nat}
    (hnd : l.Nodup) (hp : ∀ i ∈ l, p i = true ↔ i = c) (hc : c ∈ l) (a : Int) :
    l.foldl (fun r i => if p i then f r (g i) else r) a = f a (g c) := by
  have hskip : ∀ (l : List Nat), (∀ i ∈ l, p i = false) → ∀ a : Int,
      l.foldl (fun r i => if p i then f r (g i) else r) a = a := by
    intro l
    induction l with
    | nil => exact fun _ _ => rfl
    | cons i l ih =>
      intro hl a
      rw [foldl_cons, hl i mem_cons_self]
      exact ih (fun x hx => hl x (mem_cons_of_mem i hx)) a
  induction l generalizing a with
  | nil => cases hc
  | cons i l ih =>
    obtain ⟨hil, hnd'⟩ := nodup_cons.mp hnd
    rw [foldl_cons]
    rcases eq_or_ne i c with rfl | hic
    · rw [if_pos ((hp i mem_cons_self).mpr rfl)]
      refine hskip l (fun x hx => ?_) _
      rw [Bool.eq_false_iff]
      intro hpx
      rw [(hp x (mem_cons_of_mem i hx)).mp hpx] at hx
      exact hil hx
    · rw [if_neg fun hpi => hic ((hp i mem_cons_self).mp hpi)]
      exact ih hnd' (fun x hx => hp x (mem_cons_of_mem i hx))
        ((mem_cons.mp hc).resolve_left (Ne.symm hic)) a

theorem Inv.has_iff (h : m.Inv) (hc : c < m.size) (ht : t ∈ m.seqId c) :
    ∀ i ∈ List.range m.size, m.hasSeqId i t = true ↔ i = c := by
  intro i hi
  rw [hasSeqId_iff, Int.toNat_natCast]
  constructor
  · rintro ⟨-, hti⟩
    have h1 := (h.tails.own i (mem_range.mp hi) t hti).2
    have h2 := (h.tails.own c hc t ht).2
    omega
  · rintro rfl
    exact ⟨by omega, ht⟩

theorem Inv.seqPosMax_eq (h : m.Inv) (hc : c < m.size) (ht : t ∈ m.seqId c) :
    m.seqPosMax t = max (-1) (m.pos c) :=
  foldl_only nodup_range (h.has_iff hc ht) (mem_range.mpr hc) (-1)

theorem Inv.seqPosMin_eq (h : m.Inv) (hc : c < m.size) (ht : t ∈ m.seqId c) :
    m.seqPosMin t = if min (INT32_MAX : Int) (m.pos c) = INT32_MAX then -1
      else min (INT32_MAX : Int) (m.pos c) := by
  unfold seqPosMin
  rw [foldl_only nodup_range (h.has_iff hc ht) (mem_range.mpr hc)]

/-- A rollback in a shared cell moves the last position of the other sequences. -/
theorem Inv.seqRm_disturbs (h : m.Inv) (h0 : 0 ≤ s)
    (e : m.seqRm s p0 p1 = (m', true)) (hs : m.RollsBackShared s p0 p1) :
    ∃ t : Nat, (t : Int) ≠ s ∧ m'.seqPosMax t ≠ m.seqPosMax t := by
  obtain ⟨hb, t, ht, hne⟩ := hs
  rcases seqRm_cases h0 e with ⟨-, idx, rfl⟩ | ⟨hno, -⟩
  · have hslt : s.toNat < m.size := by
      unfold RecurrentMemory.seqRm canSeqRm at e
      by_contra hge
      rw [if_pos (by simp; omega)] at e
      simp at e
    obtain ⟨hc, hsc⟩ := h.tails.mem_of_tail hslt not_false hb.1
    refine ⟨t, by omega, ?_⟩
    have hpos := hb.2
    have hi : ({ m with
        rsIdx := (m.setRsIdx s idx).rsIdx
        pos := Function.update m.pos (m.tail s.toNat).toNat (lower p0 - 1) } :
          RecurrentMemory).Inv := by
      refine h.congr rfl rfl rfl rfl rfl rfl fun c hcs he => ?_
      have hne' : c ≠ (m.tail s.toNat).toNat := by
        rintro rfl
        exact Finset.ne_empty_of_mem hsc he
      exact (update_of_ne hne' ..).trans (h.tails.empty c hcs he)
    rw [h.seqPosMax_eq hc ht, hi.seqPosMax_eq hc ht]
    dsimp only
    rw [update_self]
    omega
  · exact absurd hb hno

/-! ## Copies -/

/-- Two sequences would read the same state, at the same position. -/
structure SameNext (m : RecurrentMemory) (s t : Nat) : Prop where
  next : m.nextRead t = m.nextRead s
  posMin : m.seqPosMin t = m.seqPosMin s
  posMax : m.seqPosMax t = m.seqPosMax s

/-- The copy and its source are in one cell, or in none. -/
theorem Inv.seqCp_cells (h : m.Inv) {s t : Nat} (hs : s < m.size) (ht : t < m.size) (hne : s ≠ t) :
    (m.seqCp s t).tail t = (m.seqCp s t).tail s ∧ (m.seqCp s t).tail s = m.tail s ∧
      (0 ≤ m.tail s → (m.seqCp s t).src (m.tail s).toNat = m.src (m.tail s).toNat) ∧
      Frame m (m.seqCp s t) := by
  have htails := h.tails.dropSeq ht not_false
  have hleft := h.tails.held.dropSeq t ht
  have hst : s ∉ ({t} : Finset Nat) := by simpa using hne
  have hsame : (m.dropSeq t).tail s = m.tail s := htails.2.2.2 s hne
  have hsrc : 0 ≤ m.tail s → (m.dropSeq t).src (m.tail s).toNat = m.src (m.tail s).toNat :=
    fun h0 => by
      have := (hleft.kept s (h.lives hs h0) hst).src
      rwa [hsame] at this
  have hframe := hleft.frame
  unfold RecurrentMemory.seqCp
  rw [if_neg (by omega), if_pos (by omega)]
  dsimp only
  rw [Int.toNat_natCast, Int.toNat_natCast, hsame]
  split
  · refine ⟨?_, ?_, hsrc, hframe.size, hframe.nSeqMax, hframe.nRsSeq, hframe.rsIdx⟩
    · exact (update_self ..).trans ((update_of_ne hne ..).trans hsame).symm
    · exact (update_of_ne hne ..).trans hsame
  · rename_i hneg
    refine ⟨?_, hsame, fun h0 => absurd h0 hneg, hframe⟩
    rw [htails.2.2.1, hsame]
    rcases h.tails.tail s hs with e | ⟨c, -, e, -⟩
    · omega
    · omega

/-- The next state of a sequence whose cell has a source. -/
theorem Inv.nextRead_eq (h : m.Inv) {s : Nat} (hs : s < m.size) : m.nextRead s =
    if 0 ≤ m.tail s ∧ 0 ≤ m.src (m.tail s).toNat then
      some ((m.rollbackIdx s * m.size : Nat) + m.src (m.tail s).toNat)
    else none := by
  unfold nextRead
  by_cases ht : 0 ≤ m.tail s
  · have := (h.tails.mem_of_tail hs not_false ht).2
    simp [this]
  · simp [ht]

/-- The copy reads what its source reads exactly if their rollback indexes agree. -/
theorem Inv.seqCp_sameNext (h : m.Inv) {s t : Nat} (hs : s < m.size) (ht : t < m.size) :
    (m.seqCp s t).SameNext s t ↔
      s = t ∨ m.nextRead s = none ∨ m.rollbackIdx t = m.rollbackIdx s := by
  rcases eq_or_ne s t with rfl | hne
  · exact iff_of_true ⟨rfl, rfl, rfl⟩ (.inl rfl)
  obtain ⟨htail, hts, hsrc, hframe⟩ := h.seqCp_cells hs ht hne
  have hi := h.seqCp s t
  have hs' : s < (m.seqCp s t).size := hframe.size.symm ▸ hs
  have ht' : t < (m.seqCp s t).size := hframe.size.symm ▸ ht
  have hidx : ∀ x, (m.seqCp s t).rollbackIdx x = m.rollbackIdx x := fun x => by
    unfold rollbackIdx
    rw [hframe.nRsSeq, hframe.nSeqMax, hframe.rsIdx]
  have hpos : (m.seqCp s t).seqPosMin t = (m.seqCp s t).seqPosMin s ∧
      (m.seqCp s t).seqPosMax t = (m.seqCp s t).seqPosMax s := by
    by_cases h0 : 0 ≤ (m.seqCp s t).tail s
    · obtain ⟨hc, hms⟩ := hi.tails.mem_of_tail hs' not_false h0
      have hmt := (hi.tails.mem_of_tail ht' not_false (htail ▸ h0)).2
      rw [htail] at hmt
      rw [hi.seqPosMin_eq hc hms, hi.seqPosMin_eq hc hmt, hi.seqPosMax_eq hc hms,
        hi.seqPosMax_eq hc hmt]
      exact ⟨rfl, rfl⟩
    · have hno : ∀ x, (m.seqCp s t).tail x = (m.seqCp s t).tail s →
          ∀ i ∈ List.range (m.seqCp s t).size, (m.seqCp s t).hasSeqId i x = false := by
        intro x hx i hi'
        rw [Bool.eq_false_iff]
        intro hhas
        have hmx := (hasSeqId_iff.mp hhas).2
        have := (hi.tails.own i (mem_range.mp hi') x hmx).2
        omega
      have hfold : ∀ (f : Int → Int → Int) (a : Int),
          (List.range (m.seqCp s t).size).foldl
            (fun r i => if (m.seqCp s t).hasSeqId i t then f r ((m.seqCp s t).pos i) else r) a =
          (List.range (m.seqCp s t).size).foldl
            (fun r i => if (m.seqCp s t).hasSeqId i s then f r ((m.seqCp s t).pos i) else r) a := by
        intro f a
        refine foldl_ext _ _ a fun r i hi' => ?_
        rw [hno t htail i hi', hno s rfl i hi']
      unfold seqPosMin seqPosMax
      rw [hfold, hfold]
      exact ⟨rfl, rfl⟩
  have hnext : (m.seqCp s t).nextRead t = (m.seqCp s t).nextRead s ↔
      m.nextRead s = none ∨ m.rollbackIdx t = m.rollbackIdx s := by
    rw [hi.nextRead_eq ht', hi.nextRead_eq hs', h.nextRead_eq hs, htail, hts, hidx, hidx,
      hframe.size]
    by_cases h0 : 0 ≤ m.tail s
    · rw [hsrc h0]
      by_cases h1 : 0 ≤ m.src (m.tail s).toNat
      · rw [if_pos ⟨h0, h1⟩, if_pos ⟨h0, h1⟩]
        have hpos' : 0 < m.size := by omega
        simp only [Option.some.injEq, reduceCtorEq, false_or]
        constructor
        · intro e
          have : m.rollbackIdx t * m.size = m.rollbackIdx s * m.size := by omega
          exact Nat.eq_of_mul_eq_mul_right hpos' this
        · intro e
          rw [e]
      · simp [h1]
    · simp [h0]
  rw [or_iff_right hne, ← hnext]
  exact ⟨fun hsn => hsn.next, fun hn => ⟨hn, hpos.1, hpos.2⟩⟩

/-! ## Runs -/

/-- A removal of one sequence leaves the others as they were, unless it is a rollback in a shared
cell. In the runs that keep the tails it then disturbs them, and a copy reads what its source
reads exactly if the rollback indexes agree. -/
theorem reach_rollback_private (m : RecurrentMemory) :
    (sys.Reach (fun _ _ => True) m → ∀ s p0 p1 m', 0 ≤ s → m.seqRm s p0 p1 = (m', true) →
      ¬ m.RollsBackShared s p0 p1 → ∀ t : Nat, (t : Int) ≠ s → Undisturbed m m' t) ∧
    (sys.Reach (fun m op => op.Keeps m) m →
      (∀ s p0 p1 m', 0 ≤ s → m.seqRm s p0 p1 = (m', true) →
        ((∀ t : Nat, (t : Int) ≠ s → Undisturbed m m' t) ↔ ¬ m.RollsBackShared s p0 p1)) ∧
      ∀ s t : Nat, s < m.size → t < m.size →
        ((m.seqCp s t).SameNext s t ↔
          s = t ∨ m.nextRead s = none ∨ m.rollbackIdx t = m.rollbackIdx s)) := by
  refine ⟨fun _ s p0 p1 m' h0 e hs t ht => seqRm_undisturbed h0 e hs ht, fun h => ?_⟩
  have hi := h.inv inv_inductive
  refine ⟨fun s p0 p1 m' h0 e => ⟨fun hall hs => ?_, fun hs t ht => seqRm_undisturbed h0 e hs ht⟩,
    fun s t hs ht => hi.seqCp_sameNext hs ht⟩
  obtain ⟨t, ht, hne⟩ := hi.seqRm_disturbs h0 e hs
  exact hne (hall t ht).posMax

/-- Two sequences in cells of their own. -/
def ownCells : List Op :=
  [.findSlot (oneSeq 0 0), .findSlot (oneSeq 0 1), .findSlot (oneSeq 1 0)]

/-- Sequence `0` rolls back its last position; sequence `1` stays as it was. -/
theorem rollback_private_ownCells : (((create 2 2 1).run ownCells).seqRm 0 1 (-1)).2 = true ∧
      Undisturbed ((create 2 2 1).run ownCells) (((create 2 2 1).run ownCells).seqRm 0 1 (-1)).1 1 ∧
      (((create 2 2 1).run ownCells).seqCp 0 1).SameNext 0 1 := by
  have hr : sys.Reach (fun m op => op.Keeps m) ((create 2 2 1).run ownCells) :=
    reach_run (.init create_init) ⟨oneSeq_ok 0 0, trivial, fun _ _ =>
      ⟨oneSeq_ok 0 1, trivial, fun _ _ => ⟨oneSeq_ok 1 0, trivial, fun _ _ => trivial⟩⟩⟩
      (by decide +kernel)
  obtain ⟨hrm, hcp⟩ := (reach_rollback_private _).2 hr
  have htrue : (((create 2 2 1).run ownCells).seqRm 0 1 (-1)).2 = true := by decide +kernel
  refine ⟨htrue, (hrm 0 1 (-1) _ (by decide) (Prod.ext rfl htrue)).mpr ?_ 1 (by decide),
    (hcp 0 1 (by decide +kernel) (by decide +kernel)).mpr (.inr (.inr (by decide +kernel)))⟩
  rintro ⟨-, t, ht, hne⟩
  have hone : ((create 2 2 1).run ownCells).seqId
      (((create 2 2 1).run ownCells).tail 0).toNat = {0} := by decide +kernel
  exact hne (Finset.mem_singleton.mp (hone ▸ ht))

/-- Sequence `1` shares the cell of sequence `0`. -/
def sharedCell : List Op :=
  [.findSlot (oneSeq 0 0), .findSlot (oneSeq 0 1), .seqCp 0 1]

/-- Sequence `0` has rolled back its last position. -/
def rolledBack : List Op :=
  [.findSlot (oneSeq 0 0), .findSlot (oneSeq 0 1), .seqRm 0 1 (-1)]

/-- A rollback in the shared cell moves the last position of the copy, and a copy made after a
rollback reads another snapshot than its source. -/
theorem rollback_not_private : (¬ ∀ m, sys.Reach (fun _ _ => True) m → ∀ s p0 p1 m', 0 ≤ s →
      m.seqRm s p0 p1 = (m', true) → ∀ t : Nat, (t : Int) ≠ s → Undisturbed m m' t) ∧
    ¬ ∀ m, sys.Reach (fun _ _ => True) m → ∀ s t : Nat, s < m.size → t < m.size →
      (m.seqCp s t).SameNext s t := by
  have hstep : ∀ op, Op.Valid op → Runs (fun _ _ => True)
      [.findSlot (oneSeq 0 0), .findSlot (oneSeq 0 1), op] (create 2 2 1) := fun op hv =>
    ⟨oneSeq_ok 0 0, trivial, fun _ _ => ⟨oneSeq_ok 0 1, trivial, fun _ _ =>
      ⟨hv, trivial, fun _ _ => trivial⟩⟩⟩
  constructor
  · intro h
    have hr : sys.Reach (fun _ _ => True) ((create 2 2 1).run sharedCell) :=
      reach_run (.init create_init) (hstep (.seqCp 0 1) trivial) (by decide +kernel)
    have htrue : (((create 2 2 1).run sharedCell).seqRm 0 1 (-1)).2 = true := by decide +kernel
    have hpos := (h _ hr 0 1 (-1) _ (by decide) (Prod.ext rfl htrue) 1 (by decide)).posMax
    exact absurd hpos (by decide +kernel)
  · intro h
    have hr : sys.Reach (fun _ _ => True) ((create 2 2 1).run rolledBack) :=
      reach_run (.init create_init) (hstep (.seqRm 0 1 (-1)) trivial) (by decide +kernel)
    have hnext := (h _ hr 0 1 (by decide +kernel) (by decide +kernel)).next
    exact absurd hnext (by decide +kernel)

end

end BeeLlama.RecurrentMemory
