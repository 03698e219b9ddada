import BeeLlama.Recurrent.Rollback

/-!
# Successive rollbacks (`seq_rm`, `set_rs_idx`)

`rs_idx[s]` counts from the last decode: `s_copy` and `state_write` read the state that sequence `s`
had `rs_idx[s]` tokens before it. A rollback stores its distance from the position that the cell has
at that time, which a rollback before has lowered already.

* `seqRm_suffix`: a suffix removal rolls back, is refused, or changes nothing.
* `suffixRms_indexed`: the index counts from the last decode exactly if no removal rolls back after
  another one did.
-/

namespace BeeLlama.RecurrentMemory

open List Int

/-- Sequence `s` is alone in cell `c` and in no other cell. -/
structure Owns (m : RecurrentMemory) (s c : Nat) : Prop where
  seq_lt : s < m.size
  cell_lt : c < m.size
  tail : m.tail s = c
  alone : m.seqId c = {s}
  only : ∀ d < m.size, s ∈ m.seqId d → d = c

/-- The removal from `p` on takes back more tokens since position `last` than there are
snapshots. -/
def Beyond (m : RecurrentMemory) (s : Nat) (last p : Int) : Prop :=
  p ≤ m.seqPosMax s ∧ last - (p - 1) > m.nRsSeq

/-- The calls after the decode of position `last`: one that goes beyond the snapshots is refused,
and after any other that returns `true` the index leads from `last` to the position reached. -/
def Indexed (m : RecurrentMemory) (s : Nat) (last : Int) : List Int → Prop
  | [] => True
  | p :: ps =>
    let r := m.seqRm s p (-1)
    (m.Beyond s last p → r = (m, false)) ∧
      (r.2 = true → (r.1.rsIdx s : Int) = last - r.1.seqPosMax s) ∧ Indexed r.1 s last ps

/-- The removal from `p` on rolls back a sequence that ends at `pos`. -/
def RollsFrom (nRsSeq : Nat) (pos p : Int) : Prop := p ≤ pos ∧ pos - (p - 1) ≤ nRsSeq

instance (nRsSeq : Nat) (pos p : Int) : Decidable (RollsFrom nRsSeq pos p) :=
  inferInstanceAs (Decidable (_ ∧ _))

/-- Of the removals only one rolls back. -/
def RollsOnce (nRsSeq : Nat) (pos : Int) : List Int → Prop
  | [] => True
  | p :: ps =>
    if RollsFrom nRsSeq pos p then ∀ q ∈ ps, ¬ RollsFrom nRsSeq (p - 1) q
    else RollsOnce nRsSeq pos ps

instance RollsOnce.decidable (nRsSeq : Nat) (pos : Int) :
    (ps : List Int) → Decidable (RollsOnce nRsSeq pos ps)
  | [] => inferInstanceAs (Decidable True)
  | p :: ps =>
    haveI := RollsOnce.decidable nRsSeq pos ps
    inferInstanceAs (Decidable (if RollsFrom nRsSeq pos p then
      ∀ q ∈ ps, ¬ RollsFrom nRsSeq (p - 1) q else RollsOnce nRsSeq pos ps))

/-- When the index is right after each removal. A sequence that ends at the greatest position is
never rolled back: the range of a removal ends before it. -/
def IndexKept (nRsSeq : Nat) (last : Int) (ps : List Int) : Prop :=
  if last = INT32_MAX then ∀ p ∈ ps, last - (p - 1) ≤ nRsSeq else RollsOnce nRsSeq last ps

instance (nRsSeq : Nat) (last : Int) (ps : List Int) : Decidable (IndexKept nRsSeq last ps) :=
  inferInstanceAs (Decidable (if last = INT32_MAX then ∀ p ∈ ps, last - (p - 1) ≤ nRsSeq
    else RollsOnce nRsSeq last ps))

variable {m : RecurrentMemory} {s c : Nat}

/-! ## One removal -/

theorem Owns.hasSeqId (h : m.Owns s c) :
    ∀ i ∈ List.range m.size, m.hasSeqId i s = true ↔ i = c := by
  intro i hi
  rw [hasSeqId_iff, toNat_natCast]
  constructor
  · exact fun hs => h.only i (mem_range.mp hi) hs.2
  · rintro rfl
    exact ⟨natCast_nonneg s, h.alone ▸ Finset.mem_singleton_self s⟩

theorem Owns.seqPosMax (h : m.Owns s c) : m.seqPosMax s = max (-1) (m.pos c) :=
  foldl_only nodup_range h.hasSeqId (mem_range.mpr h.cell_lt) (-1)

/-- The memory after a rollback to before `p`. -/
def afterRollback (m : RecurrentMemory) (s c : Nat) (p : Int) : RecurrentMemory :=
  { m with
    rsIdx := Function.update m.rsIdx s (m.pos c - (p - 1)).toNat
    pos := Function.update m.pos c (p - 1) }

theorem Owns.afterRollback (h : m.Owns s c) (p : Int) : (m.afterRollback s c p).Owns s c :=
  ⟨h.seq_lt, h.cell_lt, h.tail, h.alone, h.only⟩

@[simp] theorem afterRollback_pos (p : Int) : (m.afterRollback s c p).pos c = p - 1 :=
  Function.update_self ..

@[simp] theorem afterRollback_rsIdx (p : Int) :
    (m.afterRollback s c p).rsIdx s = (m.pos c - (p - 1)).toNat := Function.update_self ..

theorem rmCells_none {p0 p1 : Int} (h : ∀ i < m.size, i ≠ c → s ∉ m.seqId i)
    (hc : ¬ (p0 ≤ m.pos c ∧ m.pos c < p1)) : m.rmCells s p0 p1 = m := by
  have hkeep : ∀ i < m.size, m.keptBy s p0 p1 i = m.seqId i := by
    intro i hi
    unfold keptBy
    split
    · rename_i hin
      rw [if_neg (by omega), toNat_natCast]
      exact Finset.erase_eq_of_notMem (h i hi fun e => hc (e ▸ hin))
    · rfl
  have hgone : ∀ i < m.size, m.goneBy s p0 p1 i = false := by
    intro i hi
    rw [Bool.eq_false_iff]
    intro hg
    unfold goneBy at hg
    simp only [Bool.and_eq_true, decide_eq_true_eq, Bool.or_eq_true, hasSeqId_iff] at hg
    obtain ⟨⟨hin, hs⟩, -⟩ := hg
    exact h i hi (fun e => hc (e ▸ hin)) (by simpa using hs.resolve_left (by omega))
  have hfind : (List.range m.size).find? (m.goneBy s p0 p1) = none := by
    apply find?_eq_none.mpr
    intro i hi
    simp [hgone i (mem_range.mp hi)]
  have hcount : ((List.range m.size).filter
      fun i => m.goneBy s p0 p1 i && decide (m.pos i ≥ 0)).length = 0 := by
    apply length_eq_zero_iff.mpr
    apply filter_eq_nil_iff.mpr
    intro i hi
    simp [hgone i (mem_range.mp hi)]
  unfold rmCells sweep
  rw [hfind, hcount]
  have hpos : ∀ f : Nat → Int,
      (fun i => if i < m.size ∧ m.goneBy s p0 p1 i = true then -1 else f i) = f := by
    intro f
    funext i
    apply if_neg
    rintro ⟨hi, hg⟩
    rw [hgone i hi] at hg
    cases hg
  have hseq : (fun i => if i < m.size then m.keptBy s p0 p1 i else m.seqId i) = m.seqId := by
    funext i
    split
    · rename_i hi
      exact hkeep i hi
    · rfl
  rw [hpos, hpos, hseq]
  rfl

/-- What the removal of a suffix does to the sequence of a cell. -/
theorem seqRm_suffix (h : m.Owns s c) (hs : s < m.nSeqMax) {p : Int} (hp : 0 < p) :
    m.seqRm s p (-1) =
      if p ≤ m.pos c ∧ m.pos c < INT32_MAX then
        if RollsFrom m.nRsSeq (m.pos c) p then (m.afterRollback s c p, true) else (m, false)
      else (m, true) := by
  have hlow : lower p = p := if_neg (by omega)
  have hup : upper (-1) = INT32_MAX := if_pos (by omega)
  have hlt : ¬ ((s : Int) ≥ m.size) := by have := h.seq_lt; omega
  have hs0 : 0 ≤ (s : Int) := natCast_nonneg s
  have hpart : ¬ (p = 0 ∧ upper (-1) = INT32_MAX) := by omega
  have hback : m.rollsBack s p (-1) ↔ p ≤ m.pos c ∧ m.pos c < INT32_MAX := by
    unfold rollsBack
    rw [hlow, hup, toNat_natCast, h.tail, toNat_natCast]
    omega
  have hcan : m.canSeqRm s p (-1) =
      !decide (p ≤ m.pos c ∧ m.pos c < INT32_MAX ∧ ¬ RollsFrom m.nRsSeq (m.pos c) p) := by
    unfold canSeqRm RollsFrom
    simp only [hlow, hup, if_neg hlt, if_neg (not_lt.mpr hs0), toNat_natCast, h.tail]
    rw [if_neg (by omega), Bool.eq_iff_iff]
    split <;> simp <;> omega
  unfold RecurrentMemory.seqRm
  simp only [hcan, hlow, if_neg hpart, if_neg hlt, if_pos hs0, toNat_natCast, h.tail, hback]
  by_cases hin : p ≤ m.pos c ∧ m.pos c < INT32_MAX
  · rw [if_pos hin]
    by_cases hroll : RollsFrom m.nRsSeq (m.pos c) p
    · rw [if_pos hroll, if_neg (by simp [hroll]), if_pos hin]
      unfold RollsFrom at hroll
      rw [if_pos (by omega)]
      unfold setRsIdx afterRollback
      rw [if_neg (by omega), toNat_natCast, min_eq_left (by omega)]
    · rw [if_neg hroll, if_pos (by simp [hin, hroll]), if_pos hin]
  · rw [if_neg hin, if_neg (by simp; omega), if_neg hin, hup, if_neg (by omega)]
    rw [rmCells_none (fun i hi hne hm => hne (h.only i hi hm)) (by omega)]

/-! ## Several removals -/

variable {last : Int}

/-- A sequence that ends at the greatest position keeps its index. -/
theorem indexed_end (h : m.Owns s c) (hs : s < m.nSeqMax) (hpos : m.pos c = INT32_MAX)
    (hidx : m.rsIdx s = 0) {ps : List Int} (hps : ∀ p ∈ ps, 0 < p ∧ p ≤ INT32_MAX) :
    m.Indexed s INT32_MAX ps ↔ ∀ p ∈ ps, INT32_MAX - (p - 1) ≤ m.nRsSeq := by
  induction ps with
  | nil => simp [Indexed]
  | cons p ps ih =>
    have hp := hps p mem_cons_self
    have hmax : m.seqPosMax s = INT32_MAX := by
      rw [h.seqPosMax, hpos]
      rfl
    unfold Indexed
    rw [seqRm_suffix h hs hp.1, if_neg (by omega)]
    simp only [Beyond, hmax, ih fun q hq => hps q (mem_cons_of_mem p hq), forall_mem_cons, hidx]
    constructor
    · rintro ⟨hb, -, hrest⟩
      refine ⟨?_, hrest⟩
      by_contra hbig
      cases hb ⟨hp.2, by omega⟩
    · rintro ⟨hfit, hrest⟩
      exact ⟨fun hb => absurd hb.2 (by omega), fun _ => by simp, hrest⟩

/-- After a rollback every further one stores a wrong index. -/
theorem indexed_rolled (h : m.Owns s c) (hs : s < m.nSeqMax) (h0 : 0 ≤ m.pos c)
    (hlt : m.pos c < last) (hlast : last ≤ INT32_MAX) (hidx : (m.rsIdx s : Int) = last - m.pos c)
    {ps : List Int} (hps : ∀ p ∈ ps, 0 < p) :
    m.Indexed s last ps ↔ ∀ q ∈ ps, ¬ RollsFrom m.nRsSeq (m.pos c) q := by
  induction ps with
  | nil => simp [Indexed]
  | cons p ps ih =>
    have hp := hps p mem_cons_self
    have hmax : m.seqPosMax s = m.pos c := by
      rw [h.seqPosMax]
      omega
    have hrest := ih fun q hq => hps q (mem_cons_of_mem p hq)
    unfold Indexed
    rw [seqRm_suffix h hs hp, forall_mem_cons]
    by_cases hin : p ≤ m.pos c
    · rw [if_pos ⟨hin, by omega⟩]
      by_cases hroll : RollsFrom m.nRsSeq (m.pos c) p
      · rw [if_pos hroll]
        refine iff_of_false ?_ fun hall => hall.1 hroll
        rintro ⟨-, hi, -⟩
        have := hi rfl
        dsimp only at this
        rw [(h.afterRollback p).seqPosMax, afterRollback_rsIdx, afterRollback_pos] at this
        omega
      · rw [if_neg hroll]
        simp [hrest, hroll]
    · rw [if_neg (by omega)]
      have hno : ¬ RollsFrom m.nRsSeq (m.pos c) p := fun hr => hin hr.1
      simp [hrest, hno, Beyond, hmax, hin, hidx]

/-- The index counts from the last decode as long as only one removal rolls back. -/
theorem indexed_rollsOnce (h : m.Owns s c) (hs : s < m.nSeqMax) (h0 : 0 ≤ m.pos c)
    (hend : m.pos c < INT32_MAX) (hidx : m.rsIdx s = 0) {ps : List Int} (hps : ∀ p ∈ ps, 0 < p) :
    m.Indexed s (m.pos c) ps ↔ RollsOnce m.nRsSeq (m.pos c) ps := by
  induction ps with
  | nil => simp [Indexed, RollsOnce]
  | cons p ps ih =>
    have hp := hps p mem_cons_self
    have hps' : ∀ q ∈ ps, 0 < q := fun q hq => hps q (mem_cons_of_mem p hq)
    have hmax : m.seqPosMax s = m.pos c := by
      rw [h.seqPosMax]
      omega
    unfold Indexed RollsOnce
    rw [seqRm_suffix h hs hp]
    by_cases hin : p ≤ m.pos c
    · rw [if_pos ⟨hin, hend⟩]
      by_cases hroll : RollsFrom m.nRsSeq (m.pos c) p
      · have hown := h.afterRollback p
        have hroll' := hroll.2
        rw [if_pos hroll, if_pos hroll]
        dsimp only
        rw [indexed_rolled hown hs (by simp; omega) (by simp; omega) hend.le (by simp; omega) hps',
          hown.seqPosMax, afterRollback_rsIdx, afterRollback_pos]
        have hno : ¬ m.Beyond s (m.pos c) p := fun hb => absurd hb.2 (by omega)
        constructor
        · exact fun hall => hall.2.2
        · exact fun hall => ⟨fun hb => absurd hb hno, fun _ => by omega, hall⟩
      · rw [if_neg hroll, if_neg hroll]
        simp [ih hps']
    · have hno : ¬ RollsFrom m.nRsSeq (m.pos c) p := fun hr => hin hr.1
      rw [if_neg (by omega), if_neg hno]
      simp [ih hps', Beyond, hmax, hin, hidx]

/-- Suffix removals after the decode of position `last` keep the index right exactly if `IndexKept`
holds. -/
theorem suffixRms_indexed (h : m.Owns s c) (hs : s < m.nSeqMax) (h0 : 0 ≤ m.pos c)
    (hend : m.pos c ≤ INT32_MAX) (hidx : m.rsIdx s = 0) (ps : List Int)
    (hps : ∀ p ∈ ps, 0 < p ∧ p ≤ INT32_MAX) :
    m.Indexed s (m.pos c) ps ↔ IndexKept m.nRsSeq (m.pos c) ps := by
  unfold IndexKept
  split
  · rename_i hmax
    rw [hmax]
    exact indexed_end h hs hmax hidx hps
  · exact indexed_rollsOnce h hs h0 (by omega) hidx fun p hp => (hps p hp).1

/-- Sequence `0` was decoded up to position `5`, with two snapshots. -/
def decodedTo5 : RecurrentMemory := (create 1 1 2).run [.findSlot (oneSeq 0 5)]

theorem decodedTo5_owns : decodedTo5.Owns 0 0 where
  seq_lt := by decide +kernel
  cell_lt := by decide +kernel
  tail := by decide +kernel
  alone := by decide +kernel
  only := by decide +kernel

/-- One rollback, a refused one and one that removes nothing. -/
theorem suffixRms_indexed_once : decodedTo5.Indexed 0 (decodedTo5.pos 0) [5, 2, 7] :=
  (suffixRms_indexed decodedTo5_owns (by decide +kernel) (by decide +kernel) (by decide +kernel)
    (by decide +kernel) [5, 2, 7] (by decide)).mpr (by decide +kernel)

/-- Two rollbacks of one token each: the index is `1`, and the state to read is two tokens back. -/
theorem suffixRms_twice :
    ¬ ∀ (m : RecurrentMemory) (s c : Nat), m.Owns s c → s < m.nSeqMax → 0 ≤ m.pos c →
      m.pos c ≤ INT32_MAX → m.rsIdx s = 0 → ∀ ps : List Int, (∀ p ∈ ps, 0 < p ∧ p ≤ INT32_MAX) →
        m.Indexed s (m.pos c) ps := by
  intro h
  have hi := h decodedTo5 0 0 decodedTo5_owns (by decide +kernel) (by decide +kernel)
    (by decide +kernel) (by decide +kernel) [5, 4] (by decide)
  have hnot : ¬ (((decodedTo5.seqRm 0 5 (-1)).1.seqRm 0 4 (-1)).1.rsIdx 0 : Int) =
      5 - ((decodedTo5.seqRm 0 5 (-1)).1.seqRm 0 4 (-1)).1.seqPosMax 0 := by decide +kernel
  exact hnot (hi.2.2.2.1 (by decide +kernel))

end BeeLlama.RecurrentMemory
