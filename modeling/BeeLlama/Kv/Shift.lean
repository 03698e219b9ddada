import BeeLlama.Kv.SeqCells

/-!
# Pending shifts (`pos_add`, `pos_div` and `shift` of `src/llama-kv-cells.h`)

`pos_add` and `pos_div` move a cell and add to its pending shift, which rotates the K row of the
cell when it is applied. `pos_add` adds the change of the position, `pos_div` the change with the
sign turned.

* `netShift_iff`: the pending shift is the net change of the position if and only if no `pos_div`
  changes the position.
* `seqCp_netShift_iff`: the same for the copy of the cell in another stream.
-/

namespace BeeLlama

open Cell
namespace KvCells

/-! ## Calls -/

/-- A call that moves a cell. -/
inductive Move where
  | posAdd (d : Int)
  | posDiv (d : Int)

/-- The call at cell `i`. -/
def Move.call (c : KvCells) (i : Nat) : Move → KvCells
  | .posAdd d => (c.posAdd i d).1
  | .posDiv d => c.posDiv i d

/-- The calls one after the other, each at its cell. -/
def runMoves : KvCells → List (Nat × Move) → KvCells
  | c, [] => c
  | c, (i, m) :: calls => runMoves (m.call c i) calls

/-- The call does not free a cell at position `p`; a divisor is positive. -/
def Move.Keeps (p : Int) : Move → Prop
  | .posAdd d => 0 ≤ p + d
  | .posDiv d => 0 < d

/-- The call adds to the shift what it adds to the position `p`. -/
def Move.Exact (p : Int) : Move → Prop
  | .posAdd _ => True
  | .posDiv d => d = 1 ∨ p = 0

instance (p : Int) : (m : Move) → Decidable (m.Keeps p)
  | .posAdd d => inferInstanceAs (Decidable (0 ≤ p + d))
  | .posDiv d => inferInstanceAs (Decidable (0 < d))

/-- Each call at cell `i` finds a position as `Q` says. -/
def EachMove (Q : Int → Move → Prop) (i : Nat) : KvCells → List (Nat × Move) → Prop
  | _, [] => True
  | c, (j, m) :: calls => (j = i → Q (c.pos i) m) ∧ EachMove Q i (m.call c j) calls

/-- The pending shift of cell `i` is the change of its position since `c`, and what the shift is
taken from is a position. -/
structure NetShift (c c' : KvCells) (i : Nat) : Prop where
  shift : c'.shift i = c'.pos i - c.pos i
  stored : 0 ≤ c'.pos i - c'.shift i

/-! ## One call -/

section Call

variable {c : KvCells} {i j : Nat} {m : Move}

theorem Move.call_cell_of_ne (m : Move) (c : KvCells) (h : j ≠ i) :
    (m.call c j).cell i = c.cell i := by
  cases m with
  | posAdd d => rw [Move.call, posAdd_cell, if_neg (Ne.symm h)]
  | posDiv d => rw [Move.call, posDiv_cell, if_neg (Ne.symm h)]

theorem tdiv_eq_self_iff {p d : Int} (hp : 0 ≤ p) (hd : 0 < d) : p.tdiv d = p ↔ d = 1 ∨ p = 0 := by
  constructor
  · intro h
    by_contra hn
    obtain ⟨hd1, hp0⟩ := not_or.mp hn
    obtain ⟨n, rfl⟩ := Int.eq_ofNat_of_zero_le hp
    obtain ⟨k, rfl⟩ := Int.eq_ofNat_of_zero_le hd.le
    have hlt : n / k < n := Nat.div_lt_self (by omega) (by omega)
    rw [← Int.ofNat_tdiv] at h
    omega
  · rintro (rfl | rfl)
    · exact Int.tdiv_one p
    · exact Int.zero_tdiv d

/-- The step lemma: a call adds to the shift the change of the position and twice what a division
took away. -/
theorem Move.call_drift (hp : 0 ≤ c.pos i) (hk : m.Keeps (c.pos i)) :
    0 ≤ (m.call c i).pos i ∧ ∃ e, 0 ≤ e ∧
      (m.call c i).shift i - c.shift i = (m.call c i).pos i - c.pos i + 2 * e ∧
      (e = 0 ↔ m.Exact (c.pos i)) := by
  cases m with
  | posAdd d =>
    have hcell := posAdd_cell c i i d
    rw [if_pos rfl, if_neg (Int.not_lt.mpr hk)] at hcell
    have hpos := congrArg Cell.pos hcell
    have hshift := congrArg Cell.shift hcell
    simp only [cell_pos, cell_shift] at hpos hshift
    refine ⟨by rw [Move.call, hpos]; exact hk, 0, Int.le_refl 0, ?_, by simp [Move.Exact]⟩
    rw [Move.call, hpos, hshift]
    omega
  | posDiv d =>
    have hcell := posDiv_cell c i i d
    rw [if_pos rfl] at hcell
    have hpos := congrArg Cell.pos hcell
    have hshift := congrArg Cell.shift hcell
    simp only [cell_pos, cell_shift] at hpos hshift
    have hd : 0 < d := hk
    have hle : (c.pos i).tdiv d ≤ c.pos i := Int.tdiv_le_self d hp
    refine ⟨by rw [Move.call, hpos]; exact Int.tdiv_nonneg hp hd.le,
      c.pos i - (c.pos i).tdiv d, by omega, ?_, ?_⟩
    · rw [Move.call, hpos, hshift]
      omega
    · rw [Move.Exact, ← tdiv_eq_self_iff hp hd]
      omega

end Call

/-! ## Runs -/

section Run

variable {c : KvCells} {i : Nat} {calls : List (Nat × Move)}

/-- The run lemma. -/
theorem runMoves_drift (hp : 0 ≤ c.pos i) (hk : EachMove Move.Keeps i c calls) :
    0 ≤ (runMoves c calls).pos i ∧ ∃ e, 0 ≤ e ∧
      (runMoves c calls).shift i - c.shift i = (runMoves c calls).pos i - c.pos i + 2 * e ∧
      (e = 0 ↔ EachMove Move.Exact i c calls) := by
  induction calls generalizing c with
  | nil => exact ⟨hp, 0, Int.le_refl 0, by simp [runMoves], by simp [EachMove]⟩
  | cons call calls ih =>
    obtain ⟨j, m⟩ := call
    by_cases hj : j = i
    · subst hj
      obtain ⟨hp1, e1, he1, hdrift₁, hexact₁⟩ := Move.call_drift hp (hk.1 rfl)
      obtain ⟨hp2, e2, he2, hdrift₂, hexact₂⟩ := ih hp1 hk.2
      refine ⟨hp2, e1 + e2, by omega, ?_, ?_⟩
      · rw [runMoves]
        omega
      · rw [EachMove, ← hexact₂, forall_prop_of_true rfl, ← hexact₁]
        omega
    · have hcell := m.call_cell_of_ne c hj
      have hpos := congrArg Cell.pos hcell
      have hshift := congrArg Cell.shift hcell
      simp only [cell_pos, cell_shift] at hpos hshift
      obtain ⟨hp2, e2, he2, hdrift₂, hexact₂⟩ := ih (by rwa [hpos]) hk.2
      refine ⟨hp2, e2, he2, ?_, ?_⟩
      · rw [runMoves, ← hpos, ← hshift]
        exact hdrift₂
      · rw [EachMove, hexact₂]
        exact (and_iff_right fun h => absurd h hj).symm

/-- The pending shift is the net change of the position if and only if every `pos_div` divides by
one or finds the position `0`. -/
theorem netShift_iff (hp : 0 ≤ c.pos i) (hk : EachMove Move.Keeps i c.resetShift calls) :
    NetShift c (runMoves c.resetShift calls) i ↔ EachMove Move.Exact i c.resetShift calls := by
  have hp' : 0 ≤ c.resetShift.pos i := hp
  obtain ⟨-, e, he, hdrift, hexact⟩ := runMoves_drift hp' hk
  rw [← hexact]
  have hs : c.resetShift.shift i = 0 := rfl
  have hpos : c.resetShift.pos i = c.pos i := rfl
  rw [hs, hpos] at hdrift
  constructor
  · intro h
    have := h.shift
    omega
  · intro h0
    exact ⟨by omega, by omega⟩

end Run

end KvCells

namespace KvCache

open KvCells

/-! ## The copy in another stream -/

section Copy

variable {source dest c' : KvCells} {src dst i : Nat}

theorem copyCell_cell_of_ne {j : Nat} (h : j ≠ i) :
    (copyCell source dst c' i).cell j = c'.cell j := by
  unfold copyCell
  dsimp only
  rw [extSet_cell, if_neg h]
  split
  · rw [posAdd_cell, if_neg h, seqAdd_cell, if_neg h, posSet_cell, if_neg h]
  · rw [seqAdd_cell, if_neg h, posSet_cell, if_neg h]

/-- A free cell gets the position and the shift of the source, whatever is written in between. -/
theorem copyCell_cell (hfree : c'.cell i = Cell.free) (hp : 0 ≤ source.pos i) :
    (copyCell source dst c' i).cell i = ⟨source.pos i, source.ext i, source.shift i, {dst}⟩ := by
  have hseq : c'.seq i = ∅ := congrArg Cell.seq hfree
  have hshift : c'.shift i = 0 := congrArg Cell.shift hfree
  have hcell : ((c'.posSet i (source.pos i - source.shift i)).seqAdd i dst).cell i =
      ⟨source.pos i - source.shift i, c'.ext i, 0, {dst}⟩ := by
    rw [seqAdd_cell, if_pos rfl, posSet_cell, if_pos rfl]
    simp [posSet, hseq, hshift]
  have hpos := congrArg Cell.pos hcell
  have hshift' := congrArg Cell.shift hcell
  simp only [cell_pos, cell_shift] at hpos hshift'
  unfold copyCell
  dsimp only
  rw [extSet_cell, if_pos rfl]
  split
  · rw [posAdd_cell, if_pos rfl, hcell, hpos, hshift', if_neg (by omega)]
    simp
  · next hz =>
    rw [hcell, not_not.mp hz]
    simp

private theorem copyCells_upto (hfree : ∀ j, c'.cell j = Cell.free) (k : Nat) :
    (∀ j, k ≤ j → ((List.range k).foldl
      (fun c i => if source.seqHas i src then copyCell source dst c i else c) c').cell j =
        Cell.free) ∧
    ∀ j < k, src ∈ source.seq j → 0 ≤ source.pos j → ((List.range k).foldl
      (fun c i => if source.seqHas i src then copyCell source dst c i else c) c').cell j =
        ⟨source.pos j, source.ext j, source.shift j, {dst}⟩ := by
  induction k with
  | zero => exact ⟨fun j _ => hfree j, fun j hj => absurd hj (Nat.not_lt_zero j)⟩
  | succ k ih =>
    obtain ⟨hrest, hdone⟩ := ih
    rw [List.range_succ, List.foldl_append, List.foldl_cons, List.foldl_nil]
    generalize (List.range k).foldl _ c' = a at hrest hdone
    have hne : ∀ j, j ≠ k → (if source.seqHas k src then copyCell source dst a k else a).cell j =
        a.cell j := fun j hj => by
      split
      · exact copyCell_cell_of_ne hj
      · rfl
    refine ⟨fun j hj => ?_, fun j hj hm hp => ?_⟩
    · rw [hne j (by omega), hrest j (by omega)]
    · by_cases e : j = k
      · subst e
        rw [if_pos (by simpa [seqHas] using hm), copyCell_cell (hrest j (Nat.le_refl j)) hp]
      · rw [hne j e, hdone j (by omega) hm hp]

theorem copyCells_cell (dest : KvCells) (dst : Nat) (hi : i < source.size)
    (hm : src ∈ source.seq i) (hp : 0 ≤ source.pos i) :
    (copyCells source dest src dst).cell i = ⟨source.pos i, source.ext i, source.shift i, {dst}⟩ :=
  (copyCells_upto (fun _ => rfl) source.size).2 i hi hm hp

variable {st st' : KvCache} {p0 p1 : Int}

/-- The cells of a copy across streams. -/
theorem seqCp_cells_of_ne (hs : st.cfg.seqToStream src ≠ st.cfg.seqToStream dst)
    (e : st.seqCp src dst p0 p1 = (st', .ok ())) :
    st'.cells (st.cfg.seqToStream dst) = copyCells (st.cells (st.cfg.seqToStream src))
      (st.cells (st.cfg.seqToStream dst)) src dst := by
  obtain ⟨st1, u1, e1, e⟩ := andThen_ok e
  obtain ⟨tail1, sc, rows, rfl, -⟩ := materializePendingCopies_eq e1
  dsimp only at e
  split at e
  · split at e
    · obtain ⟨st2, u2, e2, e⟩ := andThen_ok e
      have hcells₂ := queueTailCopies_cells e2
      rw [← (Prod.mk.inj e).1, rebuildAllocationHead_cells]
      show ((st2.markIfIncomplete dst).cells _) = _
      rw [markIfIncomplete_cells, hcells₂]
      exact Function.update_self ..
    · cases e
  · cases e

end Copy

section Pending

variable {c : KvCells} {i : Nat} {calls : List (Nat × Move)}

/-- The pending shift of a cell, and of its copy in another stream, is the net change of the
position if and only if every `pos_div` divides by one or finds the position `0`. -/
theorem pendingShift_iff (hp : 0 ≤ c.pos i) (hk : EachMove Move.Keeps i c.resetShift calls) :
    (NetShift c (runMoves c.resetShift calls) i ↔ EachMove Move.Exact i c.resetShift calls) ∧
    ∀ (st st' : KvCache) (src dst : Nat) (p0 p1 : Int),
      st.cells (st.cfg.seqToStream src) = runMoves c.resetShift calls →
      st.cfg.seqToStream src ≠ st.cfg.seqToStream dst →
      i < (runMoves c.resetShift calls).size → src ∈ (runMoves c.resetShift calls).seq i →
      st.seqCp src dst p0 p1 = (st', .ok ()) →
        (NetShift c (st'.cells (st.cfg.seqToStream dst)) i ↔
          EachMove Move.Exact i c.resetShift calls) := by
  refine ⟨netShift_iff hp hk, fun st st' src dst p0 p1 hc hs hi hm e => ?_⟩
  have hp' : 0 ≤ (runMoves c.resetShift calls).pos i := (runMoves_drift (c := c.resetShift) hp hk).1
  have hcell := copyCells_cell (st.cells (st.cfg.seqToStream dst)) dst hi hm hp'
  rw [← hc, ← seqCp_cells_of_ne hs e, hc] at hcell
  have hpos := congrArg Cell.pos hcell
  have hshift := congrArg Cell.shift hcell
  simp only [cell_pos, cell_shift] at hpos hshift
  rw [← netShift_iff hp hk]
  constructor
  · intro h
    exact ⟨by rw [← hpos, ← hshift]; exact h.shift, by rw [← hpos, ← hshift]; exact h.stored⟩
  · intro h
    exact ⟨by rw [hpos, hshift]; exact h.shift, by rw [hpos, hshift]; exact h.stored⟩

/-- One cell with sequence `0` at position `4`. -/
def cellAtFour : KvCells := ((KvCells.empty.resize 1).posSet 0 4).seqAdd 0 0

theorem cellAtFour_pending :
    NetShift cellAtFour (runMoves cellAtFour.resetShift [(0, .posAdd 3), (0, .posAdd (-2))]) 0 := by
  refine (pendingShift_iff (by decide +kernel) ?_).1.mpr ?_
  · exact ⟨fun _ => by decide +kernel, fun _ => by decide +kernel, trivial⟩
  · exact ⟨fun _ => trivial, fun _ => trivial, trivial⟩

/-- Half of the position `4`: the cell moves by `-2`, its shift by `2`. -/
theorem pendingShift_not_net : ¬ ∀ (c : KvCells) (i : Nat) (calls : List (Nat × Move)),
    0 ≤ c.pos i → EachMove Move.Keeps i c.resetShift calls →
      NetShift c (runMoves c.resetShift calls) i := by
  intro h
  have hn := h cellAtFour 0 [(0, .posDiv 2)] (by decide +kernel)
    ⟨fun _ => (by decide : (0 : Int) < 2), trivial⟩
  exact absurd hn.shift (by decide +kernel)

end Pending

end KvCache
end BeeLlama
