import BeeLlama.Kv.Cells

/-!
# The representation invariant of the KV cells

`KvCells.Inv`: the used set, the position counts and the cell counts of each sequence say what
the cells say. `KvCells.Tracks seq pos` is the part about the two counting indexes, for any cell
contents `seq`/`pos`: `seqPosRm i` takes cell `i` out of what they track (`Tracks.seqPosRm`),
`seqPosAdd i` puts it back with its present contents (`Tracks.seqPosAdd`). Each operation is a
removal, an assignment to the cell and an addition, so its lemma is one pass of these two.

`KvCells.Reach ok` are the objects that a run of operations reaches, each operation called
with what it asserts (`Op.Asserts`) and with `ok`.
-/

namespace BeeLlama.KvCells

open List Function Option KvCells

/-! ## Counting cells -/

/-- The number of cells below `n` that hold sequence `s` at position `p`. -/
def posCount (n : Nat) (seq : Nat → Finset Nat) (pos : Nat → Int) (s : Nat) (p : Int) : Nat :=
  ((Finset.range n).filter fun i => s ∈ seq i ∧ pos i = p).card

/-- The number of cells below `n` that hold sequence `s`. -/
def cellCount (n : Nat) (seq : Nat → Finset Nat) (s : Nat) : Nat :=
  ((Finset.range n).filter fun i => s ∈ seq i).card

/-- A count over the cells after one cell came to satisfy the property. -/
private theorem card_filter_add {n i : Nat} {P Q : Nat → Prop} [DecidablePred P] [DecidablePred Q]
    (hi : i < n) (hP : ¬ P i) (hQ : Q i) (hne : ∀ j, j ≠ i → (Q j ↔ P j)) :
    ((Finset.range n).filter Q).card = ((Finset.range n).filter P).card + 1 := by
  have he : (Finset.range n).filter Q = insert i ((Finset.range n).filter P) := by
    ext j
    by_cases e : j = i
    · subst e; simp [hi, hQ]
    · simp [e, hne j e]
  rw [he, Finset.card_insert_of_notMem (by simp [hP])]

private theorem card_filter_congr {n : Nat} {P Q : Nat → Prop} [DecidablePred P] [DecidablePred Q]
    (h : ∀ j, j < n → (Q j ↔ P j)) :
    ((Finset.range n).filter Q).card = ((Finset.range n).filter P).card := by
  congr 1
  exact Finset.filter_congr fun j hj => h j (Finset.mem_range.mp hj)

section Update

variable {n i s : Nat} {seq : Nat → Finset Nat} {pos : Nat → Int} {S : Finset Nat}

/-- The counts of `s` when cell `i` gains it. -/
theorem posCount_gain (hi : i < n) (h0 : s ∉ seq i) (h1 : s ∈ S) :
    posCount n (Function.update seq i S) pos s (pos i) = posCount n seq pos s (pos i) + 1 :=
  card_filter_add hi (by simp [h0]) (by simp [h1]) fun j hj => by simp [update_of_ne hj]

theorem cellCount_gain (hi : i < n) (h0 : s ∉ seq i) (h1 : s ∈ S) :
    cellCount n (Function.update seq i S) s = cellCount n seq s + 1 :=
  card_filter_add hi h0 (by simp [h1]) fun j hj => by simp [update_of_ne hj]

/-- The counts of `s` when cell `i` loses it. -/
theorem posCount_lose (hi : i < n) (h0 : s ∈ seq i) (h1 : s ∉ S) :
    posCount n seq pos s (pos i) = posCount n (Function.update seq i S) pos s (pos i) + 1 :=
  card_filter_add hi (by simp [h1]) ⟨h0, rfl⟩ fun j hj => by simp [update_of_ne hj]

theorem cellCount_lose (hi : i < n) (h0 : s ∈ seq i) (h1 : s ∉ S) :
    cellCount n seq s = cellCount n (Function.update seq i S) s + 1 :=
  card_filter_add hi (by simp [h1]) h0 fun j hj => by simp [update_of_ne hj]

/-- The count at another position does not depend on cell `i`. -/
theorem posCount_other {p : Int} (hp : p ≠ pos i) :
    posCount n (Function.update seq i S) pos s p = posCount n seq pos s p := by
  refine card_filter_congr fun j _ => ?_
  by_cases e : j = i
  · subst e; simp [Ne.symm hp]
  · simp [update_of_ne e]

/-- The counts of a sequence that cell `i` has before and after, or neither. -/
theorem posCount_same {p : Int} (h : s ∈ S ↔ s ∈ seq i) :
    posCount n (Function.update seq i S) pos s p = posCount n seq pos s p := by
  refine card_filter_congr fun j _ => ?_
  by_cases e : j = i
  · subst e; simp [h]
  · simp [update_of_ne e]

theorem cellCount_same (h : s ∈ S ↔ s ∈ seq i) :
    cellCount n (Function.update seq i S) s = cellCount n seq s := by
  refine card_filter_congr fun j _ => ?_
  by_cases e : j = i
  · subst e; simp [h]
  · simp [update_of_ne e]

/-- The position of a cell without sequences is not counted. -/
theorem posCount_update_pos {p q : Int} (h : seq i = ∅) :
    posCount n seq (Function.update pos i q) s p = posCount n seq pos s p := by
  refine card_filter_congr fun j _ => ?_
  by_cases e : j = i
  · subst e; simp [h]
  · simp [update_of_ne e]

theorem posCount_pos_iff {p : Int} : 0 < posCount n seq pos s p ↔
    ∃ j, j < n ∧ s ∈ seq j ∧ pos j = p := by
  rw [posCount, Finset.card_pos]
  exact ⟨fun ⟨j, hj⟩ => ⟨j, by simpa using hj⟩, fun ⟨j, hj⟩ => ⟨j, by simpa using hj⟩⟩

end Update

/-! ## What the counting indexes track -/

/-- `seq_pos` and `seq_used` count the cell contents `seq`/`pos`. -/
structure Tracks (c : KvCells) (seq : Nat → Finset Nat) (pos : Nat → Int) : Prop where
  seqPos : ∀ s, (c.seqPos s).Counts (posCount c.size seq pos s)
  seqUsed : ∀ s, c.seqUsed s = cellCount c.size seq s

section Tracks

variable {c : KvCells} {seq : Nat → Finset Nat} {pos : Nat → Int} {i s : Nat} {S : Finset Nat}

theorem Tracks.seqPosInc (h : c.Tracks seq pos) (hi : i < c.size) (h0 : s ∉ seq i) :
    (c.seqPosInc s (pos i)).Tracks (Function.update seq i (insert s (seq i))) pos := by
  constructor
  · intro t
    by_cases e : t = s
    · subst e
      simp only [seqPosInc, update_self]
      exact (h.seqPos t).inc (posCount_gain hi h0 (by simp)) fun p hp => posCount_other hp
    · simp only [KvCells.seqPosInc, update_of_ne e]
      exact (h.seqPos t).congr fun p => posCount_same (by simp [e])
  · intro t
    by_cases e : t = s
    · subst e
      simp only [seqPosInc, update_self]
      rw [cellCount_gain hi h0 (by simp), h.seqUsed]
    · simp only [KvCells.seqPosInc, update_of_ne e]
      rw [cellCount_same (by simp [e]), h.seqUsed]

theorem Tracks.seqPosDec (h : c.Tracks seq pos) (hi : i < c.size) (h0 : s ∈ seq i) :
    (c.seqPosDec s (pos i)).Tracks (Function.update seq i ((seq i).erase s)) pos := by
  constructor
  · intro t
    by_cases e : t = s
    · subst e
      simp only [seqPosDec, update_self]
      exact (h.seqPos t).dec (posCount_lose hi h0 (by simp)) fun p hp => posCount_other hp
    · simp only [KvCells.seqPosDec, update_of_ne e]
      exact (h.seqPos t).congr fun p => posCount_same (by simp [e])
  · intro t
    by_cases e : t = s
    · subst e
      simp only [seqPosDec, update_self]
      rw [h.seqUsed, cellCount_lose (S := (seq i).erase t) hi h0 (by simp), Nat.add_sub_cancel]
    · simp only [KvCells.seqPosDec, update_of_ne e]
      rw [cellCount_same (by simp [e]), h.seqUsed]

theorem Tracks.update_pos (h : c.Tracks seq pos) (h0 : seq i = ∅) (q : Int) :
    c.Tracks seq (Function.update pos i q) :=
  ⟨fun s => (h.seqPos s).congr fun _ => posCount_update_pos h0, h.seqUsed⟩

/-- The tracked contents, with the same indexes and size. -/
theorem Tracks.congr {c' : KvCells} (h : c.Tracks seq pos) (hs : c'.size = c.size)
    (hp : c'.seqPos = c.seqPos) (hu : c'.seqUsed = c.seqUsed) : c'.Tracks seq pos :=
  ⟨fun s => by rw [hp, hs]; exact h.seqPos s, fun s => by rw [hu, hs]; exact h.seqUsed s⟩

end Tracks

/-! ## The loops over the sequences of a cell -/

/-- `c'` differs from `c` in the two counting indexes only. -/
def SameCells (c c' : KvCells) : Prop :=
  c' = { c with seqPos := c'.seqPos, seqUsed := c'.seqUsed }

theorem SameCells.refl (c : KvCells) : SameCells c c := rfl

section Loops

variable (c : KvCells) (i : Nat)

private theorem sameCells_foldl {f : KvCells → Nat → KvCells}
    (hf : ∀ c s, SameCells c (f c s)) (l : List Nat) : SameCells c (l.foldl f c) := by
  induction l generalizing c with
  | nil => exact SameCells.refl c
  | cons s l ih =>
    have h1 := hf c s
    have h2 := ih (f c s)
    unfold SameCells at h1 h2 ⊢
    rw [foldl_cons, h2, h1]

theorem seqPosRm_sameCells : SameCells c (c.seqPosRm i) :=
  sameCells_foldl c (fun c s => by by_cases h : s ∈ c.seq i <;> simp [h, SameCells, seqPosDec]) _

theorem seqPosAdd_sameCells : SameCells c (c.seqPosAdd i) :=
  sameCells_foldl c (fun c s => by by_cases h : s ∈ c.seq i <;> simp [h, SameCells, seqPosInc]) _

variable {c i} {c' : KvCells}

theorem SameCells.size (h : SameCells c c') : c'.size = c.size := by rw [h]
theorem SameCells.hasShift (h : SameCells c c') : c'.hasShift = c.hasShift := by
  rw [h]
theorem SameCells.used (h : SameCells c c') : c'.used = c.used := by rw [h]
theorem SameCells.pos (h : SameCells c c') : c'.pos = c.pos := by rw [h]
theorem SameCells.ext (h : SameCells c c') : c'.ext = c.ext := by rw [h]
theorem SameCells.shift (h : SameCells c c') : c'.shift = c.shift := by rw [h]
theorem SameCells.seq (h : SameCells c c') : c'.seq = c.seq := by rw [h]

end Loops

section LoopSimp

variable (c : KvCells) (i : Nat)

@[simp] theorem seqPosRm_size : (c.seqPosRm i).size = c.size := (seqPosRm_sameCells c i).size
@[simp] theorem seqPosRm_hasShift : (c.seqPosRm i).hasShift = c.hasShift :=
  (seqPosRm_sameCells c i).hasShift
@[simp] theorem seqPosRm_used : (c.seqPosRm i).used = c.used := (seqPosRm_sameCells c i).used
@[simp] theorem seqPosRm_pos : (c.seqPosRm i).pos = c.pos := (seqPosRm_sameCells c i).pos
@[simp] theorem seqPosRm_ext : (c.seqPosRm i).ext = c.ext := (seqPosRm_sameCells c i).ext
@[simp] theorem seqPosRm_shift : (c.seqPosRm i).shift = c.shift := (seqPosRm_sameCells c i).shift
@[simp] theorem seqPosRm_seq : (c.seqPosRm i).seq = c.seq := (seqPosRm_sameCells c i).seq
@[simp] theorem seqPosAdd_size : (c.seqPosAdd i).size = c.size := (seqPosAdd_sameCells c i).size
@[simp] theorem seqPosAdd_hasShift : (c.seqPosAdd i).hasShift = c.hasShift :=
  (seqPosAdd_sameCells c i).hasShift
@[simp] theorem seqPosAdd_used : (c.seqPosAdd i).used = c.used := (seqPosAdd_sameCells c i).used
@[simp] theorem seqPosAdd_pos : (c.seqPosAdd i).pos = c.pos := (seqPosAdd_sameCells c i).pos
@[simp] theorem seqPosAdd_ext : (c.seqPosAdd i).ext = c.ext := (seqPosAdd_sameCells c i).ext
@[simp] theorem seqPosAdd_shift : (c.seqPosAdd i).shift = c.shift :=
  (seqPosAdd_sameCells c i).shift
@[simp] theorem seqPosAdd_seq : (c.seqPosAdd i).seq = c.seq := (seqPosAdd_sameCells c i).seq

end LoopSimp

section LoopTracks

variable {c : KvCells} {i : Nat} {seq : Nat → Finset Nat} {pos : Nat → Int}

/-- After the sequences below `k`, the indexes track cell `i` with the sequences from `k` on. -/
private theorem tracks_rm_upto (h : c.Tracks c.seq c.pos) (hi : i < c.size) (k : Nat) :
    ((List.range k).foldl
      (fun c s => if s ∈ c.seq i then c.seqPosDec s (c.pos i) else c) c).Tracks
      (Function.update c.seq i ((c.seq i).filter (k ≤ ·))) c.pos ∧
    SameCells c ((List.range k).foldl
      (fun c s => if s ∈ c.seq i then c.seqPosDec s (c.pos i) else c) c) := by
  induction k with
  | zero => simpa [SameCells] using h
  | succ k ih =>
    obtain ⟨ht, hs⟩ := ih
    rw [range_succ, foldl_append, foldl_cons, foldl_nil]
    generalize (List.range k).foldl _ c = c1 at ht hs
    have hf : ∀ x, k + 1 ≤ x ↔ k ≤ x ∧ x ≠ k := fun x => by omega
    by_cases hk : k ∈ c.seq i
    · rw [if_pos (by rw [hs.seq]; exact hk), hs.pos]
      refine ⟨?_, ?_⟩
      · have := ht.seqPosDec (i := i) (s := k) (by rw [hs.size]; exact hi) (by simp [hk])
        rw [update_idem] at this
        convert this using 2
        ext x
        simp only [Finset.mem_filter, Finset.mem_erase, update_self, hf x]
        tauto
      · rw [hs]; simp [SameCells, seqPosDec]
    · rw [if_neg (by rw [hs.seq]; exact hk)]
      refine ⟨?_, hs⟩
      convert ht using 2
      ext x
      simp only [Finset.mem_filter, hf x]
      exact ⟨fun ⟨a, b, _⟩ => ⟨a, b⟩, fun ⟨a, b⟩ => ⟨a, b, fun e => hk (e ▸ a)⟩⟩

/-- `seqPosRm i` takes cell `i` out of the indexes. -/
theorem Tracks.seqPosRm (h : c.Tracks c.seq c.pos) (hi : i < c.size)
    (hlt : ∀ s ∈ c.seq i, s < LLAMA_MAX_SEQ) :
    (c.seqPosRm i).Tracks (Function.update c.seq i ∅) c.pos := by
  have he : (c.seq i).filter (LLAMA_MAX_SEQ ≤ ·) = ∅ :=
    Finset.filter_eq_empty_iff.mpr fun s hs => Nat.not_le.mpr (hlt s hs)
  have := (tracks_rm_upto h hi LLAMA_MAX_SEQ).1
  rw [he] at this
  exact this

private theorem tracks_add_upto (h : c.Tracks seq c.pos) (hi : i < c.size) (h0 : seq i = ∅)
    (hne : ∀ j, j ≠ i → seq j = c.seq j) (k : Nat) :
    ((List.range k).foldl
      (fun c s => if s ∈ c.seq i then c.seqPosInc s (c.pos i) else c) c).Tracks
      (Function.update c.seq i ((c.seq i).filter (· < k))) c.pos ∧
    SameCells c ((List.range k).foldl
      (fun c s => if s ∈ c.seq i then c.seqPosInc s (c.pos i) else c) c) := by
  induction k with
  | zero =>
    refine ⟨?_, SameCells.refl c⟩
    have e : Function.update c.seq i ((c.seq i).filter (· < 0)) = seq := by
      funext j
      by_cases e : j = i
      · subst e; simp [h0]
      · rw [update_of_ne e, hne j e]
    rw [e]; exact h
  | succ k ih =>
    obtain ⟨ht, hs⟩ := ih
    rw [range_succ, foldl_append, foldl_cons, foldl_nil]
    generalize (List.range k).foldl _ c = c1 at ht hs
    by_cases hk : k ∈ c.seq i
    · rw [if_pos (by rw [hs.seq]; exact hk), hs.pos]
      refine ⟨?_, ?_⟩
      · have := ht.seqPosInc (i := i) (s := k) (by rw [hs.size]; exact hi) (by simp)
        rw [update_idem, update_self] at this
        convert this using 2
        ext x
        simp only [Finset.mem_filter, Finset.mem_insert, Nat.lt_succ_iff_lt_or_eq]
        constructor
        · rintro ⟨a, b | b⟩
          · exact .inr ⟨a, b⟩
          · exact .inl b
        · rintro (a | ⟨a, b⟩)
          · exact ⟨a ▸ hk, .inr a⟩
          · exact ⟨a, .inl b⟩
      · rw [hs]; simp [SameCells, seqPosInc]
    · rw [if_neg (by rw [hs.seq]; exact hk)]
      refine ⟨?_, hs⟩
      convert ht using 2
      ext x
      simp only [Finset.mem_filter, Nat.lt_succ_iff_lt_or_eq]
      exact ⟨fun ⟨a, b⟩ => ⟨a, b.resolve_right fun e => hk (e ▸ a)⟩, fun ⟨a, b⟩ => ⟨a, .inl b⟩⟩

/-- `seqPosAdd i` puts cell `i` back into the indexes, with its present contents. -/
theorem Tracks.seqPosAdd (h : c.Tracks seq c.pos) (hi : i < c.size) (h0 : seq i = ∅)
    (hne : ∀ j, j ≠ i → seq j = c.seq j) (hlt : ∀ s ∈ c.seq i, s < LLAMA_MAX_SEQ) :
    (c.seqPosAdd i).Tracks c.seq c.pos := by
  have := (tracks_add_upto h hi h0 hne LLAMA_MAX_SEQ).1
  rw [Finset.filter_true_of_mem hlt, update_eq_self] at this
  exact this

end LoopTracks

-- From here on the two loops are known by the lemmas above only.
attribute [local irreducible] KvCells.seqPosRm KvCells.seqPosAdd

/-! ## The invariant -/

/-- The indexes say what the cells say. -/
structure Inv (c : KvCells) : Prop extends Tracks c c.seq c.pos where
  used : ∀ i, i ∈ c.used ↔ i < c.size ∧ c.pos i ≠ -1
  empty : ∀ i, c.pos i = -1 → c.seq i = ∅
  /-- `seq[i]` is a bitset of `LLAMA_MAX_SEQ` bits. -/
  seq_lt : ∀ i, ∀ s ∈ c.seq i, s < LLAMA_MAX_SEQ

theorem reset_inv (c : KvCells) : c.reset.Inv where
  seqPos _ := CountMap.Counts.empty fun _ => by simp [posCount, reset]
  seqUsed _ := by simp [cellCount, reset]
  used _ := by simp [reset]
  empty _ _ := rfl
  seq_lt _ _ h := by simp [reset] at h

section Cell

variable {c c' : KvCells} {i : Nat}

/-- The one step: cell `i` gets the position `p` and the sequences `S`. -/
theorem Inv.update {p : Int} {S : Finset Nat} (h : c.Inv) (hi : i < c.size)
    (hsize : c'.size = c.size) (hseq : c'.seq = Function.update c.seq i S)
    (hpos : c'.pos = Function.update c.pos i p)
    (hused : c'.used = if p = -1 then c.used.erase i else insert i c.used)
    (hS : p = -1 → S = ∅) (hlt : ∀ s ∈ S, s < LLAMA_MAX_SEQ)
    (ht : c'.Tracks (Function.update c.seq i S) (Function.update c.pos i p)) : c'.Inv where
  toTracks := by rw [hseq, hpos]; exact ht
  used j := by
    rw [hused, hsize, hpos]
    by_cases e : j = i
    · subst e
      by_cases hp : p = -1 <;> simp [hp, hi]
    · by_cases hp : p = -1 <;> simp [hp, e, h.used j]
  empty j hj := by
    rw [hseq]
    rw [hpos] at hj
    by_cases e : j = i
    · subst e
      rw [update_self] at hj ⊢
      exact hS hj
    · rw [update_of_ne e] at hj ⊢
      exact h.empty j hj
  seq_lt j := by
    rw [hseq]
    by_cases e : j = i
    · subst e
      rw [update_self]
      exact hlt
    · rw [update_of_ne e]
      exact h.seq_lt j

/-- `seqPosRm i` leaves the indexes of the other cells, whatever position cell `i` gets. -/
theorem Inv.tracks_out (h : c.Inv) (hi : i < c.size) (p : Int) :
    (c.seqPosRm i).Tracks (Function.update c.seq i ∅) (Function.update c.pos i p) :=
  (h.toTracks.seqPosRm hi (h.seq_lt i)).update_pos (update_self ..) p

/-- The indexes after `seqPosRm i`, an assignment of `p` and `S` to cell `i`, and `seqPosAdd i`. -/
theorem Inv.tracks_back {p : Int} {S : Finset Nat} (h : c.Inv) (hi : i < c.size)
    (hlt : ∀ s ∈ S, s < LLAMA_MAX_SEQ)
    (hsize : c'.size = c.size) (hseq : c'.seq = Function.update c.seq i S)
    (hpos : c'.pos = Function.update c.pos i p)
    (hsp : c'.seqPos = (c.seqPosRm i).seqPos) (hsu : c'.seqUsed = (c.seqPosRm i).seqUsed) :
    (c'.seqPosAdd i).Tracks (Function.update c.seq i S) (Function.update c.pos i p) := by
  have ht : c'.Tracks (Function.update c.seq i ∅) c'.pos := by
    rw [hpos]
    exact (h.tracks_out hi p).congr (by simp [hsize]) hsp hsu
  have := ht.seqPosAdd (i := i) (by rw [hsize]; exact hi) (update_self ..)
    (fun j hj => by rw [hseq, update_of_ne hj, update_of_ne hj])
    (by rw [hseq, update_self]; exact hlt)
  rwa [hseq, hpos] at this

/-- An empty cell is not in the indexes. -/
theorem Inv.tracks_empty (h : c.Inv) (he : c.pos i = -1) (p : Int) :
    c.Tracks (Function.update c.seq i ∅) (Function.update c.pos i p) := by
  have hs : Function.update c.seq i ∅ = c.seq := by
    rw [← h.empty i he, update_eq_self]
  rw [hs]
  exact h.toTracks.update_pos (h.empty i he) p

/-! ## One lemma per operation -/

theorem Inv.posSet {p : Int} (h : c.Inv) (hi : i < c.size) (he : c.pos i = -1) (hp : p ≠ -1) :
    (c.posSet i p).Inv := by
  have hs : c.seq = Function.update c.seq i ∅ := by rw [← h.empty i he, update_eq_self]
  exact h.update (S := ∅) hi rfl hs rfl (by simp [KvCells.posSet, hp]) (fun _ => rfl) (by simp)
    ((h.tracks_empty he p).congr rfl rfl rfl)

theorem Inv.free (h : c.Inv) (hi : i < c.size) : (((c.seqPosRm i).setSeq i ∅).freeCell i).Inv := by
  refine h.update (p := -1) (S := ∅) hi ?_ ?_ ?_ ?_ (fun _ => rfl) (by simp) ?_
  · simp [freeCell, setSeq]
  · simp [freeCell, setSeq]
  · simp [freeCell, setSeq]
  · simp [freeCell, setSeq]
  · exact (h.tracks_out hi (-1)).congr rfl rfl rfl

theorem Inv.rm (h : c.Inv) (hi : i < c.size) : (c.rm i).Inv := h.free hi

theorem Inv.seqAdd {s : Nat} (h : c.Inv) (hi : i < c.size) (hp : c.pos i ≠ -1)
    (hs : s ∉ c.seq i) (hlt : s < LLAMA_MAX_SEQ) : (c.seqAdd i s).Inv := by
  have hu : i ∈ c.used := (h.used i).mpr ⟨hi, hp⟩
  refine h.update (p := c.pos i) (S := insert s (c.seq i)) hi rfl rfl ?_ ?_ (by simp [hp]) ?_ ?_
  · simp [KvCells.seqAdd, setSeq, seqPosInc]
  · simp [KvCells.seqAdd, setSeq, seqPosInc, hp, hu]
  · intro t ht
    rcases Finset.mem_insert.mp ht with rfl | ht
    · exact hlt
    · exact h.seq_lt i t ht
  · rw [update_eq_self]
    exact (h.toTracks.seqPosInc hi hs).congr rfl rfl rfl

theorem Inv.seqRm {s : Nat} (h : c.Inv) (hi : i < c.size) (hs : s ∈ c.seq i) :
    (c.seqRm i s).1.Inv := by
  have hp : c.pos i ≠ -1 := fun e => by rw [h.empty i e] at hs; simp at hs
  have hu : i ∈ c.used := (h.used i).mpr ⟨hi, hp⟩
  have ht := h.toTracks.seqPosDec hi hs
  unfold KvCells.seqRm
  by_cases he : (c.seq i).erase s = ∅
  · -- the last sequence of the cell: the cell is freed
    simp only [setSeq, seqPosDec, update_self, he, if_true]
    refine h.update (p := -1) (S := ∅) hi rfl rfl rfl (by simp [freeCell]) (fun _ => rfl)
      (by simp) ?_
    rw [he] at ht
    exact (ht.update_pos (update_self ..) (-1)).congr rfl rfl rfl
  · simp only [setSeq, seqPosDec, update_self, he, if_false]
    refine h.update (p := c.pos i) (S := (c.seq i).erase s) hi rfl rfl (by simp)
      (by simp [hp, hu]) (by simp [hp]) (fun t ht => h.seq_lt i t (Finset.mem_of_mem_erase ht)) ?_
    rw [update_eq_self]
    exact ht.congr rfl rfl rfl

theorem Inv.seqRmCell {s : Nat} (h : c.Inv) (hi : i < c.size) : (c.seqRmCell i s).1.Inv := by
  unfold KvCells.seqRmCell
  split
  · exact h
  · next hn =>
    push Not at hn
    exact h.seqRm hi hn.2

theorem Inv.seqKeep {s : Nat} (h : c.Inv) (hi : i < c.size) : (c.seqKeep i s).1.Inv := by
  unfold KvCells.seqKeep
  split
  · next hs =>
    have hp : c.pos i ≠ -1 := fun e => by rw [h.empty i e] at hs; simp at hs
    have hu : i ∈ c.used := (h.used i).mpr ⟨hi, hp⟩
    refine h.update (p := c.pos i) (S := {s}) hi ?_ ?_ ?_ ?_ (by simp [hp]) ?_ ?_
    · simp [seqPosInc, setSeq]
    · simp [seqPosInc, setSeq]
    · simp [seqPosInc, setSeq]
    · simp [seqPosInc, setSeq, hp, hu]
    · simpa using h.seq_lt i s hs
    · have ho := h.tracks_out hi (c.pos i)
      have := ho.seqPosInc (i := i) (s := s) (by simpa using hi) (by simp)
      rw [update_idem, update_self, update_self] at this
      exact this.congr rfl rfl rfl
  · split
    · exact h.free hi
    · exact h

theorem Inv.posAdd {d : Int} (h : c.Inv) (hi : i < c.size) (hp : c.pos i ≠ -1) :
    (c.posAdd i d).1.Inv := by
  have hu : i ∈ c.used := (h.used i).mpr ⟨hi, hp⟩
  unfold KvCells.posAdd
  simp only
  split
  · refine h.update (p := -1) (S := ∅) hi ?_ ?_ ?_ ?_ (fun _ => rfl) (by simp) ?_
    · simp [dropCell, movePos]
    · simp [dropCell, movePos]
    · simp [dropCell, movePos]
    · simp [dropCell, movePos]
    · exact (h.tracks_out hi (-1)).congr rfl rfl rfl
  · next hd =>
    have hd' : c.pos i + d ≠ -1 := by omega
    refine h.update (p := c.pos i + d) (S := c.seq i) hi ?_ ?_ ?_ ?_ (by simp [hd'])
      (h.seq_lt i) ?_
    · simp [movePos]
    · simp [movePos]
    · simp [movePos]
    · simp [movePos, hd', hu]
    · exact h.tracks_back hi (h.seq_lt i) (by simp [movePos]) (by simp [movePos])
        (by simp [movePos]) rfl rfl

theorem Inv.posDiv {d : Int} (h : c.Inv) (hi : i < c.size) (hp : c.pos i ≠ -1)
    (hq : (c.pos i).tdiv d ≠ -1) : (c.posDiv i d).Inv := by
  have hu : i ∈ c.used := (h.used i).mpr ⟨hi, hp⟩
  unfold KvCells.posDiv
  simp only
  refine h.update (p := (c.pos i).tdiv d) (S := c.seq i) hi ?_ ?_ ?_ ?_ (by simp [hq])
    (h.seq_lt i) ?_
  · simp [movePos]
  · simp [movePos]
  · simp [movePos]
  · simp [movePos, hq, hu]
  · exact h.tracks_back hi (h.seq_lt i) (by simp [movePos]) (by simp [movePos])
      (by simp [movePos]) rfl rfl

theorem Inv.extSet {e : CellExt} (h : c.Inv) : (c.extSet i e).Inv where
  toTracks := h.toTracks.congr rfl rfl rfl
  used := h.used
  empty := h.empty
  seq_lt := h.seq_lt

theorem Inv.resetShift (h : c.Inv) : c.resetShift.Inv where
  toTracks := h.toTracks.congr rfl rfl rfl
  used := h.used
  empty := h.empty
  seq_lt := h.seq_lt

end Cell

/-! ## Save and restore -/

/-- What `set` needs of the saved cells. -/
structure WellFormed (o : KvCells) : Prop where
  empty : ∀ j, o.pos j = -1 → o.seq j = ∅
  seq_lt : ∀ j, ∀ s ∈ o.seq j, s < LLAMA_MAX_SEQ

section Save

variable {c o : KvCells}

theorem Inv.cp (h : c.Inv) (i n : Nat) : (c.cp i n).WellFormed where
  empty j hj := by
    simp only [KvCells.cp] at hj ⊢
    by_cases e : j < n
    · simp only [e, if_true] at hj ⊢; exact h.empty _ hj
    · simp [e]
  seq_lt j s hs := by
    simp only [KvCells.cp] at hs
    by_cases e : j < n
    · simp only [e, if_true] at hs; exact h.seq_lt _ s hs
    · simp [e] at hs

theorem Inv.cpIdxs (h : c.Inv) (idxs : List Nat) : (c.cpIdxs idxs).WellFormed where
  empty j hj := by
    simp only [KvCells.cpIdxs] at hj ⊢
    cases e : idxs[j]? with
    | none => simp
    | some i => simp only [e, map_some, getD_some] at hj ⊢; exact h.empty i hj
  seq_lt j s hs := by
    simp only [KvCells.cpIdxs] at hs
    cases e : idxs[j]? with
    | none => simp [e] at hs
    | some i => simp only [e, map_some, getD_some] at hs; exact h.seq_lt i s hs

theorem setCell_size (c : KvCells) (idx : Nat) (o : KvCells) (j : Nat) :
    (c.setCell idx o j).size = c.size := by
  unfold setCell
  by_cases h1 : c.pos idx = -1 <;> by_cases h2 : o.pos j = -1 <;> simp [h1, h2, assign]

/-- The cell is out of the indexes before `set` assigns it: it is empty, or `seqPosRm` ran. -/
private theorem Inv.setCell_out {idx : Nat} (h : c.Inv) (hi : idx < c.size) (u : Finset Nat)
    (p : Int) : ∃ c₂ : KvCells,
      (if c.pos idx ≠ -1 then ({ c with used := u } : KvCells).seqPosRm idx
      else { c with used := u }) = c₂ ∧ c₂.size = c.size ∧ c₂.seq = c.seq ∧ c₂.pos = c.pos ∧
      c₂.Tracks (Function.update c.seq idx ∅) (Function.update c.pos idx p) := by
  have hc : ({ c with used := u } : KvCells).Tracks c.seq c.pos := h.toTracks.congr rfl rfl rfl
  by_cases h1 : c.pos idx = -1
  · refine ⟨_, if_neg (by simp [h1]), rfl, rfl, rfl, ?_⟩
    exact (h.tracks_empty h1 p).congr rfl rfl rfl
  · refine ⟨_, if_pos h1, by simp, by simp, by simp, ?_⟩
    exact (Tracks.seqPosRm hc hi (h.seq_lt idx)).update_pos (update_self ..) _

theorem Inv.setCell {idx j : Nat} (h : c.Inv) (hi : idx < c.size) (ho : o.WellFormed) :
    (c.setCell idx o j).Inv := by
  have hu : idx ∈ c.used ↔ c.pos idx ≠ -1 := by rw [h.used]; simp [hi]
  refine h.update (p := o.pos j) (S := o.seq j) hi (setCell_size c idx o j) ?_ ?_ ?_ (ho.empty j)
    (ho.seq_lt j) ?_
  · unfold KvCells.setCell
    by_cases h1 : c.pos idx = -1 <;> by_cases h2 : o.pos j = -1 <;> simp [h1, h2, assign]
  · unfold KvCells.setCell
    by_cases h1 : c.pos idx = -1 <;> by_cases h2 : o.pos j = -1 <;> simp [h1, h2, assign]
  · unfold KvCells.setCell setUsed
    by_cases h1 : c.pos idx = -1 <;> by_cases h2 : o.pos j = -1 <;> simp [h1, h2, assign, hu]
  · obtain ⟨c2, e2, hsz, hsq, hps, hb⟩ := h.setCell_out hi (c.setUsed idx (o.pos j)) (o.pos j)
    unfold KvCells.setCell
    simp only [e2]
    by_cases h2 : o.pos j = -1
    · rw [if_neg (by simp [h2]), ho.empty j h2]
      exact hb.congr rfl rfl rfl
    · rw [if_pos h2]
      have hs3 : (c2.assign idx (o.pos j) (o.ext j) (o.seq j)).seq
          = Function.update c.seq idx (o.seq j) := by simp [assign, hsq]
      have hp3 : (c2.assign idx (o.pos j) (o.ext j) (o.seq j)).pos
          = Function.update c.pos idx (o.pos j) := by simp [assign, hps]
      rw [← hs3, ← hp3]
      rw [← hp3] at hb
      refine Tracks.seqPosAdd (hb.congr rfl rfl rfl) (lt_of_lt_of_eq hi hsz.symm)
        (update_self ..) (fun k hk => ?_) ?_
      · rw [hs3, update_of_ne hk, update_of_ne hk]
      · rw [hs3, update_self]; exact ho.seq_lt j

/-- A run of `setCell` over in-range cells. -/
theorem Inv.foldl_setCell (at' : Nat → Nat) (ho : o.WellFormed) (l : List Nat) :
    ∀ c : KvCells, c.Inv → (∀ j ∈ l, at' j < c.size) →
      (l.foldl (fun c j => c.setCell (at' j) o j) c).Inv := by
  induction l with
  | nil => intro c h _; exact h
  | cons j l ih =>
    intro c h hl
    refine ih _ (h.setCell (hl j (by simp)) ho) fun k hk => ?_
    rw [setCell_size]
    exact hl k (by simp [hk])

theorem Inv.set {i : Nat} (h : c.Inv) (ho : o.WellFormed) (hi : i + o.size ≤ c.size) :
    (c.set i o).Inv :=
  Inv.foldl_setCell (fun j => i + j) ho _ c h fun j hj => by
    have := mem_range.mp hj
    omega

theorem Inv.setIdxs {idxs : List Nat} (h : c.Inv) (ho : o.WellFormed)
    (hn : idxs.length = o.size) (hi : ∀ i ∈ idxs, i < c.size) : (c.setIdxs idxs o).Inv :=
  Inv.foldl_setCell (fun j => idxs.getD j 0) ho _ c h fun j hj => by
    have hj' : j < idxs.length := by rw [hn]; exact mem_range.mp hj
    have he : idxs.getD j 0 = idxs[j] := by simp [hj']
    rw [he]
    exact hi _ (getElem_mem hj')

end Save

end BeeLlama.KvCells
