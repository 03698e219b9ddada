import BeeLlama.Kv.FindSlot

/-!
# The attention mask (`set_input_kq_mask`)

The mask has a row for each token of the ubatch and a column for each of the first `n_kv` cells, or
for each cell of the read plan (`read_cells`). The code evaluates all columns of the first token of
a sequence only. A later token of the sequence copies that row and evaluates again the columns of
the cells near the positions of the ubatch (`MaskBook.idxs`).

* `plainMask`: the value of a column by the rules of attention alone.
* `maskColumn_far`: far below the positions of the ubatch, all tokens of a sequence agree.
* `setInputKqMask_eq_plain`: the incremental mask is the plain one.

The mask is generic in the type of its values: `drop` and `keep` are the casts of `-INFINITY` and
`0`, `cast d` is the cast of the float `d`.
-/

namespace BeeLlama

open List Function Nat KvCells

/-- `x` as an `int32_t`. -/
def toInt32 (x : Int) : Int := Int.bmod x (2 ^ 32)

theorem toInt32_of_range {x : Int} (h : -2 ^ 31 ≤ x) (h' : x ≤ INT32_MAX) : toInt32 x = x := by
  have hm : (INT32_MAX : Int) = 2147483647 := rfl
  unfold toInt32 Int.bmod
  dsimp only
  split <;> omega

/-- `ubatch->seq_id[i][0]`. -/
def UToken.seqId0 (t : UToken) : Nat := t.seqIds.headD 0

/-- `args_set_input_kq_mask`, with the template arguments. -/
structure MaskArgs (T : Type) where
  cells : Nat → KvCells
  seqToStream : Nat → Nat
  ubatch : Ubatch
  nSwa : Nat
  swaType : SwaType
  nKv : Nat
  nStream : Nat
  /-- `read_cells`: the cell of each column, negative for none. -/
  readCells : Option (Nat → Int)
  causal : Bool
  alibi : Bool
  drop : T
  keep : T
  cast : Int → T

namespace MaskArgs

variable {T : Type} (a : MaskArgs T)

/-- `n_tps`. -/
def nTps : Nat := a.ubatch.tokens.length / a.nStream

/-- Token `i` of the ubatch. -/
def token (i : Nat) : UToken := a.ubatch.tokens.getD i ⟨0, {}, []⟩

/-- `seq_pos_min`: the least position of each sequence in the ubatch. -/
def seqPosMin (q : Nat) : Int :=
  a.ubatch.tokens.foldl (fun m t => if t.seqId0 = q then min m t.pos else m) INT32_MAX

/-- `uint32_t(mapped)`: the cell of column `j`, if it has one. -/
def columnCell (j : Nat) : Option Nat :=
  let mapped := match a.readCells with
    | some r => r j
    | none => j
  if mapped < 0 then none else some (mapped.toNat % 2 ^ 32)

/-- The code of one column for token `t`: the value, and if the column is recorded. -/
def maskColumn (t : UToken) (j : Nat) : T × Bool :=
  let c := a.cells (a.seqToStream t.seqId0)
  match a.columnCell j with
  | none => (a.drop, false)
  | some cell =>
    if c.size ≤ cell ∨ c.isEmpty cell then (a.drop, false)
    else if !c.seqHas cell t.seqId0 then (a.drop, false)
    else
      let p0 := c.pos cell
      let p1 := t.pos
      let near := decide (toInt32 (p0 + toInt32 (a.nSwa + 32)) ≥ a.seqPosMin t.seqId0)
      if a.causal ∧ p0 > p1 then (a.drop, near)
      else if a.causal ∧ a.ubatch.isPos2d ∧ p0 = p1 ∧ (c.ext cell).is2dGt t.ext.x t.ext.y then
        (a.drop, near)
      else if a.swaType ≠ .none ∧ isMaskedSwa a.nSwa a.swaType p0 p1 then (a.drop, near)
      else (if a.alibi then a.cast (-((p0 - p1).natAbs : Int)) else a.keep, near)

/-! ## The loops -/

/-- `seq_srct` and `seq_idxs`. -/
structure MaskBook where
  srct : Nat → Option Nat := fun _ => none
  idxs : Nat → List Nat := fun _ => []

/-- The loop over the columns of a row that has nothing to copy. -/
def fullRow (t : UToken) (idst : Nat) (data : Nat → T) : (Nat → T) × List Nat :=
  (List.range a.nKv).foldl
    (fun (r : (Nat → T) × List Nat) j =>
      let v := a.maskColumn t j
      (Function.update r.1 (idst + j) v.1, if v.2 then r.2 ++ [j] else r.2)) (data, [])

/-- `std::copy` of row `srct`. -/
def copyRow (srct idst : Nat) (data : Nat → T) : Nat → T :=
  fun k => if idst ≤ k ∧ k < idst + a.nKv then data (a.nKv * srct + (k - idst)) else data k

/-- The loop over the recorded columns; it ends at `idxs.size()`. -/
def recordedRow (t : UToken) (idst : Nat) (idxs : List Nat) (data : Nat → T) : Nat → T :=
  (List.range a.nKv).foldl
    (fun data jj =>
      match idxs[jj]? with
      | none => data
      | some j => Function.update data (idst + j) (a.maskColumn t j).1) data

/-- One row of the mask. -/
def maskRow (i : Nat) (r : (Nat → T) × MaskBook) : (Nat → T) × MaskBook :=
  let t := a.token i
  let q := t.seqId0
  let idst := a.nKv * i
  if a.alibi then ((a.fullRow t idst r.1).1, r.2)
  else
    match r.2.srct q with
    | some srct => (a.recordedRow t idst (r.2.idxs q) (a.copyRow srct idst r.1), r.2)
    | none =>
      let f := a.fullRow t idst r.1
      (f.1, ⟨Function.update r.2.srct q (some i), Function.update r.2.idxs q f.2⟩)

/-- `set_input_kq_mask_impl`: the book starts empty for each stream. -/
def setInputKqMaskImpl (data : Nat → T) : Nat → T :=
  (List.range a.nStream).foldl
    (fun data s => ((List.range a.nTps).foldl
      (fun r ii => a.maskRow (s * a.nTps + ii) r) (data, {})).1) data

/-! ## The plain mask -/

/-- The token may attend to the cell: the cell is occupied, holds the sequence of the token, is not
in the future and not outside the window. -/
def Attends (t : UToken) (cell : Nat) : Prop :=
  let c := a.cells (a.seqToStream t.seqId0)
  cell < c.size ∧ c.pos cell ≠ -1 ∧ t.seqId0 ∈ c.seq cell ∧
    (a.causal = true → c.pos cell ≤ t.pos ∧
      (a.ubatch.isPos2d = true → c.pos cell = t.pos →
        ¬ (t.ext.y < (c.ext cell).y ∨ t.ext.y = (c.ext cell).y ∧ t.ext.x < (c.ext cell).x))) ∧
    ¬ isMaskedSwa a.nSwa a.swaType (c.pos cell) t.pos = true

instance (t : UToken) (cell : Nat) : Decidable (a.Attends t cell) :=
  inferInstanceAs (Decidable (_ ∧ _ ∧ _ ∧ _ ∧ _))

/-- The mask by the rules of attention: `0`, or the distance with ALiBi, where the token may attend
to the cell of the column. -/
def plainMask (i j : Nat) : T :=
  match a.columnCell j with
  | none => a.drop
  | some cell =>
    if a.Attends (a.token i) cell then
      if a.alibi then
        a.cast (-((((a.cells (a.seqToStream (a.token i).seqId0)).pos cell -
          (a.token i).pos).natAbs : Nat) : Int))
      else a.keep
    else a.drop

/-- No position overflows when `n_swa + 32` is added. -/
structure NoOverflow : Prop where
  swa : a.nSwa + 32 ≤ INT32_MAX
  pos : ∀ x cell, -2 ^ 31 ≤ (a.cells x).pos cell ∧ (a.cells x).pos cell + a.nSwa + 32 ≤ INT32_MAX

/-! ## One column -/

section Column

variable {a} {t t' : UToken} {i j : Nat}

/-- The code of a column decides whether the token may attend to the cell. -/
theorem maskColumn_some {cell : Nat} (h : a.columnCell j = some cell) (t : UToken) :
    (a.maskColumn t j).1 =
      if a.Attends t cell then
        if a.alibi then
          a.cast (-((((a.cells (a.seqToStream t.seqId0)).pos cell - t.pos).natAbs : Nat) : Int))
        else a.keep
      else a.drop := by
  unfold maskColumn
  rw [h]
  dsimp only
  split
  · next hc =>
    rw [if_neg]
    rintro ⟨hlt, hne, -⟩
    rcases hc with hc | hc
    · exact absurd hlt (Nat.not_lt.mpr hc)
    · exact hne (by simpa [KvCells.isEmpty] using hc)
  · next hc =>
    simp only [not_or, Nat.not_le, KvCells.isEmpty, beq_iff_eq] at hc
    split
    · next hs =>
      rw [if_neg]
      rintro ⟨-, -, hs', -⟩
      simp [seqHas, hs'] at hs
    · next hs =>
      have hs' : t.seqId0 ∈ (a.cells (a.seqToStream t.seqId0)).seq cell := by
        simpa [KvCells.seqHas] using hs
      split
      · next hf =>
        rw [if_neg]
        rintro ⟨-, -, -, hp, -⟩
        exact absurd (hp hf.1).1 (Int.not_le.mpr hf.2)
      · next hf =>
        split
        · next hg =>
          rw [if_neg]
          rintro ⟨-, -, -, hp, -⟩
          refine (hp hg.1).2 hg.2.1 hg.2.2.1 ?_
          have := hg.2.2.2
          simp only [CellExt.is2dGt, Bool.or_eq_true, Bool.and_eq_true, decide_eq_true_eq] at this
          exact this.imp id fun h => ⟨h.1.symm, h.2⟩
        · next hg =>
          split
          · next hw =>
            rw [if_neg]
            rintro ⟨-, -, -, -, hn⟩
            exact hn hw.2
          · next hw =>
            have hA : a.Attends t cell := by
              refine ⟨hc.1, hc.2, hs', fun hcausal => ⟨?_, fun h2 he hgt => ?_⟩, fun hm => ?_⟩
              · by_contra hn
                exact hf ⟨hcausal, Int.not_le.mp hn⟩
              · refine hg ⟨hcausal, h2, he, ?_⟩
                simp only [CellExt.is2dGt, Bool.or_eq_true, Bool.and_eq_true, decide_eq_true_eq]
                exact hgt.imp id fun h => ⟨h.1.symm, h.2⟩
              · refine hw ⟨fun hn => ?_, hm⟩
                rw [hn] at hm
                cases hm
            rw [if_pos hA]

theorem maskColumn_value (i j : Nat) : (a.maskColumn (a.token i) j).1 = a.plainMask i j := by
  unfold plainMask
  cases h : a.columnCell j with
  | none =>
    unfold maskColumn
    rw [h]
  | some cell => exact maskColumn_some h (a.token i)

/-- A token of the sequence is not before the least position of the sequence. -/
theorem seqPosMin_le (ht : t ∈ a.ubatch.tokens) : a.seqPosMin t.seqId0 ≤ t.pos := by
  have key : ∀ (l : List UToken) (m : Int),
      l.foldl (fun m t' => if t'.seqId0 = t.seqId0 then min m t'.pos else m) m ≤ m ∧
        (t ∈ l → l.foldl (fun m t' => if t'.seqId0 = t.seqId0 then min m t'.pos else m) m ≤
          t.pos) := by
    intro l
    induction l with
    | nil => exact fun m => ⟨le_refl m, fun h => absurd h not_mem_nil⟩
    | cons t' l ih =>
      intro m
      rw [foldl_cons]
      obtain ⟨h1, h2⟩ := ih (if t'.seqId0 = t.seqId0 then min m t'.pos else m)
      refine ⟨h1.trans ?_, fun h => ?_⟩
      · split
        · exact min_le_left _ _
        · exact le_refl m
      · rcases mem_cons.mp h with rfl | h
        · refine h1.trans ?_
          rw [if_pos rfl]
          exact min_le_right _ _
        · exact h2 h
  exact (key a.ubatch.tokens INT32_MAX).2 ht

/-- Far below the position of a query every window masks the cell, and without a window none. -/
theorem isMaskedSwa_far {n : Nat} {p0 p p' : Int} (h : p0 + n + 32 < p) (h' : p0 + n + 32 < p')
    (w : SwaType) : isMaskedSwa n w p0 p = isMaskedSwa n w p0 p' := by
  unfold isMaskedSwa
  cases w with
  | none => rfl
  | standard =>
    dsimp only
    rw [decide_eq_true (by omega), decide_eq_true (by omega)]
  | chunked =>
    rcases Nat.eq_zero_or_pos n with rfl | hn
    · simp
    · have chunk : ∀ q : Int, p0 + n + 32 < q → p0 < ((q.toNat / n * n : Nat) : Int) := by
        intro q hq
        have hmod := div_add_mod' q.toNat n
        have hlt := mod_lt q.toNat hn
        omega
      rw [decide_eq_true (chunk p h), decide_eq_true (chunk p' h')]
  | symmetric =>
    dsimp only
    rw [decide_eq_true (by omega), decide_eq_true (by omega)]

/-- The column is recorded for sequence `q`. -/
def recorded (a : MaskArgs T) (q j : Nat) : Bool :=
  match a.columnCell j with
  | none => false
  | some cell =>
    let c := a.cells (a.seqToStream q)
    decide (cell < c.size ∧ c.isEmpty cell = false ∧ q ∈ c.seq cell ∧
      toInt32 (c.pos cell + toInt32 (a.nSwa + 32)) ≥ a.seqPosMin q)

theorem maskColumn_recorded (t : UToken) (j : Nat) :
    (a.maskColumn t j).2 = a.recorded t.seqId0 j := by
  unfold maskColumn recorded
  cases a.columnCell j with
  | none => rfl
  | some cell =>
    dsimp only
    split
    · next hc =>
      symm
      rw [decide_eq_false_iff_not]
      rintro ⟨hlt, hne, -⟩
      rcases hc with hc | hc
      · omega
      · rw [hne] at hc
        cases hc
    · next hc =>
      rw [not_or, Nat.not_le, Bool.not_eq_true] at hc
      split
      · next hs =>
        symm
        rw [decide_eq_false_iff_not]
        rintro ⟨-, -, hs', -⟩
        simp [seqHas, hs'] at hs
      · next hs =>
        have hs' : t.seqId0 ∈ (a.cells (a.seqToStream t.seqId0)).seq cell := by
          simpa [KvCells.seqHas] using hs
        have hd : decide (cell < (a.cells (a.seqToStream t.seqId0)).size ∧
            (a.cells (a.seqToStream t.seqId0)).isEmpty cell = false ∧
            t.seqId0 ∈ (a.cells (a.seqToStream t.seqId0)).seq cell ∧
            toInt32 ((a.cells (a.seqToStream t.seqId0)).pos cell + toInt32 (a.nSwa + 32)) ≥
              a.seqPosMin t.seqId0) =
            decide (toInt32 ((a.cells (a.seqToStream t.seqId0)).pos cell +
              toInt32 (a.nSwa + 32)) ≥ a.seqPosMin t.seqId0) :=
          decide_eq_decide.mpr ⟨fun h => h.2.2.2, fun h => ⟨hc.1, hc.2, hs', h⟩⟩
        rw [hd]
        split
        · rfl
        · split
          · rfl
          · split <;> rfl

/-- Without overflow, a column that is not recorded is far below every token of its sequence. -/
theorem far_of_not_recorded (ho : a.NoOverflow) {q cell : Nat} (hj : a.columnCell j = some cell)
    (hr : a.recorded q j = false) (hlt : cell < (a.cells (a.seqToStream q)).size)
    (hne : (a.cells (a.seqToStream q)).pos cell ≠ -1)
    (hs : q ∈ (a.cells (a.seqToStream q)).seq cell) :
    (a.cells (a.seqToStream q)).pos cell + a.nSwa + 32 < a.seqPosMin q := by
  unfold recorded at hr
  rw [hj] at hr
  rw [decide_eq_false_iff_not] at hr
  by_contra hn
  refine hr ⟨hlt, by simpa [KvCells.isEmpty] using hne, hs, ?_⟩
  have hswa := ho.swa
  obtain ⟨hlo, hhi⟩ := ho.pos (a.seqToStream q) cell
  have e1 : toInt32 ((a.nSwa : Int) + 32) = a.nSwa + 32 :=
    toInt32_of_range (by omega) (by exact_mod_cast hswa)
  rw [e1, toInt32_of_range (by omega) (by omega)]
  omega

/-- All tokens of a sequence agree on a column that is not recorded. -/
theorem maskColumn_far (ho : a.NoOverflow) (ha : a.alibi = false) (ht : t ∈ a.ubatch.tokens)
    (ht' : t' ∈ a.ubatch.tokens) (hq : t'.seqId0 = t.seqId0)
    (hr : a.recorded t.seqId0 j = false) : (a.maskColumn t j).1 = (a.maskColumn t' j).1 := by
  cases hj : a.columnCell j with
  | none =>
    unfold maskColumn
    rw [hj]
  | some cell =>
    rw [maskColumn_some hj, maskColumn_some hj, ha]
    refine if_congr ?_ rfl rfl
    unfold Attends
    rw [hq]
    refine and_congr_right fun hlt => and_congr_right fun hne => and_congr_right fun hs => ?_
    have hfar := far_of_not_recorded ho hj hr hlt hne hs
    have hmin := seqPosMin_le ht
    have hmin' := seqPosMin_le ht'
    rw [hq] at hmin'
    have hmask := isMaskedSwa_far (Int.lt_of_lt_of_le hfar hmin) (Int.lt_of_lt_of_le hfar hmin')
      a.swaType
    rw [hmask]
    refine and_congr_left fun _ => imp_congr_right fun _ => ?_
    constructor
    · exact fun _ => ⟨by omega, fun _ he => absurd he (by omega)⟩
    · exact fun _ => ⟨by omega, fun _ he => absurd he (by omega)⟩

end Column

/-! ## One row -/

section Row

variable {a} {t : UToken} {i j idst : Nat} {data : Nat → T}

theorem fullRow_spec (t : UToken) (idst : Nat) (data : Nat → T) :
    (∀ k, (a.fullRow t idst data).1 k =
      if idst ≤ k ∧ k < idst + a.nKv then (a.maskColumn t (k - idst)).1 else data k) ∧
    (a.fullRow t idst data).2 = (List.range a.nKv).filter (a.recorded t.seqId0) := by
  unfold fullRow
  induction a.nKv with
  | zero =>
    refine ⟨fun k => ?_, rfl⟩
    rw [if_neg (by omega)]
    rfl
  | succ m ih =>
    rw [range_succ, foldl_append, foldl_cons, foldl_nil, filter_append]
    obtain ⟨ihd, ihl⟩ := ih
    refine ⟨fun k => ?_, ?_⟩
    · dsimp only
      rcases eq_or_ne k (idst + m) with rfl | hk
      · rw [update_self, if_pos (by omega), Nat.add_sub_cancel_left]
      · rw [update_of_ne hk, ihd k]
        refine if_congr ?_ rfl rfl
        omega
    · dsimp only
      rw [ihl, maskColumn_recorded]
      cases h : a.recorded t.seqId0 m <;> simp [h]

theorem recordedRow_spec {idxs : List Nat} (hlen : idxs.length ≤ a.nKv) (k : Nat) :
    a.recordedRow t idst idxs data k =
      if idst ≤ k ∧ k - idst ∈ idxs then (a.maskColumn t (k - idst)).1 else data k := by
  have key : ∀ m, (List.range m).foldl (fun data jj =>
      match idxs[jj]? with
      | none => data
      | some j => Function.update data (idst + j) (a.maskColumn t j).1) data k =
      if idst ≤ k ∧ k - idst ∈ idxs.take m then (a.maskColumn t (k - idst)).1 else data k := by
    intro m
    induction m with
    | zero => simp
    | succ m ih =>
      rw [range_succ, foldl_append, foldl_cons, foldl_nil]
      cases h : idxs[m]? with
      | none =>
        dsimp only
        rw [ih, take_of_length_le (getElem?_eq_none_iff.mp h),
          take_of_length_le (le_succ_of_le (getElem?_eq_none_iff.mp h))]
      | some j =>
        dsimp only
        rw [take_add_one, h, Option.toList_some]
        rcases eq_or_ne k (idst + j) with rfl | hk
        · rw [update_self, if_pos ⟨by omega, by simp⟩, Nat.add_sub_cancel_left]
        · rw [update_of_ne hk, ih]
          refine if_congr ?_ rfl rfl
          rw [mem_append, mem_singleton]
          constructor
          · exact fun h => ⟨h.1, .inl h.2⟩
          · rintro ⟨h1, h2 | h2⟩
            · exact ⟨h1, h2⟩
            · omega
  have h := key a.nKv
  rw [take_of_length_le hlen] at h
  exact h

/-- The rows before row `n` are those of the plain mask. -/
def RowsOk (a : MaskArgs T) (n : Nat) (data : Nat → T) : Prop :=
  ∀ i < n, ∀ j < a.nKv, data (a.nKv * i + j) = a.plainMask i j

/-- The book names a row of each sequence before row `n`, and the recorded columns. -/
def BookOk (a : MaskArgs T) (n : Nat) (b : MaskBook) : Prop :=
  ∀ q r, b.srct q = some r → r < n ∧ (a.token r).seqId0 = q ∧
    b.idxs q = (List.range a.nKv).filter (a.recorded q)

theorem BookOk.empty (n : Nat) : a.BookOk n {} := fun _ _ h => nomatch h

theorem BookOk.mono {n m : Nat} {b : MaskBook} (h : a.BookOk n b) (hnm : n ≤ m) : a.BookOk m b :=
  fun q r hr => ⟨(h q r hr).1.trans_le hnm, (h q r hr).2⟩

/-- A new row `i` that leaves everything before it. -/
theorem RowsOk.succ (h : a.RowsOk i data) {data' : Nat → T}
    (hkeep : ∀ k < a.nKv * i, data' k = data k)
    (hrow : ∀ j < a.nKv, data' (a.nKv * i + j) = a.plainMask i j) : a.RowsOk (i + 1) data' := by
  intro r hr j hj
  rcases Nat.lt_succ_iff_lt_or_eq.mp hr with hr | rfl
  · have hle : a.nKv * (r + 1) ≤ a.nKv * i := Nat.mul_le_mul_left _ hr
    rw [mul_succ] at hle
    rw [hkeep _ (by omega)]
    exact h r hr j hj
  · exact hrow j hj

theorem token_mem (hi : i < a.ubatch.tokens.length) : a.token i ∈ a.ubatch.tokens := by
  unfold token
  rw [getD_eq_getElem?_getD, getElem?_eq_getElem hi]
  exact getElem_mem hi

/-- The step lemma: one row. -/
theorem maskRow_ok (ho : a.NoOverflow) (hi : i < a.ubatch.tokens.length)
    {r : (Nat → T) × MaskBook} (hr : a.RowsOk i r.1) (hb : a.BookOk i r.2) :
    a.RowsOk (i + 1) (a.maskRow i r).1 ∧ a.BookOk (i + 1) (a.maskRow i r).2 := by
  obtain ⟨hfull, hidxs⟩ := fullRow_spec (a := a) (a.token i) (a.nKv * i) r.1
  have hnew : a.RowsOk (i + 1) (a.fullRow (a.token i) (a.nKv * i) r.1).1 := by
    refine hr.succ (fun k hk => ?_) fun j hj => ?_
    · rw [hfull k, if_neg (by omega)]
    · rw [hfull, if_pos (by omega), Nat.add_sub_cancel_left, maskColumn_value]
  unfold maskRow
  dsimp only
  split
  · exact ⟨hnew, hb.mono (le_succ i)⟩
  · next halibi =>
    split
    · next srct hsrct =>
      obtain ⟨hlt, hq, hl⟩ := hb _ _ hsrct
      refine ⟨?_, hb.mono (le_succ i)⟩
      have hlen : (r.2.idxs (a.token i).seqId0).length ≤ a.nKv := by
        rw [hl]
        exact (length_filter_le _ _).trans (length_range).le
      refine hr.succ (fun k hk => ?_) fun j hj => ?_ <;> dsimp only
      · rw [recordedRow_spec hlen, if_neg (by omega), copyRow, if_neg (by omega)]
      · rw [recordedRow_spec hlen, Nat.add_sub_cancel_left, hl]
        -- a recorded column is evaluated again, any other one is that of row `srct`
        by_cases hrec : a.recorded (a.token i).seqId0 j = true
        · rw [if_pos ⟨by omega, mem_filter.mpr ⟨mem_range.mpr hj, hrec⟩⟩,
            maskColumn_value]
        · rw [if_neg (fun h => hrec (mem_filter.mp h.2).2), copyRow, if_pos (by omega),
            Nat.add_sub_cancel_left, hr srct hlt j hj, ← maskColumn_value, ← maskColumn_value]
          symm
          exact maskColumn_far ho (by simpa using halibi) (token_mem hi)
            (token_mem (hlt.trans hi)) hq (by simpa using hrec)
    · next hsrct =>
      refine ⟨hnew, fun q r' hr' => ?_⟩
      dsimp only at hr' ⊢
      rcases eq_or_ne q (a.token i).seqId0 with rfl | hq
      · rw [update_self] at hr' ⊢
        cases hr'
        exact ⟨lt_succ_self _, rfl, hidxs⟩
      · rw [update_of_ne hq] at hr' ⊢
        exact (hb.mono (le_succ i)) q r' hr'

end Row

/-! ## The mask -/

section Mask

variable {a}

/-- The rows of a stream. -/
theorem streamRows_ok (ho : a.NoOverflow) {s m : Nat} (hm : s * a.nTps + m ≤ a.ubatch.tokens.length)
    {data : Nat → T} (hr : a.RowsOk (s * a.nTps) data) :
    a.RowsOk (s * a.nTps + m)
        ((List.range m).foldl (fun r ii => a.maskRow (s * a.nTps + ii) r) (data, {})).1 ∧
      a.BookOk (s * a.nTps + m)
        ((List.range m).foldl (fun r ii => a.maskRow (s * a.nTps + ii) r) (data, {})).2 := by
  induction m with
  | zero => exact ⟨hr, BookOk.empty _⟩
  | succ m ih =>
    obtain ⟨ihr, ihb⟩ := ih (by omega)
    rw [range_succ, foldl_append, foldl_cons, foldl_nil]
    exact maskRow_ok (i := s * a.nTps + m) ho (by omega) ihr ihb

/-- The incremental mask is the plain mask, in every row and column. The ubatch has the same number
of tokens in every stream, as `set_input_kq_mask_mapped` asserts. -/
theorem setInputKqMask_eq_plain (a : MaskArgs T) (data : Nat → T) (ho : a.NoOverflow)
    (hn : a.ubatch.tokens.length % a.nStream = 0) :
    ∀ i < a.ubatch.tokens.length, ∀ j < a.nKv,
      a.setInputKqMaskImpl data (a.nKv * i + j) = a.plainMask i j := by
  have hlen : a.nStream * a.nTps = a.ubatch.tokens.length := by
    have := div_add_mod a.ubatch.tokens.length a.nStream
    unfold nTps
    omega
  have key : ∀ n ≤ a.nStream, a.RowsOk (n * a.nTps)
      ((List.range n).foldl (fun data s => ((List.range a.nTps).foldl
        (fun r ii => a.maskRow (s * a.nTps + ii) r) (data, {})).1) data) := by
    intro n
    induction n with
    | zero => exact fun _ i hi => absurd hi (by omega)
    | succ n ih =>
      intro hle
      rw [range_succ, foldl_append, foldl_cons, foldl_nil, succ_mul]
      refine (streamRows_ok ho ?_ (ih (by omega))).1
      have := Nat.mul_le_mul_right a.nTps hle
      rw [succ_mul] at this
      omega
  have h := key a.nStream (le_refl _)
  rw [hlen] at h
  exact h

/-- Two cells of sequence `0` at the positions `0` and `40`. -/
def sparseCells : KvCells :=
  (((KvCells.empty.resize 2).posSet 0 0).seqAdd 0 0).posSet 1 40 |>.seqAdd 1 0

/-- Two tokens of sequence `0` at the positions `40` and `41`, a window of `3` positions. -/
def sparseMask : MaskArgs (Option Int) where
  cells _ := sparseCells
  seqToStream _ := 0
  ubatch := ⟨[⟨40, {}, [0]⟩, ⟨41, {}, [0]⟩], [0], false⟩
  nSwa := 3
  swaType := .standard
  nKv := 2
  nStream := 1
  readCells := none
  causal := true
  alibi := false
  drop := none
  keep := some 0
  cast := some

theorem sparseMask_noOverflow : sparseMask.NoOverflow where
  swa := by decide
  pos x cell := by
    have hpos : (sparseMask.cells x).pos cell =
        if cell = 1 then 40 else if cell = 0 then 0 else -1 := by
      show Function.update (Function.update (fun _ => (-1 : Int)) 0 0) 1 40 cell = _
      simp only [update_apply]
    have hn : (sparseMask.nSwa : Int) = 3 := rfl
    have hm : (INT32_MAX : Int) = 2147483647 := rfl
    rw [hpos, hn, hm]
    split
    · decide
    · split <;> decide

/-- The second row copies the masked column `0` and evaluates column `1` again. -/
theorem sparseMask_row : sparseMask.recorded 0 0 = false ∧ sparseMask.recorded 0 1 = true ∧
    sparseMask.setInputKqMaskImpl (fun _ => none) 2 = sparseMask.plainMask 1 0 ∧
    sparseMask.setInputKqMaskImpl (fun _ => none) 3 = sparseMask.plainMask 1 1 ∧
    sparseMask.plainMask 1 0 = none ∧ sparseMask.plainMask 1 1 = some 0 :=
  ⟨by decide +kernel, by decide +kernel,
    setInputKqMask_eq_plain sparseMask _ sparseMask_noOverflow rfl 1 (by decide) 0 (by decide),
    setInputKqMask_eq_plain sparseMask _ sparseMask_noOverflow rfl 1 (by decide) 1 (by decide),
    by decide +kernel, by decide +kernel⟩

end Mask

end MaskArgs
end BeeLlama
