import BeeLlama.Kv.TailMask

/-!
# The packed body (`set_input_tail_body_plan`)

For each sequence of the ubatch the code lists the rows of the body that some query of the sequence
still sees after the exact tail took its rows. Without a window it asks the last query only; with a
window it asks every query, for the rows between the bounds of the window of the query.

* `unionSwaRows_eq`: the search in the sorted rows finds the visible rows inside the windows.
* `masked_outside`: a row outside the bounds is masked by `is_masked_swa`.
* `chosen_mono`: what the last query takes from the tail, an earlier query takes if it sees it.
* `bodyPlan_complete`: with a window the list is complete; without one it is if no row that the last
  query takes from the tail has a position there after an earlier query that sees its cell.
-/

namespace BeeLlama

open List Nat

/-! ## Sorted lists -/

section Sorted

variable {α : Type}

variable {p : α → Bool} {l : List α}

/-- In a list where the property holds up to some item, `takeWhile` ends there. -/
theorem lt_takeWhile_length_iff
    (h : l.Pairwise fun x y => p y = true → p x = true) {i : Nat} (hi : i < l.length) :
    i < (l.takeWhile p).length ↔ p l[i] = true := by
  induction l generalizing i with
  | nil => exact absurd hi (Nat.not_lt_zero i)
  | cons x l ih =>
    obtain ⟨hx, hl⟩ := pairwise_cons.mp h
    by_cases hp : p x = true
    · rw [takeWhile_cons_of_pos hp, length_cons]
      cases i with
      | zero => exact ⟨fun _ => hp, fun _ => succ_pos _⟩
      | succ i =>
        rw [succ_lt_succ_iff]
        exact ih hl (lt_of_succ_lt_succ hi)
    · rw [takeWhile_cons_of_neg hp, length_nil]
      refine ⟨fun h => absurd h (Nat.not_lt_zero i), fun h => absurd ?_ hp⟩
      cases i with
      | zero => exact h
      | succ i => exact hx _ (getElem_mem (lt_of_succ_lt_succ hi)) h

theorem rtake_cons (x : α) (l : List α) (n : Nat) :
    (x :: l).rtake n = if l.length < n then x :: l else l.rtake n := by
  unfold List.rtake
  split
  · next h =>
    rw [length_cons, Nat.sub_eq_zero_of_le (by omega), drop_zero]
  · next h =>
    rw [length_cons, show l.length + 1 - n = l.length - n + 1 by omega, drop_succ_cons]

/-- An item is among the newest with a property if fewer than `n` items with it come after. -/
theorem mem_rtake_filter {n : Nat} {x : α} : x ∈ (l.filter p).rtake n ↔
      ∃ l₁ l₂, l = l₁ ++ x :: l₂ ∧ p x = true ∧ (l₂.filter p).length < n := by
  induction l with
  | nil =>
    refine ⟨fun h => absurd ((rtake_sublist _ n).subset h) not_mem_nil, ?_⟩
    rintro ⟨l₁, l₂, h, -⟩
    exact absurd (append_eq_nil_iff.mp h.symm).2 (cons_ne_nil _ _)
  | cons y l ih =>
    have hmem : x ∈ ((y :: l).filter p).rtake n ↔
        (x = y ∧ p x = true ∧ (l.filter p).length < n) ∨ x ∈ (l.filter p).rtake n := by
      by_cases hy : p y = true
      · rw [filter_cons_of_pos hy, rtake_cons]
        split
        · next hlt =>
          have hfull : (l.filter p).rtake n = l.filter p := by
            unfold List.rtake
            rw [Nat.sub_eq_zero_of_le (Nat.le_of_lt hlt), drop_zero]
          rw [mem_cons, hfull]
          refine or_congr ⟨fun h => ⟨h, h ▸ hy, hlt⟩, fun h => h.1⟩ Iff.rfl
        · next hge =>
          exact ⟨.inr, fun h => h.resolve_left fun h => hge h.2.2⟩
      · rw [filter_cons_of_neg hy]
        exact ⟨.inr, fun h => h.resolve_left fun h => hy (h.1 ▸ h.2.1)⟩
    rw [hmem, ih]
    constructor
    · rintro (⟨rfl, hx, hlt⟩ | ⟨l₁, l₂, rfl, hx, hlt⟩)
      · exact ⟨[], l, rfl, hx, hlt⟩
      · exact ⟨y :: l₁, l₂, rfl, hx, hlt⟩
    · rintro ⟨l₁, l₂, hl, hx, hlt⟩
      cases l₁ with
      | nil =>
        cases hl
        exact .inl ⟨rfl, hx, hlt⟩
      | cons z l₁ =>
        cases hl
        exact .inr ⟨l₁, l₂, rfl, hx, hlt⟩

/-- The newest items with a property are the newest with a stronger one that they have. -/
theorem mem_rtake_filter_mono {p q : α → Bool} {n : Nat} {x : α}
    (h : ∀ y ∈ l, p y = true → q y = true) (hx : x ∈ (l.filter q).rtake n) (hp : p x = true) :
    x ∈ (l.filter p).rtake n := by
  obtain ⟨l1, l2, rfl, -, hlt⟩ := mem_rtake_filter.mp hx
  refine mem_rtake_filter.mpr ⟨l1, l2, rfl, hp, (List.Sublist.length_le ?_).trans_lt hlt⟩
  have hsub : l2.filter p = (l2.filter q).filter p := by
    rw [filter_filter]
    refine filter_congr fun y hy => ?_
    by_cases hpy : p y = true
    · rw [hpy, h y (mem_append_right _ (mem_cons_of_mem x hy)) hpy]
      rfl
    · rw [Bool.eq_false_of_not_eq_true hpy]
      rfl
  rw [hsub]
  exact filter_sublist

end Sorted

/-! ## The rows in the windows -/

/-- `llama_kv_tail_body_row`. -/
structure BodyRow where
  position : Int
  cell : Nat
  flat : Nat
  deriving DecidableEq, Repr

/-- The order of the rows: by position, then by cell. -/
def BodyRow.Le (a b : BodyRow) : Prop :=
  a.position < b.position ∨ (a.position = b.position ∧ a.cell ≤ b.cell)

instance : DecidableRel BodyRow.Le := fun _ _ => inferInstanceAs (Decidable (_ ∨ _))

/-- `llama_kv_tail_query_window`. -/
structure QueryWindow where
  maskRow : Nat
  position : Int
  deriving DecidableEq, Repr

/-- What the planner throws, and `abort` for a failed `GGML_ASSERT`. -/
inductive BodyPlanError where
  | noWindow
  | abort
  deriving DecidableEq, Repr

/-- The text of the exception. -/
def BodyPlanError.what : BodyPlanError → String
  | .noWindow => "SWA row union requires a non-zero window"
  | .abort => ""

/-- `clamp_pos`. -/
def clampPos (x : Int) : Int := max (-2 ^ 31) (min INT32_MAX x)

/-- `lo64` and `hi64`. -/
def windowBounds (nSwa : Nat) (swaType : SwaType) (causalAttn : Bool) (p1 : Int) : Int × Int :=
  let b : Int × Int := match swaType with
    | .none => (-2 ^ 31, INT32_MAX)
    | .standard => (p1 - nSwa + 1, INT32_MAX)
    | .chunked => (p1.tdiv nSwa * nSwa, INT32_MAX)
    | .symmetric => (p1 - (nSwa / 2 : Nat), p1 + (nSwa / 2 : Nat))
  (b.1, if causalAttn then min b.2 p1 else b.2)

/-- The indexes from `std::lower_bound` of `lo` to `std::upper_bound` of `hi`, in sorted rows. -/
def windowRange (rows : List BodyRow) (lo hi : Int) : Nat × Nat :=
  let first := (rows.takeWhile fun r => decide (r.position < lo)).length
  (first, first + ((rows.drop first).takeWhile fun r => !decide (hi < r.position)).length)

/-- The loop over the rows of the window of a query. -/
def selectWindow (rows : List BodyRow) (nSwa : Nat) (swaType : SwaType) (causalAttn : Bool)
    (isFinite : Nat → Nat → Bool) (selected : Nat → Bool) (query : QueryWindow) : Nat → Bool :=
  let b := windowBounds nSwa swaType causalAttn query.position
  let r := windowRange rows (clampPos b.1) (clampPos b.2)
  (List.range' r.1 (r.2 - r.1)).foldl
    (fun selected index =>
      if isFinite query.maskRow (rows.getD index ⟨0, 0, 0⟩).cell then
        Function.update selected index true
      else selected) selected

/-- `llama_kv_tail_union_swa_rows`. -/
def unionSwaRows (rows : List BodyRow) (queries : List QueryWindow) (nSwa : Nat) (swaType : SwaType)
    (causalAttn : Bool) (isFinite : Nat → Nat → Bool) : Except BodyPlanError (List BodyRow) :=
  if nSwa = 0 ∨ swaType = .none then .error .noWindow
  else
    let rows := rows.insertionSort BodyRow.Le
    let selected :=
      queries.foldl (selectWindow rows nSwa swaType causalAttn isFinite) fun _ => false
    .ok ((rows.zipIdx.filter fun p => selected p.2).map (·.1))

theorem BodyRow.Le.total (a b : BodyRow) : a.Le b ∨ b.Le a := by
  unfold BodyRow.Le
  omega

theorem BodyRow.Le.trans {a b c : BodyRow} (h : a.Le b) (h' : b.Le c) : a.Le c := by
  unfold BodyRow.Le at *
  omega

theorem sortRows_sorted (rows : List BodyRow) :
    (rows.insertionSort BodyRow.Le).Pairwise BodyRow.Le := by
  have : Std.Total BodyRow.Le := ⟨fun _ _ => BodyRow.Le.total _ _⟩
  have : IsTrans BodyRow BodyRow.Le := ⟨fun _ _ _ => BodyRow.Le.trans⟩
  exact pairwise_insertionSort _ _

theorem BodyRow.Le.position {a b : BodyRow} (h : a.Le b) : a.position ≤ b.position := by
  unfold BodyRow.Le at h
  omega

/-- The range of a window has the rows between its bounds. -/
theorem mem_windowRange {rows : List BodyRow} (hs : rows.Pairwise BodyRow.Le)
    {lo hi : Int} {i : Nat}
    (hi' : i < rows.length) :
    ((windowRange rows lo hi).1 ≤ i ∧ i < (windowRange rows lo hi).2) ↔
      lo ≤ rows[i].position ∧ rows[i].position ≤ hi := by
  have hlo : (rows.takeWhile fun r => decide (r.position < lo)).length ≤ i ↔
      lo ≤ rows[i].position := by
    have := lt_takeWhile_length_iff (p := fun r => decide (r.position < lo))
      (hs.imp fun h h' => decide_eq_true (h.position.trans_lt (of_decide_eq_true h'))) hi'
    rw [← Nat.not_lt, this, decide_eq_true_eq, Int.not_lt]
  unfold windowRange
  rw [hlo]
  refine and_congr_right fun h => ?_
  set first := (rows.takeWhile fun r => decide (r.position < lo)).length with hfirst
  have hdrop : i - first < (rows.drop first).length := by
    rw [length_drop]
    omega
  have hup := lt_takeWhile_length_iff (p := fun r => !decide (hi < r.position))
    ((hs.sublist (drop_sublist first rows)).imp fun {x y} hxy hy => by
      simp only [Bool.not_eq_true', decide_eq_false_iff_not, Int.not_lt] at hy ⊢
      exact hxy.position.trans hy) hdrop
  rw [show i < first + ((rows.drop first).takeWhile fun r => !decide (hi < r.position)).length ↔
    i - first < ((rows.drop first).takeWhile fun r => !decide (hi < r.position)).length
      by omega, hup]
  have hget : (rows.drop first)[i - first] = rows[i] := by
    rw [getElem_drop]
    congr 1
    omega
  rw [hget, Bool.not_eq_true', decide_eq_false_iff_not, Int.not_lt]

/-- The row is visible to the query and in its window. -/
def inWindow (nSwa : Nat) (swaType : SwaType) (causalAttn : Bool) (isFinite : Nat → Nat → Bool)
    (r : BodyRow) (query : QueryWindow) : Bool :=
  let b := windowBounds nSwa swaType causalAttn query.position
  decide (clampPos b.1 ≤ r.position ∧ r.position ≤ clampPos b.2) && isFinite query.maskRow r.cell

theorem foldl_update_true (ok : Nat → Bool) (l : List Nat) (sel : Nat → Bool) (i : Nat) :
    l.foldl (fun sel i => if ok i then Function.update sel i true else sel) sel i =
      (sel i || (decide (i ∈ l) && ok i)) := by
  induction l generalizing sel with
  | nil => simp
  | cons x l ih =>
    rw [foldl_cons, ih]
    by_cases hx : ok x = true
    · rw [if_pos hx, Function.update_apply]
      by_cases hix : i = x
      · subst hix
        simp [hx]
      · simp [hix]
    · rw [if_neg hx]
      by_cases hix : i = x
      · subst hix
        simp [hx]
      · simp [hix]

section Union

variable {rows : List BodyRow} {nSwa : Nat} {swaType : SwaType} {causalAttn : Bool}
  {isFinite : Nat → Nat → Bool}

theorem selectWindow_apply (hs : rows.Pairwise BodyRow.Le) (sel : Nat → Bool) (query : QueryWindow)
    {i : Nat} (hi : i < rows.length) :
    selectWindow rows nSwa swaType causalAttn isFinite sel query i =
      (sel i || inWindow nSwa swaType causalAttn isFinite rows[i] query) := by
  unfold selectWindow inWindow
  rw [foldl_update_true fun index => isFinite query.maskRow (rows.getD index ⟨0, 0, 0⟩).cell]
  congr 2
  · refine decide_eq_decide.mpr ?_
    rw [← mem_windowRange hs hi, mem_range'_1]
    omega
  · rw [getD_eq_getElem?_getD, getElem?_eq_getElem hi, Option.getD_some]

theorem foldl_selectWindow (hs : rows.Pairwise BodyRow.Le) (queries : List QueryWindow) {i : Nat}
    (hi : i < rows.length) (sel : Nat → Bool) :
    queries.foldl (selectWindow rows nSwa swaType causalAttn isFinite) sel i =
      (sel i || queries.any (inWindow nSwa swaType causalAttn isFinite rows[i])) := by
  induction queries generalizing sel with
  | nil => simp
  | cons q queries ih =>
    rw [foldl_cons, ih, selectWindow_apply hs sel q hi, any_cons, Bool.or_assoc]

/-- The rows that some query sees in its window, in order. -/
theorem unionSwaRows_eq (queries : List QueryWindow) (h : ¬ (nSwa = 0 ∨ swaType = .none)) :
    unionSwaRows rows queries nSwa swaType causalAttn isFinite =
      .ok ((rows.insertionSort BodyRow.Le).filter fun r =>
        queries.any (inWindow nSwa swaType causalAttn isFinite r)) := by
  unfold unionSwaRows
  rw [if_neg h]
  dsimp only
  have hs := sortRows_sorted rows
  generalize rows.insertionSort BodyRow.Le = rows at hs ⊢
  congr 1
  have hcongr : rows.zipIdx.filter (fun p => queries.foldl
      (selectWindow rows nSwa swaType causalAttn isFinite) (fun _ => false) p.2) =
      rows.zipIdx.filter ((fun r => queries.any (inWindow nSwa swaType causalAttn isFinite r)) ∘
        Prod.fst) := by
    refine filter_congr fun p hp => ?_
    have hp' := List.mem_zipIdx_iff_getElem?.mp hp
    obtain ⟨hlt, hget⟩ := List.getElem?_eq_some_iff.mp hp'
    rw [foldl_selectWindow hs queries hlt, Bool.false_or, hget]
    rfl
  rw [hcongr, ← filter_map, zipIdx_map_fst]

end Union

/-! ## The plan -/

/-- The arguments of `set_input_tail_body_plan_impl`, and of the masks before it. -/
structure BodyPlanArgs (T : Type) where
  tail : TailStore
  cells : Nat → KvCells
  generations : Nat → List Nat
  seqToStream : Nat → Nat
  ubatch : Ubatch
  nSwa : Nat
  swaType : SwaType
  nKv : Nat
  nKv_le : nKv ≤ UINT32_MAX
  nStream : Nat
  attentionStride : Nat
  arenaStride : Nat
  /-- `pack_body`: the descriptors have room for the rows. -/
  packBody : Bool
  causalAttn : Bool
  alibi : Bool
  drop : T
  keep : T
  cast : Int → T
  finite : T → Bool
  finite_drop : finite drop = false

/-- A descriptor of `run_desc`: the slots of the candidates, and the rows if the body is packed. -/
structure BodyDesc where
  seqId : Nat
  nQueries : Nat
  slots : List Int
  rows : Option (List Nat)
  deriving DecidableEq, Repr

namespace BodyPlanArgs

variable {T : Type} (a : BodyPlanArgs T)

/-- The arguments of `set_input_kq_mask`. -/
def mask : MaskArgs T :=
  { cells := a.cells, seqToStream := a.seqToStream, ubatch := a.ubatch, nSwa := a.nSwa,
    swaType := a.swaType, nKv := a.nKv, nStream := a.nStream, readCells := none,
    causal := a.causalAttn, alibi := a.alibi, drop := a.drop, keep := a.keep, cast := a.cast }

/-- The arguments of `set_input_kq_mask_tail`. -/
def tailMask : TailMaskArgs T :=
  { tail := a.tail, generations := a.generations, seqToStream := a.seqToStream,
    ubatch := a.ubatch, nKv := a.nKv, attentionStride := a.attentionStride,
    causalAttn := a.causalAttn, physicalToRead := none, drop := a.drop, finite := a.finite,
    finite_drop := a.finite_drop }

/-- The sequence of query `i`. -/
def seqOf (i : Nat) : Nat := a.tailMask.seqOf i

/-- The position of query `i`. -/
def posOf (i : Nat) : Int := (a.tailMask.token i).pos

/-- The queries of a sequence in `set_tail_query_plan`. -/
def queriesOf (q : Nat) : List Nat :=
  (List.range a.ubatch.tokens.length).filter fun i => decide (a.seqOf i = q)

/-- The keys of the map of `set_tail_query_plan`. -/
def activeSeqs : List Nat :=
  ((a.ubatch.tokens.map (·.seqId0)).dedup).insertionSort (· ≤ ·)

/-- `q_max`. -/
def qMax : Nat := (a.activeSeqs.map fun q => (a.queriesOf q).length).foldl max 0

/-- `n_query`. -/
def nQuery : Nat := a.ubatch.tokens.length / a.nStream

/-- The slots of the candidates from `candidate_first` on. -/
def slotsOf (q : Nat) : List Int :=
  let candidates := a.tail.sourceCandidates q
  let first := if a.qMax = 1 ∧ candidates.length > a.tail.cfg.nTokens then
      candidates.length - min a.tail.cfg.nTokens candidates.length
    else 0
  (candidates.drop first).map (·.slot)

/-- The rows of the cells of a sequence, before the sort. -/
def seqRows (q strm : Nat) : List BodyRow :=
  let c := a.cells (a.seqToStream q)
  ((List.range (min a.nKv c.size)).filter fun cell => !c.isEmpty cell && c.seqHas cell q).map
    fun cell => ⟨c.pos cell, cell, strm * a.nKv + cell⟩

/-- The rows that stay: those of the last query without a window, those of the windows with one. -/
def visibleRows (body : Nat → Nat → T) (q last : Nat) (rows : List BodyRow) :
    Except BodyPlanError (List BodyRow) :=
  if a.nSwa = 0 ∨ a.swaType = .none then
    .ok (rows.filter fun r => a.finite (body last r.cell))
  else if (a.queriesOf q).any fun i => decide (i / a.nQuery ≠ last / a.nQuery) then .error .abort
  else
    unionSwaRows rows ((a.queriesOf q).map fun i => ⟨i, a.posOf i⟩) a.nSwa a.swaType a.causalAttn
      fun i cell => a.finite (body i cell)

/-- One descriptor. -/
def planSeq (body : Nat → Nat → T) (q : Nat) : Except BodyPlanError BodyDesc :=
  match (a.queriesOf q).getLast? with
  | none => .error .abort
  | some last =>
    if a.attentionStride < (a.slotsOf q).length then .error .abort
    else if !a.packBody then .ok ⟨q, (a.queriesOf q).length, a.slotsOf q, none⟩
    else
      let rows := a.seqRows q (last / a.nQuery)
      if rows.any fun r => decide (r.flat > INT32_MAX) then .error .abort
      else
        match a.visibleRows body q last (rows.insertionSort BodyRow.Le) with
        | .error e => .error e
        | .ok rows =>
          if a.arenaStride < rows.length then .error .abort
          else .ok ⟨q, (a.queriesOf q).length, a.slotsOf q, some (rows.map (·.flat))⟩

/-- `set_input_tail_body_plan_impl`, for the descriptors of `set_tail_query_plan`. -/
def setInputTailBodyPlanImpl (body : Nat → Nat → T) : Except BodyPlanError (List BodyDesc) :=
  a.activeSeqs.mapM (a.planSeq body)

/-! ## The rows of a descriptor -/

/-- The cell is one of the body row of the sequence. -/
def InSeq (q c : Nat) : Prop :=
  c < a.nKv ∧ c < (a.cells (a.seqToStream q)).size ∧
    (a.cells (a.seqToStream q)).isEmpty c = false ∧ (a.cells (a.seqToStream q)).seqHas c q = true

/-- The last query of a sequence. -/
def lastOf (q : Nat) : Nat := (a.queriesOf q).getLastD 0

/-- The row of the cell comes before the other. -/
def RowBefore (q c c' : Nat) : Prop :=
  (a.cells (a.seqToStream q)).pos c < (a.cells (a.seqToStream q)).pos c' ∨
    ((a.cells (a.seqToStream q)).pos c = (a.cells (a.seqToStream q)).pos c' ∧ c < c')

/-- The descriptor lists the cells of its sequence that some query of it sees in the body, each
once, by position and cell. -/
def Complete (body : Nat → Nat → T) (d : BodyDesc) : Prop :=
  ∀ rows ∈ d.rows, ∃ cs : List Nat,
    rows = cs.map (a.lastOf d.seqId / a.nQuery * a.nKv + ·) ∧ cs.Pairwise (a.RowBefore d.seqId) ∧
      ∀ c, c ∈ cs ↔ a.InSeq d.seqId c ∧ ∃ i ∈ a.queriesOf d.seqId, a.finite (body i c) = true

/-- What the planner asks of a row. -/
def shown (body : Nat → Nat → T) (q : Nat) (r : BodyRow) : Bool :=
  if a.nSwa = 0 ∨ a.swaType = .none then a.finite (body (a.lastOf q) r.cell)
  else ((a.queriesOf q).map fun i => (⟨i, a.posOf i⟩ : QueryWindow)).any
    (inWindow a.nSwa a.swaType a.causalAttn (fun i cell => a.finite (body i cell)) r)

variable {a}

theorem mem_seqRows {q strm : Nat} {r : BodyRow} : r ∈ a.seqRows q strm ↔ a.InSeq q r.cell ∧
    r.position = (a.cells (a.seqToStream q)).pos r.cell ∧ r.flat = strm * a.nKv + r.cell := by
  unfold seqRows InSeq
  rw [mem_map]
  constructor
  · rintro ⟨c, hc, rfl⟩
    obtain ⟨hlt, hv⟩ := mem_filter.mp hc
    rw [mem_range, Nat.lt_min] at hlt
    rw [Bool.and_eq_true, Bool.not_eq_true'] at hv
    exact ⟨⟨hlt.1, hlt.2, hv.1, hv.2⟩, rfl, rfl⟩
  · rintro ⟨⟨h1, h2, h3, h4⟩, hp, hf⟩
    refine ⟨r.cell, mem_filter.mpr ⟨mem_range.mpr (Nat.lt_min.mpr ⟨h1, h2⟩), ?_⟩, ?_⟩
    · rw [h3, h4]
      rfl
    · rw [← hp, ← hf]

theorem seqRows_nodup (q strm : Nat) : ((a.seqRows q strm).map (·.cell)).Nodup := by
  unfold seqRows
  rw [map_map]
  have : ((·.cell) ∘ fun cell : Nat => (⟨(a.cells (a.seqToStream q)).pos cell, cell,
      strm * a.nKv + cell⟩ : BodyRow)) = id := rfl
  rw [this, map_id]
  exact nodup_range.filter _

variable {body : Nat → Nat → T}

theorem visibleRows_ok {q : Nat} {rows rows' : List BodyRow} (hs : rows.Pairwise BodyRow.Le)
    (h : a.visibleRows body q (a.lastOf q) rows = .ok rows') :
    rows' = rows.filter (a.shown body q) := by
  have hsort : rows.insertionSort BodyRow.Le = rows := List.Pairwise.insertionSort_eq hs
  unfold visibleRows at h
  unfold shown
  split at h
  · next hw =>
    rw [← Except.ok.inj h]
    refine filter_congr fun r _ => ?_
    rw [if_pos hw]
  · next hw =>
    split at h
    · cases h
    rw [unionSwaRows_eq _ hw, hsort] at h
    rw [← Except.ok.inj h]
    refine filter_congr fun r _ => ?_
    rw [if_neg hw]

variable {d : BodyDesc}

/-- The rows of a descriptor are the rows of its sequence that the planner is shown. -/
theorem planSeq_rows {q : Nat} (h : a.planSeq body q = .ok d) :
    d.seqId = q ∧ ∀ rows ∈ d.rows, rows = (((a.seqRows q (a.lastOf q / a.nQuery)).insertionSort
      BodyRow.Le).filter (a.shown body q)).map (·.flat) := by
  unfold planSeq at h
  split at h
  · cases h
  next last hlast =>
  have hl : last = a.lastOf q := by
    unfold lastOf
    rw [getLastD_eq_getLast?, hlast]
    rfl
  subst hl
  dsimp only at h
  split at h
  · cases h
  split at h
  · cases h
    exact ⟨rfl, fun rows hr => by cases hr⟩
  split at h
  · cases h
  split at h
  · cases h
  next rows' hv =>
  split at h
  · cases h
  cases h
  refine ⟨rfl, fun rows hr => ?_⟩
  rw [← Option.some.inj hr, visibleRows_ok (sortRows_sorted _) hv]

/-- The cells of these rows. -/
theorem planSeq_cells (body : Nat → Nat → T) (q : Nat) : ∃ cs : List Nat,
    (((a.seqRows q (a.lastOf q / a.nQuery)).insertionSort BodyRow.Le).filter
      (a.shown body q)).map (·.flat) = cs.map (a.lastOf q / a.nQuery * a.nKv + ·) ∧
    cs.Pairwise (a.RowBefore q) ∧
    ∀ c, c ∈ cs ↔ a.InSeq q c ∧
      a.shown body q ⟨(a.cells (a.seqToStream q)).pos c, c, a.lastOf q / a.nQuery * a.nKv + c⟩ := by
  set strm := a.lastOf q / a.nQuery with hstrm
  have hmem : ∀ r, r ∈ (a.seqRows q strm).insertionSort BodyRow.Le ↔ r ∈ a.seqRows q strm :=
    fun r => mem_insertionSort _
  refine ⟨(((a.seqRows q strm).insertionSort BodyRow.Le).filter (a.shown body q)).map (·.cell),
    ?_, ?_, fun c => ?_⟩
  · rw [map_map]
    refine map_congr_left fun r hr => ?_
    exact (mem_seqRows.mp ((hmem r).mp (mem_filter.mp hr).1)).2.2
  · have hnd : (((a.seqRows q strm).insertionSort BodyRow.Le).map (·.cell)).Nodup :=
      ((perm_insertionSort BodyRow.Le _).map _).nodup_iff.mpr (seqRows_nodup q strm)
    have hboth := (sortRows_sorted (a.seqRows q strm)).and (pairwise_map.mp hnd)
    rw [pairwise_map]
    refine List.Pairwise.imp_of_mem ?_ (hboth.sublist filter_sublist)
    intro r r' hr hr' h
    obtain ⟨hle, hne⟩ := h
    have hp := (mem_seqRows.mp ((hmem r).mp (mem_filter.mp hr).1)).2.1
    have hp' := (mem_seqRows.mp ((hmem r').mp (mem_filter.mp hr').1)).2.1
    unfold RowBefore
    rw [← hp, ← hp']
    unfold BodyRow.Le at hle
    omega
  · rw [mem_map]
    constructor
    · rintro ⟨r, hr, rfl⟩
      obtain ⟨hm, hsh⟩ := mem_filter.mp hr
      obtain ⟨hin, hp, hf⟩ := mem_seqRows.mp ((hmem r).mp hm)
      rw [← hp, ← hf]
      exact ⟨hin, hsh⟩
    · rintro ⟨hin, hsh⟩
      exact ⟨_, mem_filter.mpr ⟨(hmem _).mpr (mem_seqRows.mpr ⟨hin, rfl, rfl⟩), hsh⟩, rfl⟩

/-- A descriptor is complete if the planner is shown what some query sees. -/
theorem complete_iff {q : Nat} {rows : List Nat}
    (h : a.planSeq body q = .ok d) (hr : rows ∈ d.rows) :
    a.Complete body d ↔ ∀ c, a.InSeq q c →
      (a.shown body q ⟨(a.cells (a.seqToStream q)).pos c, c, a.lastOf q / a.nQuery * a.nKv + c⟩ =
        true ↔ ∃ i ∈ a.queriesOf q, a.finite (body i c) = true) := by
  obtain ⟨rfl, hrows⟩ := planSeq_rows h
  obtain ⟨cs, hcs, hsort, hmem⟩ := planSeq_cells (a := a) body d.seqId
  have hinj : Function.Injective (a.lastOf d.seqId / a.nQuery * a.nKv + ·) := fun _ _ h =>
    Nat.add_left_cancel h
  constructor
  · intro hc c hin
    obtain ⟨cs', hrows', -, hmem'⟩ := hc rows hr
    have heq : cs = cs' := map_injective_iff.mpr hinj
      (hcs.symm.trans ((hrows rows hr).symm.trans hrows'))
    subst heq
    exact ⟨fun hs => ((hmem' c).mp ((hmem c).mpr ⟨hin, hs⟩)).2,
      fun hs => ((hmem c).mp ((hmem' c).mpr ⟨hin, hs⟩)).2⟩
  · intro hall rows' hr'
    refine ⟨cs, (hrows rows' hr').trans hcs, hsort, fun c => ?_⟩
    rw [hmem]
    exact and_congr_right fun hin => hall c hin

/-! ## The windows -/

/-- The positions of the queries and of the cells are those of `is_masked_swa`. -/
structure Positions (a : BodyPlanArgs T) : Prop where
  query : ∀ i < a.ubatch.tokens.length, 0 ≤ a.posOf i ∧ a.posOf i ≤ INT32_MAX
  cell : ∀ x c, (a.cells x).isEmpty c = false →
    0 ≤ (a.cells x).pos c ∧ (a.cells x).pos c ≤ INT32_MAX

/-- A position outside the bounds of the window is masked. -/
theorem masked_outside {nSwa : Nat} {swaType : SwaType} {causalAttn : Bool} {p0 p1 : Int}
    (h0 : 0 ≤ p0) (h0' : p0 ≤ INT32_MAX) (h1 : 0 ≤ p1)
    (hc : causalAttn = true → p0 ≤ p1) (hm : ¬ isMaskedSwa nSwa swaType p0 p1 = true) :
    clampPos (windowBounds nSwa swaType causalAttn p1).1 ≤ p0 ∧
      p0 ≤ clampPos (windowBounds nSwa swaType causalAttn p1).2 := by
  have key : ∀ lo hi : Int, lo ≤ p0 → p0 ≤ hi → clampPos lo ≤ p0 ∧
      p0 ≤ clampPos (if causalAttn then min hi p1 else hi) := by
    intro lo hi hlo hhi
    unfold clampPos
    refine ⟨by omega, ?_⟩
    split
    · next h =>
      have := hc h
      omega
    · omega
  unfold windowBounds
  cases swaType with
  | none => exact key (-2 ^ 31) INT32_MAX (by omega) h0'
  | standard =>
    refine key (p1 - nSwa + 1) INT32_MAX ?_ h0'
    simp only [isMaskedSwa, decide_eq_true_eq] at hm
    omega
  | chunked =>
    refine key (p1.tdiv nSwa * nSwa) INT32_MAX ?_ h0'
    simp only [isMaskedSwa, decide_eq_true_eq, Int.not_lt] at hm
    have hdiv : p1.tdiv nSwa * nSwa = ((p1.toNat / nSwa * nSwa : Nat) : Int) := by
      obtain ⟨n, rfl⟩ := Int.eq_ofNat_of_zero_le h1
      rw [Int.toNat_natCast, cast_mul, Int.natCast_div, Int.tdiv_eq_ediv_of_nonneg h1]
    rw [hdiv]
    exact hm
  | symmetric =>
    simp only [isMaskedSwa, decide_eq_true_eq, not_or, Int.not_lt] at hm
    exact key (p1 - (nSwa / 2 : Nat)) (p1 + (nSwa / 2 : Nat)) (by omega) (by omega)

theorem plainMask_eq {i c : Nat} (hc : c < a.nKv) :
    a.mask.plainMask i c = if a.mask.Attends (a.mask.token i) c then
        if a.alibi then a.cast (-((((a.cells (a.seqToStream (a.seqOf i))).pos c -
          a.posOf i).natAbs : Nat) : Int))
        else a.keep
      else a.drop := by
  have hcol : a.mask.columnCell c = some c := by
    have hle := a.nKv_le
    have hmax : UINT32_MAX = 4294967295 := rfl
    unfold MaskArgs.columnCell mask
    dsimp only
    rw [if_neg (by omega), Int.toNat_natCast, mod_eq_of_lt (by omega)]
  unfold MaskArgs.plainMask
  rw [hcol]
  rfl

theorem attends_of_finite {i c : Nat} (hc : c < a.nKv)
    (h : a.finite (a.mask.plainMask i c) = true) : a.mask.Attends (a.mask.token i) c := by
  rw [plainMask_eq hc] at h
  split at h
  · next hatt => exact hatt
  · rw [a.finite_drop] at h
    cases h

/-! ## The body after the tail -/

/-- The column of a cell is the cell. -/
theorem readCell_eq (c : Nat) : a.tailMask.readCell c = if c < a.nKv then some c else none := by
  unfold TailMaskArgs.readCell tailMask
  dsimp only
  rw [Int.toNat_natCast]
  by_cases h : c < a.nKv
  · rw [if_neg (by omega), if_pos h]
  · rw [if_pos (by omega), if_neg h]

variable {p : TailEntry × Nat} {i : Nat} {row : Nat → T}

theorem column_eq (h : p ∈ a.tailMask.chosen i row) : a.tailMask.column p = p.1.identity.cell := by
  have hr := (TailMaskArgs.mem_chosen h).2.2.1
  rw [readCell_eq] at hr
  split at hr
  · exact (Option.some.inj hr).symm
  · cases hr

section Tail

variable {o o' : TailMaskOut T}

/-- A column is visible in the body after the tail if it was and the query did not take it. -/
theorem finite_after (ht : a.tailMask.setInputKqMaskTailImpl o = .ok o') {i : Nat}
    (hi : i < a.ubatch.tokens.length) (c : Nat) :
    a.finite (o'.body i c) = true ↔ a.finite (o.body i c) = true ∧
      c ∉ (a.tailMask.chosen i (o.body i)).map (·.1.identity.cell) := by
  have hcol : (a.tailMask.chosen i (o.body i)).map a.tailMask.column =
      (a.tailMask.chosen i (o.body i)).map (·.1.identity.cell) :=
    map_congr_left fun _ hp => column_eq hp
  rw [(TailMaskArgs.impl_ok ht hi).1, TailMaskArgs.splitRows_body, hcol]
  split
  · next hm =>
    rw [show a.tailMask.drop = a.drop from rfl, a.finite_drop]
    exact ⟨fun h => (by cases h), fun h => absurd hm h.2⟩
  · next hm => exact ⟨fun h => ⟨h, hm⟩, fun h => h.1⟩

theorem mem_queriesOf {q i : Nat} :
    i ∈ a.queriesOf q ↔ i < a.ubatch.tokens.length ∧ a.seqOf i = q := by
  unfold queriesOf
  rw [mem_filter, mem_range, decide_eq_true_eq]

theorem queriesOf_sorted (q : Nat) : (a.queriesOf q).Pairwise (· < ·) :=
  pairwise_lt_range.sublist filter_sublist

theorem lastOf_mem {q i : Nat} (h : i ∈ a.queriesOf q) :
    a.lastOf q ∈ a.queriesOf q ∧ i ≤ a.lastOf q := by
  have hne : a.queriesOf q ≠ [] := ne_nil_of_mem h
  have hlast : a.lastOf q = (a.queriesOf q).getLast hne := by
    unfold lastOf
    rw [getLastD_eq_getLast?, getLast?_eq_getLast_of_ne_nil hne]
    rfl
  rw [hlast]
  refine ⟨getLast_mem hne, ?_⟩
  have hs := a.queriesOf_sorted q
  rw [← dropLast_append_getLast hne, pairwise_append] at hs
  rw [← dropLast_append_getLast hne, mem_append, mem_singleton] at h
  rcases h with h | h
  · exact Nat.le_of_lt (hs.2.2 i h _ (mem_singleton.mpr rfl))
  · exact Nat.le_of_eq h

end Tail

/-! ## The plan is complete -/

/-- The cache has a window. -/
def Windowed (a : BodyPlanArgs T) : Prop := ¬ (a.nSwa = 0 ∨ a.swaType = .none)

/-- The tokens of a sequence are in the order of their positions, with equal ones of an image in the
order of its rows. -/
def Ordered (a : BodyPlanArgs T) : Prop :=
  ∀ i j, i ≤ j → j < a.ubatch.tokens.length → a.seqOf i = a.seqOf j → a.posOf i ≤ a.posOf j ∧
    (a.ubatch.isPos2d = true → a.posOf i = a.posOf j →
      (a.mask.token i).ext.y < (a.mask.token j).ext.y ∨
        ((a.mask.token i).ext.y = (a.mask.token j).ext.y ∧
          (a.mask.token i).ext.x ≤ (a.mask.token j).ext.x))

/-- Query `i` sees the cell. -/
def Sees (a : BodyPlanArgs T) (i c : Nat) : Prop := a.finite (a.mask.plainMask i c) = true

/-- What a query of the sequence sees, the last one sees. -/
def LastSees (a : BodyPlanArgs T) (q : Nat) : Prop :=
  ∀ i ∈ a.queriesOf q, ∀ c < a.nKv, a.Sees i c → a.Sees (a.lastOf q) c

/-- No row that the last query takes from the tail has a position there after a query that sees its
cell. -/
def NotLate (a : BodyPlanArgs T) (q : Nat) : Prop :=
  a.causalAttn = true → ∀ i ∈ a.queriesOf q,
    ∀ p ∈ a.tailMask.chosen (a.lastOf q) (a.mask.plainMask (a.lastOf q)),
      a.Sees i p.1.identity.cell → p.1.position ≤ a.posOf i

/-- A cell has one present row in the tail of a sequence. -/
def OneRow (a : BodyPlanArgs T) (q : Nat) : Prop :=
  (((a.tailMask.considered q).filter fun e => decide (a.tailMask.Current q e)).map
    (·.identity.cell)).Nodup

theorem chosen_cell_lt (h : p ∈ a.tailMask.chosen i row) : p.1.identity.cell < a.nKv ∧
      a.finite (row p.1.identity.cell) = true := by
  obtain ⟨-, -, hr, hf⟩ := TailMaskArgs.mem_chosen h
  rw [← column_eq h]
  exact ⟨TailMaskArgs.readCell_lt hr, hf⟩

theorem visible_iff {e : TailEntry} :
    a.tailMask.visible i row e = true ↔ a.tailMask.Current (a.seqOf i) e ∧
      e.identity.cell < a.nKv ∧ a.finite (row e.identity.cell) = true ∧
        (a.causalAttn = true → e.position ≤ a.posOf i) := by
  unfold TailMaskArgs.visible
  rw [readCell_eq, Bool.and_eq_true, decide_eq_true_eq]
  refine and_congr_right fun _ => ?_
  by_cases h : e.identity.cell < a.nKv
  · rw [if_pos h, Option.any_some, Bool.and_eq_true]
    refine ⟨fun hv => ⟨h, hv.1, fun hc => ?_⟩, fun hv => ⟨hv.2.1, ?_⟩⟩
    · have hc' : a.tailMask.causalAttn = true := hc
      have := hv.2
      rw [hc', Bool.true_and, Bool.not_eq_true', decide_eq_false_iff_not, Int.not_lt] at this
      exact this
    · cases hc : a.tailMask.causalAttn with
      | false => rfl
      | true =>
        rw [Bool.true_and, Bool.not_eq_true', decide_eq_false_iff_not, Int.not_lt]
        exact hv.2.2 hc
  · rw [if_neg h]
    exact ⟨fun hv => (by cases hv), fun hv => absurd hv.1 h⟩

/-- What the last query takes from the tail, a query that sees it takes too. -/
theorem chosen_mono (ho : a.Ordered) {q i : Nat} (hi : i ∈ a.queriesOf q) (hs : a.LastSees q)
    (hp : p ∈ a.tailMask.chosen (a.lastOf q) (a.mask.plainMask (a.lastOf q)))
    (hv : a.tailMask.visible i (a.mask.plainMask i) p.1 = true) :
    p ∈ a.tailMask.chosen i (a.mask.plainMask i) := by
  obtain ⟨hlast, hle⟩ := lastOf_mem hi
  have hq := (mem_queriesOf.mp hi).2
  obtain ⟨hlt', hq'⟩ := mem_queriesOf.mp hlast
  unfold TailMaskArgs.chosen at hp ⊢
  rw [show a.tailMask.seqOf (a.lastOf q) = a.tailMask.seqOf i from hq'.trans hq.symm] at hp
  refine mem_rtake_filter_mono (fun y _ hy => ?_) hp hv
  obtain ⟨hcur, hcell, hfin, hpos⟩ := visible_iff.mp hy
  refine visible_iff.mpr ⟨?_, hcell, hs i hi _ hcell hfin, fun hc => (hpos hc).trans ?_⟩
  · rw [hq'.trans hq.symm]
    exact hcur
  · exact (ho i (a.lastOf q) hle hlt' (hq.trans hq'.symm)).1

theorem mapM_ok {α β ε : Type} {f : α → Except ε β} : ∀ {l : List α} {ds : List β},
    l.mapM f = .ok ds → (∀ x ∈ l, ∃ d ∈ ds, f x = .ok d) ∧ ∀ d ∈ ds, ∃ x ∈ l, f x = .ok d := by
  intro l
  induction l with
  | nil =>
    intro ds h
    cases h
    exact ⟨fun _ h => absurd h not_mem_nil, fun _ h => absurd h not_mem_nil⟩
  | cons x l ih =>
    intro ds h
    rw [mapM_cons] at h
    cases hx : f x with
    | error e =>
      rw [hx] at h
      cases h
    | ok d =>
      rw [hx] at h
      cases hl : l.mapM f with
      | error e =>
        rw [hl] at h
        cases h
      | ok ds' =>
        rw [hl] at h
        cases h
        obtain ⟨ih1, ih2⟩ := ih hl
        simp only [mem_cons, forall_eq_or_imp, exists_eq_or_imp]
        exact ⟨⟨.inl hx, fun y hy => .inr (ih1 y hy)⟩, .inl hx, fun d' hd' => .inr (ih2 d' hd')⟩

section Complete

variable {o o' : TailMaskOut T} (hm : o.body = a.mask.plainMask)
  (ht : a.tailMask.setInputKqMaskTailImpl o = .ok o')

include hm ht

theorem sees_of_after {i c : Nat} (hi : i < a.ubatch.tokens.length)
    (h : a.finite (o'.body i c) = true) : a.Sees i c := by
  have := ((finite_after ht hi c).mp h).1
  rwa [hm] at this

/-- With a window, every row that a query sees is inside its bounds. -/
theorem shown_of_windowed (hp : a.Positions) (hw : a.Windowed) {q c : Nat} (hin : a.InSeq q c)
    (f : Nat) :
    a.shown o'.body q ⟨(a.cells (a.seqToStream q)).pos c, c, f⟩ = true ↔
      ∃ i ∈ a.queriesOf q, a.finite (o'.body i c) = true := by
  unfold shown
  rw [if_neg hw, any_map, any_eq_true]
  refine exists_congr fun i => and_congr_right fun hi => ?_
  obtain ⟨hlt, hq⟩ := mem_queriesOf.mp hi
  rw [Function.comp_apply]
  unfold inWindow
  rw [Bool.and_eq_true, decide_eq_true_eq]
  refine ⟨fun h => h.2, fun h => ⟨?_, h⟩⟩
  obtain ⟨-, -, -, hcausal, hswa⟩ := attends_of_finite hin.1 (sees_of_after hm ht hlt h)
  have hseq : (a.mask.token i).seqId0 = q := hq
  rw [hseq] at hcausal hswa
  obtain ⟨h0, h0'⟩ := hp.cell _ c hin.2.2.1
  exact masked_outside h0 h0' (hp.query i hlt).1 (fun hc => (hcausal hc).1) hswa

/-- Without one, what a query sees the last one sees, and takes no more of it from the tail. -/
theorem shown_of_last (ho : a.Ordered) (hw : ¬ a.Windowed) {q c : Nat} (hin : a.InSeq q c)
    (hlast : a.lastOf q ∈ a.queriesOf q) (hs : a.LastSees q) (hl : a.NotLate q) (f : Nat) :
    a.shown o'.body q ⟨(a.cells (a.seqToStream q)).pos c, c, f⟩ = true ↔
      ∃ i ∈ a.queriesOf q, a.finite (o'.body i c) = true := by
  unfold shown
  rw [if_pos (not_not.mp hw)]
  refine ⟨fun h => ⟨a.lastOf q, hlast, h⟩, ?_⟩
  · rintro ⟨i, hi, h⟩
    obtain ⟨hlt, hq⟩ := mem_queriesOf.mp hi
    have hsee := sees_of_after hm ht hlt h
    rw [finite_after ht (mem_queriesOf.mp hlast).1, hm]
    refine ⟨hs i hi c hin.1 hsee, fun hmem => ?_⟩
    obtain ⟨p, hp, rfl⟩ := mem_map.mp hmem
    have hnot := ((finite_after ht hlt _).mp h).2
    rw [hm] at hnot
    refine hnot (mem_map_of_mem (chosen_mono ho hi hs hp (visible_iff.mpr ?_)))
    refine ⟨?_, hin.1, hsee, fun hc => hl hc i hi p hp hsee⟩
    have := (TailMaskArgs.mem_chosen hp).2.1
    rwa [show a.tailMask.seqOf (a.lastOf q) = a.seqOf i from
      (mem_queriesOf.mp hlast).2.trans hq.symm] at this

/-- A row that is late for a query is missing. -/
theorem notLate_of_complete (hw : ¬ a.Windowed) {q : Nat} (hone : a.OneRow q)
    (hall : ∀ c, a.InSeq q c → (a.shown o'.body q ⟨(a.cells (a.seqToStream q)).pos c, c,
        a.lastOf q / a.nQuery * a.nKv + c⟩ = true ↔
      ∃ i ∈ a.queriesOf q, a.finite (o'.body i c) = true)) : a.NotLate q := by
  intro hc i hi p hp hsee
  obtain ⟨hlt, hq⟩ := mem_queriesOf.mp hi
  obtain ⟨hlast, -⟩ := lastOf_mem hi
  obtain ⟨hltl, hql⟩ := mem_queriesOf.mp hlast
  by_contra hlate
  have hmemOf : ∀ {j : Nat} {p' : TailEntry × Nat}, a.seqOf j = q →
      p' ∈ a.tailMask.chosen j (a.mask.plainMask j) → p'.1 ∈ (a.tailMask.considered q).filter
        fun e => decide (a.tailMask.Current q e) := by
    intro j p' hj hp'
    obtain ⟨hget, hcur, -⟩ := TailMaskArgs.mem_chosen hp'
    rw [show a.tailMask.seqOf j = q from hj] at hget hcur
    exact mem_filter.mpr ⟨mem_of_getElem? hget, decide_eq_true hcur⟩
  have hcell := (chosen_cell_lt hp).1
  have hafter : a.finite (o'.body i p.1.identity.cell) = true := by
    rw [finite_after ht hlt, hm]
    refine ⟨hsee, fun hmem => ?_⟩
    obtain ⟨p', hp', hcp⟩ := mem_map.mp hmem
    have heq : p'.1 = p.1 := inj_on_of_nodup_map hone (hmemOf hq hp') (hmemOf hql hp) hcp
    have hv := (mem_filter.mp ((rtake_sublist _ _).subset hp')).2
    rw [heq] at hv
    exact hlate ((visible_iff.mp hv).2.2.2 hc)
  have hin : a.InSeq q p.1.identity.cell := by
    obtain ⟨hsize, hpos, hseq, -⟩ := attends_of_finite hcell hsee
    rw [show (a.mask.token i).seqId0 = q from hq] at hsize hpos hseq
    refine ⟨hcell, hsize, ?_, ?_⟩
    · exact beq_eq_false_iff_ne.mpr hpos
    · exact decide_eq_true hseq
  have hshown := (hall _ hin).mpr ⟨i, hi, hafter⟩
  unfold shown at hshown
  rw [if_pos (not_not.mp hw), finite_after ht hltl, hm] at hshown
  exact hshown.2 (mem_map_of_mem hp)

end Complete

variable {q : Nat}

theorem planSeq_last (h : a.planSeq body q = .ok d) : a.lastOf q ∈ a.queriesOf q := by
  unfold planSeq at h
  split at h
  · cases h
  next last hlast => exact (lastOf_mem (mem_of_getLast? hlast)).1

theorem planSeq_packed (hpack : a.packBody = true)
    (h : a.planSeq body q = .ok d) : ∃ rows, rows ∈ d.rows := by
  unfold planSeq at h
  rw [hpack] at h
  split at h
  · cases h
  dsimp only at h
  split at h
  · cases h
  rw [if_neg (by decide)] at h
  split at h
  · cases h
  split at h
  · cases h
  split at h
  · cases h
  cases h
  exact ⟨_, rfl⟩

/-- Without ALiBi and a window the last query sees the most. -/
theorem Ordered.lastSees (ho : a.Ordered) (ha : a.alibi = false)
    (hw : a.swaType = .none) (q : Nat) :
    a.LastSees q := by
  intro i hi c hc hsee
  obtain ⟨hlast, hle⟩ := lastOf_mem hi
  obtain ⟨hlt, hq⟩ := mem_queriesOf.mp hi
  obtain ⟨hltl, hql⟩ := mem_queriesOf.mp hlast
  obtain ⟨hpos, h2d⟩ := ho i _ hle hltl (hq.trans hql.symm)
  have hat := attends_of_finite hc hsee
  have hat' : a.mask.Attends (a.mask.token (a.lastOf q)) c := by
    have hseq : (a.mask.token (a.lastOf q)).seqId0 = (a.mask.token i).seqId0 := hql.trans hq.symm
    have hpos' : (a.mask.token i).pos ≤ (a.mask.token (a.lastOf q)).pos := hpos
    unfold MaskArgs.Attends at hat ⊢
    rw [hseq]
    obtain ⟨hsize, hne, hmem, hcausal, -⟩ := hat
    refine ⟨hsize, hne, hmem, fun hca => ⟨(hcausal hca).1.trans hpos', fun hd heq => ?_⟩, ?_⟩
    · have heq' : a.posOf i = a.posOf (a.lastOf q) :=
        le_antisymm hpos (heq.symm.le.trans (hcausal hca).1)
      have hraster := h2d hd heq'
      have hthis := (hcausal hca).2 hd (heq.trans heq'.symm)
      omega
    · rw [show a.mask.swaType = .none from hw]
      exact Bool.false_ne_true
  unfold Sees at hsee ⊢
  rw [plainMask_eq hc, if_pos hat, if_neg (by rw [ha]; exact Bool.false_ne_true)] at hsee
  rw [plainMask_eq hc, if_pos hat', if_neg (by rw [ha]; exact Bool.false_ne_true)]
  exact hsee

/-- The asserts of the planner. The cells fit in the arena, as
`llama_kv_tail_sparse_body_capacity_safe` checks. -/
structure Fits (a : BodyPlanArgs T) : Prop where
  tail : a.tailMask.Fits
  slots : ∀ i < a.ubatch.tokens.length, (a.slotsOf (a.seqOf i)).length ≤ a.attentionStride
  flat : ∀ i < a.ubatch.tokens.length, (i / a.nQuery + 1) * a.nKv ≤ INT32_MAX + 1
  stream : ∀ i < a.ubatch.tokens.length, ∀ j < a.ubatch.tokens.length,
    a.seqOf i = a.seqOf j → i / a.nQuery = j / a.nQuery
  arena : ∀ x, (a.cells x).size ≤ a.arenaStride

theorem seqRows_length (q strm : Nat) :
    (a.seqRows q strm).length ≤ (a.cells (a.seqToStream q)).size := by
  unfold seqRows
  rw [length_map]
  refine (length_filter_le _ _).trans ?_
  rw [length_range]
  exact Nat.min_le_right _ _

theorem Fits.visibleRows (h : a.Fits) (body : Nat → Nat → T)
    (hlast : a.lastOf q ∈ a.queriesOf q) {rows : List BodyRow} (hs : rows.Pairwise BodyRow.Le) :
    a.visibleRows body q (a.lastOf q) rows = .ok (rows.filter (a.shown body q)) := by
  cases hv : a.visibleRows body q (a.lastOf q) rows with
  | ok rows' => rw [visibleRows_ok hs hv]
  | error e =>
    exfalso
    unfold BodyPlanArgs.visibleRows at hv
    split at hv
    · cases hv
    · next hw =>
      rw [unionSwaRows_eq _ hw, if_neg] at hv
      · cases hv
      · rw [any_eq_true]
        rintro ⟨i, hi, hne⟩
        obtain ⟨hlt, hq⟩ := mem_queriesOf.mp hi
        obtain ⟨hltl, hql⟩ := mem_queriesOf.mp hlast
        exact of_decide_eq_true hne (h.stream i hlt _ hltl (hq.trans hql.symm))

theorem Fits.planSeq (h : a.Fits) (body : Nat → Nat → T)
    (hi : i < a.ubatch.tokens.length) : ∃ d, a.planSeq body (a.seqOf i) = .ok d := by
  have hmem : i ∈ a.queriesOf (a.seqOf i) := mem_queriesOf.mpr ⟨hi, rfl⟩
  obtain ⟨hlast, -⟩ := lastOf_mem hmem
  have hget : (a.queriesOf (a.seqOf i)).getLast? = some (a.lastOf (a.seqOf i)) := by
    unfold lastOf
    rw [getLastD_eq_getLast?, getLast?_eq_getLast_of_ne_nil (ne_nil_of_mem hmem)]
    rfl
  unfold BodyPlanArgs.planSeq
  rw [hget]
  dsimp only
  rw [if_neg (Nat.not_lt.mpr (h.slots i hi))]
  split
  · exact ⟨_, rfl⟩
  rw [if_neg, h.visibleRows body hlast (sortRows_sorted _)]
  · dsimp only
    rw [if_neg]
    · exact ⟨_, rfl⟩
    · refine Nat.not_lt.mpr ((length_filter_le _ _).trans ?_)
      rw [length_insertionSort]
      exact (seqRows_length _ _).trans (h.arena _)
  · rw [any_eq_true]
    rintro ⟨r, hr, hgt⟩
    obtain ⟨hin, -, hf⟩ := mem_seqRows.mp hr
    have hflat := h.flat _ (mem_queriesOf.mp hlast).1
    have hgt' := of_decide_eq_true hgt
    have hlt := hin.1
    rw [Nat.add_mul, Nat.one_mul] at hflat
    omega

theorem mapM_total {α β ε : Type} {f : α → Except ε β} {l : List α}
    (h : ∀ x ∈ l, ∃ d, f x = .ok d) : ∃ ds, l.mapM f = .ok ds := by
  induction l with
  | nil => exact ⟨[], rfl⟩
  | cons x l ih =>
    obtain ⟨d, hd⟩ := h x mem_cons_self
    obtain ⟨ds, hds⟩ := ih fun y hy => h y (mem_cons_of_mem x hy)
    rw [mapM_cons, hd, hds]
    exact ⟨d :: ds, rfl⟩

theorem exists_query (h : q ∈ a.activeSeqs) : ∃ i < a.ubatch.tokens.length, a.seqOf i = q := by
  unfold activeSeqs at h
  rw [mem_insertionSort, mem_dedup] at h
  obtain ⟨t, ht, rfl⟩ := mem_map.mp h
  obtain ⟨i, hi, rfl⟩ := getElem_of_mem ht
  refine ⟨i, hi, ?_⟩
  show (a.ubatch.tokens.getD i _).seqId0 = _
  rw [getD_eq_getElem?_getD, getElem?_eq_getElem hi, Option.getD_some]

theorem Fits.plan (hf : a.Fits) (o : TailMaskOut T) : ∃ o' ds,
    a.tailMask.setInputKqMaskTailImpl o = .ok o' ∧ a.setInputTailBodyPlanImpl o'.body = .ok ds := by
  obtain ⟨s, hs⟩ := hf.tail.tailQueries (a.tailMask.clearExact o)
    (Nat.le_refl a.ubatch.tokens.length)
  obtain ⟨ds, hds⟩ := mapM_total (f := a.planSeq s.2.body) (l := a.activeSeqs) fun q hq => by
    obtain ⟨i, hi, rfl⟩ := exists_query hq
    exact hf.planSeq _ hi
  refine ⟨s.2, ds, ?_, hds⟩
  unfold TailMaskArgs.setInputKqMaskTailImpl
  rw [show a.tailMask.ubatch = a.ubatch from rfl, hs]
  rfl

/-- A complete plan without a window has no late row. -/
theorem notLate_of_plan {o o' : TailMaskOut T} {ds : List BodyDesc}
    (hm : o.body = a.mask.plainMask) (ht : a.tailMask.setInputKqMaskTailImpl o = .ok o')
    (hds : a.setInputTailBodyPlanImpl o'.body = .ok ds) (hpack : a.packBody = true)
    (hw : ¬ a.Windowed) (hc : ∀ d ∈ ds, a.Complete o'.body d) (hq : q ∈ a.activeSeqs)
    (hone : a.OneRow q) : a.NotLate q := by
  obtain ⟨d, hd, hplan⟩ := (mapM_ok hds).1 q hq
  obtain ⟨rows, hr⟩ := planSeq_packed hpack hplan
  exact notLate_of_complete hm ht hw hone ((complete_iff hplan hr).mp (hc d hd))

/-- The plan of the masks of a ubatch in order. With a window the descriptors are complete. Without
one they are if the last query of a sequence sees what the others see, which it does without ALiBi,
and takes no row from the tail that is late for one of them; and only then. -/
theorem bodyPlan_complete {T : Type} (a : BodyPlanArgs T) (ho : a.Ordered) (hp : a.Positions)
    (o : TailMaskOut T) (hm : o.body = a.mask.plainMask) :
    (a.Fits → ∃ o' ds, a.tailMask.setInputKqMaskTailImpl o = .ok o' ∧
      a.setInputTailBodyPlanImpl o'.body = .ok ds) ∧
    (a.alibi = false → a.swaType = .none → ∀ q, a.LastSees q) ∧
    ∀ o' ds, a.tailMask.setInputKqMaskTailImpl o = .ok o' →
      a.setInputTailBodyPlanImpl o'.body = .ok ds →
        ((a.Windowed ∨ ∀ q ∈ a.activeSeqs, a.LastSees q ∧ a.NotLate q) →
          ∀ d ∈ ds, a.Complete o'.body d) ∧
        (a.packBody = true → (∀ q, a.OneRow q) → (∀ d ∈ ds, a.Complete o'.body d) →
          a.Windowed ∨ ∀ q ∈ a.activeSeqs, a.NotLate q) := by
  refine ⟨fun hf => hf.plan o, fun ha hw => ho.lastSees ha hw, fun o' ds ht hds => ⟨?_, ?_⟩⟩
  · intro hcond d hd rows hr
    obtain ⟨q, hq, hplan⟩ := (mapM_ok hds).2 d hd
    refine (complete_iff hplan hr).mpr (fun c hin => ?_) rows hr
    by_cases hw : a.Windowed
    · exact shown_of_windowed hm ht hp hw hin _
    · obtain ⟨hs, hl⟩ := hcond.resolve_left hw q hq
      exact shown_of_last hm ht ho hw hin (planSeq_last hplan) hs hl _
  · intro hpack hone hcomp
    by_cases hw : a.Windowed
    · exact .inl hw
    · exact .inr fun q hq => notLate_of_plan hm ht hds hpack hw hcomp hq (hone q)

/-! ## A late row -/

/-- Three cells of sequence `0` at the positions `2`, `3` and `6`. -/
def lateCells : KvCells :=
  (((((KvCells.empty.resize 3).posSet 0 2).seqAdd 0 0).posSet 1 3).seqAdd 1 0).posSet 2 6
    |>.seqAdd 2 0

/-- Queries at the positions `3` and `6`; the row of cell `0` is in the tail at position `p`. -/
def lateArgs (p : Int) : BodyPlanArgs (Option Int) where
  tail := TailStore.runOps [.commit 0 ⟨0, 0, 1⟩ p 0 UINT32_MAX] TailStore.twoSeqs
  cells _ := lateCells
  generations _ := [1, 1, 1]
  seqToStream _ := 0
  ubatch := ⟨[⟨3, {}, [0]⟩, ⟨6, {}, [0]⟩], [0], false⟩
  nSwa := 0
  swaType := .none
  nKv := 3
  nKv_le := by decide
  nStream := 1
  attentionStride := 2
  arenaStride := 3
  packBody := true
  causalAttn := true
  alibi := false
  drop := none
  keep := some 0
  cast := some
  finite := Option.isSome
  finite_drop := Option.isSome_none

/-- The masks of these queries before the tail. -/
def lateRows (p : Int) : TailMaskOut (Option Int) where
  body := (lateArgs p).mask.plainMask
  exact _ _ := none
  read := none
  bodyRead := none
  biasRead := none

theorem lateArgs_posOf (p : Int) (hi : i < 2) : (lateArgs p).posOf i = 3 + 3 * i := by
  interval_cases i <;> rfl

theorem lateArgs_ordered (p : Int) : (lateArgs p).Ordered := by
  intro i j hij hj _
  have hj' : j < 2 := hj
  rw [lateArgs_posOf p hj', lateArgs_posOf p (hij.trans_lt hj')]
  exact ⟨by omega, fun h => (by cases h)⟩

theorem lateArgs_positions (p : Int) : (lateArgs p).Positions where
  query i hi := by
    have hi' : i < 2 := hi
    have hm : (INT32_MAX : Int) = 2147483647 := rfl
    rw [lateArgs_posOf p hi']
    omega
  cell x c hc := by
    have hpos : ((lateArgs p).cells x).pos c =
        if c = 2 then 6 else if c = 1 then 3 else if c = 0 then 2 else -1 := by
      show Function.update
        (Function.update (Function.update (fun _ => (-1 : Int)) 0 2) 1 3) 2 6 c = _
      simp only [Function.update_apply]
    have hne : ((lateArgs p).cells x).pos c ≠ -1 := by simpa [KvCells.isEmpty] using hc
    have hm : (INT32_MAX : Int) = 2147483647 := rfl
    rw [hpos] at hne ⊢
    split_ifs at hne ⊢ <;> omega

theorem lateArgs_reach (p : Int)
    (h : (TailStore.Op.apply TailStore.twoSeqs (.commit 0 ⟨0, 0, 1⟩ p 0 UINT32_MAX)).2 = .ok ()) :
    TailStore.sys.Reach (fun _ _ => True) (lateArgs p).tail :=
  TailStore.reach_runOps (.init TailStore.twoSeqs_init) ⟨rfl, h, trivial, trivial⟩

theorem lateArgs_fits {p : Int} (h : p = 2 ∨ p = 5) : (lateArgs p).Fits := by
  rcases h with rfl | rfl
  · exact ⟨⟨by decide, by decide, by decide⟩, by decide, by decide, by decide,
      fun _ => Nat.le_refl 3⟩
  · exact ⟨⟨by decide, by decide, by decide⟩, by decide, by decide, by decide,
      fun _ => Nat.le_refl 3⟩

/-- With the position of the cell the row of the tail is not late. -/
theorem lateArgs_complete : ∃ o' ds, (lateArgs 2).tailMask.setInputKqMaskTailImpl (lateRows 2) =
    .ok o' ∧ (lateArgs 2).setInputTailBodyPlanImpl o'.body = .ok ds ∧
      ∀ d ∈ ds, (lateArgs 2).Complete o'.body d := by
  obtain ⟨hf, hs, hc⟩ := bodyPlan_complete (lateArgs 2) (lateArgs_ordered 2) (lateArgs_positions 2)
    (lateRows 2) rfl
  obtain ⟨o', ds, ht, hds⟩ := hf (lateArgs_fits (.inl rfl))
  refine ⟨o', ds, ht, hds, (hc o' ds ht hds).1 (.inr fun q hq => ⟨hs rfl rfl q, ?_⟩)⟩
  rw [show (lateArgs 2).activeSeqs = [0] by decide, mem_singleton] at hq
  subst hq
  intro _ i hi p hp _
  have hpos : ∀ p ∈ (lateArgs 2).tailMask.chosen ((lateArgs 2).lastOf 0)
      ((lateArgs 2).mask.plainMask ((lateArgs 2).lastOf 0)), p.1.position = 2 := by decide
  rw [hpos p hp, lateArgs_posOf 2 (mem_queriesOf.mp hi).1]
  omega

/-- The row of cell `0` is in the tail at position `5`, after the first query, which sees the cell:
the last query takes it, and no descriptor lists it. -/
theorem lateArgs_incomplete : (lateArgs 5).Ordered ∧ (lateArgs 5).Positions ∧
    TailStore.sys.Reach (fun _ _ => True) (lateArgs 5).tail ∧
    ∃ o' ds, (lateArgs 5).tailMask.setInputKqMaskTailImpl (lateRows 5) = .ok o' ∧
      (lateArgs 5).setInputTailBodyPlanImpl o'.body = .ok ds ∧
        ¬ ∀ d ∈ ds, (lateArgs 5).Complete o'.body d := by
  refine ⟨lateArgs_ordered 5, lateArgs_positions 5, lateArgs_reach 5 rfl, ?_⟩
  obtain ⟨o', ds, ht, hds⟩ := (lateArgs_fits (.inr rfl)).plan (lateRows 5)
  refine ⟨o', ds, ht, hds, fun hc => ?_⟩
  have hl : (lateArgs 5).NotLate 0 := notLate_of_plan (o := lateRows 5) rfl ht hds rfl
    (fun h => h (.inl rfl)) hc (by decide) (by unfold OneRow; decide)
  have hmem : ((⟨⟨0, 0, 1⟩, 5, 0, 0⟩, 0) : TailEntry × Nat) ∈
      (lateArgs 5).tailMask.chosen ((lateArgs 5).lastOf 0)
        ((lateArgs 5).mask.plainMask ((lateArgs 5).lastOf 0)) := by decide
  have hle := hl rfl 0 (by decide) _ hmem (by unfold Sees; decide)
  exact absurd hle (by decide)

end BodyPlanArgs

end BeeLlama
