import BeeLlama.Kv.ReadPlan

/-!
# Rows of a saved state (`llama_kvarn_select_state_stage_cells`)

To save a sequence its cells are split: the cells of staged groups are rows of the stage, and of the
other groups the records are saved. The window of staged groups ends at the group of the highest
live cell; the caller can list the staged groups instead (not for a sliding window).

* `stageSlotOf_lt`, `stageRowOf_lt`: slots and rows stay inside the stage.
* `window_slots`: the groups of the window have different slots.
* `selectState_partition`: every cell is a row of the stage or in a saved record.
-/

namespace BeeLlama

open List Nat

/-- `llama_kvarn_state_stage_cell`. -/
structure StateStageCell where
  sourceCell : Nat
  stageRow : Nat
  deriving DecidableEq, Repr

/-- `stage_begin`: the first group of the window. -/
def stageBegin (liveCellMaxP1 tailGroups : Nat) : Nat :=
  let liveGroup := (liveCellMaxP1 - 1) / KVAR_N_GROUP
  if liveGroup ≥ tailGroups - 1 then liveGroup - (tailGroups - 1) else 0

/-- `staged`: the group is in the stage. -/
def stagedGroup (liveCellMaxP1 tailGroups : Nat) (swa : Bool) (stagedGroups : Option (List Nat))
    (group : Nat) : Bool :=
  let liveGroup := (liveCellMaxP1 - 1) / KVAR_N_GROUP
  let begin_ := stageBegin liveCellMaxP1 tailGroups
  if swa then decide (group ≥ begin_ ∧ group ≤ liveGroup)
  else
    match stagedGroups with
    | some groups => decide (group ∈ groups)
    | none => decide (group = 0 ∨ (group > 0 ∧ group ≥ begin_ ∧ group ≤ liveGroup))

/-- `slot`: the place of a staged group. -/
def stageSlotOf (stageGroups tailGroups : Nat) (swa : Bool) (group : Nat) : Nat :=
  if swa then group % stageGroups
  else if group = 0 then 0 else 1 + (group - 1) % tailGroups

/-- The loop over the source cells. -/
def selectStageFrom (liveCellMaxP1 stageGroups tailGroups : Nat) (swa : Bool)
    (stagedGroups : Option (List Nat)) : List Nat → Except String (List StateStageCell)
  | [] => .ok []
  | cell :: cells =>
    if cell ≥ liveCellMaxP1 then
      .error "KVarN state source cell exceeds the live stream extent"
    else
      let group := cell / KVAR_N_GROUP
      let pos := cell % KVAR_N_GROUP
      let rest := selectStageFrom liveCellMaxP1 stageGroups tailGroups swa stagedGroups cells
      if stagedGroup liveCellMaxP1 tailGroups swa stagedGroups group then
        let slot := stageSlotOf stageGroups tailGroups swa group
        rest.map (⟨cell, u32 (slot * KVAR_N_GROUP + pos)⟩ :: ·)
      else rest

/-- `llama_kvarn_select_state_stage_cells`. -/
def llamaKvarnSelectStateStageCells (sourceCells : List Nat)
    (liveCellMaxP1 stageGroups tailGroups : Nat) (swa : Bool)
    (stagedGroups : Option (List Nat)) : Except String (List StateStageCell) :=
  if liveCellMaxP1 = 0 then .ok []
  else if stageGroups < 2 ∨ tailGroups = 0 ∨ tailGroups > stageGroups ∨
      (swa = false ∧ tailGroups ≥ stageGroups) then
    .error "invalid KVarN state stage layout"
  else selectStageFrom liveCellMaxP1 stageGroups tailGroups swa stagedGroups sourceCells

/-- `sealed_groups.insert`, a sorted set. -/
def insertGroup (group : Nat) (groups : List Nat) : List Nat :=
  if group ∈ groups then groups else groups.orderedInsert (· ≤ ·) group

/-- The second loop of `llama_kvarn_select_state_record_groups`. -/
def selectRecordFrom (stagedGroups : List Nat) (groupsPerStream : Nat) :
    List Nat → List Nat → Except String (List Nat)
  | sealedGroups, [] => .ok sealedGroups
  | sealedGroups, cell :: cells =>
    let group := cell / KVAR_N_GROUP
    if group ≥ groupsPerStream then .error "KVarN state source cell exceeds the record arena"
    else selectRecordFrom stagedGroups groupsPerStream
      (if group ∈ stagedGroups then sealedGroups else insertGroup group sealedGroups) cells

/-- `llama_kvarn_select_state_record_groups`. -/
def llamaKvarnSelectStateRecordGroups (sourceCells : List Nat) (stageCells : List StateStageCell)
    (groupsPerStream : Nat) : Except String (List Nat) :=
  selectRecordFrom (stageCells.map fun cell => cell.sourceCell / KVAR_N_GROUP) groupsPerStream []
    sourceCells

/-- The layouts of the stage that the function takes. -/
structure ValidStageLayout (stageGroups tailGroups : Nat) (swa : Bool) : Prop where
  stage : 2 ≤ stageGroups
  tail_pos : 0 < tailGroups
  tail_le : tailGroups ≤ stageGroups
  tail_lt : swa = false → tailGroups < stageGroups

/-! ## Slots -/

section Slots

variable {live stageGroups tailGroups : Nat} {swa : Bool} {stagedGroups : Option (List Nat)}

theorem stageSlotOf_lt (h : ValidStageLayout stageGroups tailGroups swa) (group : Nat) :
    stageSlotOf stageGroups tailGroups swa group < stageGroups := by
  have hs := h.stage
  unfold stageSlotOf
  cases swa with
  | true => exact mod_lt _ (by omega)
  | false =>
    have hlt := h.tail_lt rfl
    have hmod := mod_lt (group - 1) h.tail_pos
    simp only [Bool.false_eq_true, if_false]
    split
    · omega
    · omega

theorem stageSlotOf_le (group : Nat) : stageSlotOf stageGroups tailGroups swa group ≤ group := by
  unfold stageSlotOf
  split
  · exact mod_le _ _
  · split
    · exact Nat.zero_le _
    · have := mod_le (group - 1) tailGroups
      omega

/-- The row of a cell in the stage. -/
def stageRowOf (stageGroups tailGroups : Nat) (swa : Bool) (cell : Nat) : Nat :=
  stageSlotOf stageGroups tailGroups swa (cell / KVAR_N_GROUP) * KVAR_N_GROUP + cell % KVAR_N_GROUP

/-- The code's row does not wrap around. -/
theorem stageRowOf_eq {cell : Nat} (hcell : cell < 2 ^ 32) :
    u32 (stageSlotOf stageGroups tailGroups swa (cell / KVAR_N_GROUP) * KVAR_N_GROUP +
      cell % KVAR_N_GROUP) = stageRowOf stageGroups tailGroups swa cell := by
  refine mod_eq_of_lt ?_
  have hle := Nat.mul_le_mul_right KVAR_N_GROUP
    (@stageSlotOf_le stageGroups tailGroups swa (cell / KVAR_N_GROUP))
  have := div_add_mod' cell KVAR_N_GROUP
  omega

theorem stageRowOf_lt (h : ValidStageLayout stageGroups tailGroups swa) (cell : Nat) :
    stageRowOf stageGroups tailGroups swa cell < stageGroups * KVAR_N_GROUP := by
  have hle := Nat.mul_le_mul_right KVAR_N_GROUP (stageSlotOf_lt h (cell / KVAR_N_GROUP))
  have := mod_lt cell (show 0 < KVAR_N_GROUP by decide)
  rw [succ_mul] at hle
  unfold stageRowOf
  omega

/-- The row tells the slot and the place in the group. -/
theorem stageRowOf_div (cell : Nat) : stageRowOf stageGroups tailGroups swa cell / KVAR_N_GROUP =
    stageSlotOf stageGroups tailGroups swa (cell / KVAR_N_GROUP) := by
  rw [stageRowOf, Nat.mul_comm, mul_add_div (by decide),
    div_eq_of_lt (mod_lt _ (by decide)), Nat.add_zero]

theorem stageRowOf_mod (cell : Nat) :
    stageRowOf stageGroups tailGroups swa cell % KVAR_N_GROUP = cell % KVAR_N_GROUP := by
  rw [stageRowOf, Nat.mul_comm, mul_add_mod, mod_mod]

/-- Without a list of the staged groups their slots are different. -/
theorem window_slots (h : ValidStageLayout stageGroups tailGroups swa) {g g' : Nat}
    (hg : stagedGroup live tailGroups swa none g = true)
    (hg' : stagedGroup live tailGroups swa none g' = true)
    (he : stageSlotOf stageGroups tailGroups swa g = stageSlotOf stageGroups tailGroups swa g') :
    g = g' := by
  wlog hle : g ≤ g' with hsym
  · exact (hsym h hg' hg he.symm (by omega)).symm
  have hpos := h.tail_pos
  have htail := h.tail_le
  have hwin : ∀ n, stageBegin live tailGroups ≤ n → n ≤ (live - 1) / KVAR_N_GROUP →
      n < stageBegin live tailGroups + tailGroups := by
    intro n h1 h2
    simp only [stageBegin] at h1 ⊢
    split
    · next hb => rw [if_pos hb] at h1; omega
    · next hb => omega
  cases swa with
  | true =>
    simp only [stagedGroup, if_true, decide_eq_true_iff] at hg hg'
    have hlt := hwin g' hg'.1 hg'.2
    by_contra hne
    have := Nat.ModEq.add_le_of_lt he (by omega)
    omega
  | false =>
    simp only [stagedGroup, Bool.false_eq_true, if_false, decide_eq_true_iff] at hg hg'
    simp only [stageSlotOf, Bool.false_eq_true, if_false] at he
    by_cases h0 : g = 0
    · rw [if_pos h0] at he
      split at he
      · omega
      · omega
    · rw [if_neg h0, if_neg (by omega)] at he
      have hlt := hwin g' (by omega) (by omega)
      have hmod : (g - 1) % tailGroups = (g' - 1) % tailGroups := by omega
      by_contra hne
      have := Nat.ModEq.add_le_of_lt hmod (by omega)
      omega

end Slots

/-! ## The two selections -/

section Select

variable {live stageGroups tailGroups : Nat} {swa : Bool} {stagedGroups : Option (List Nat)}
  {cells : List Nat}

/-- The cell is in a staged group. -/
def stagedCell (live tailGroups : Nat) (swa : Bool) (stagedGroups : Option (List Nat)) (c : Nat) :
    Bool :=
  stagedGroup live tailGroups swa stagedGroups (c / KVAR_N_GROUP)

/-- The staged cells in their order, each with its row. -/
def stageCellsOf (live stageGroups tailGroups : Nat) (swa : Bool)
    (stagedGroups : Option (List Nat)) (cells : List Nat) : List StateStageCell :=
  (cells.filter (stagedCell live tailGroups swa stagedGroups)).map fun c =>
    ⟨c, stageRowOf stageGroups tailGroups swa c⟩

theorem selectStageFrom_eq (h : ∀ c ∈ cells, c < live) (hlive : live < 2 ^ 32) :
    selectStageFrom live stageGroups tailGroups swa stagedGroups cells =
      .ok (stageCellsOf live stageGroups tailGroups swa stagedGroups cells) := by
  induction cells with
  | nil => rfl
  | cons c cells ih =>
    obtain ⟨hc, ht⟩ := forall_mem_cons.mp h
    have hrow := @stageRowOf_eq stageGroups tailGroups swa c (hc.trans hlive)
    rw [selectStageFrom, if_neg (Nat.not_le.mpr hc)]
    have hcell : stagedGroup live tailGroups swa stagedGroups (c / KVAR_N_GROUP) =
        stagedCell live tailGroups swa stagedGroups c := rfl
    simp only [ih ht, hrow, hcell]
    by_cases hs : stagedCell live tailGroups swa stagedGroups c = true
    · rw [if_pos hs, stageCellsOf, stageCellsOf, filter_cons_of_pos hs]
      rfl
    · rw [if_neg hs, stageCellsOf, stageCellsOf, filter_cons_of_neg hs]

/-- The selected cells, for a stage layout that the function takes. -/
theorem selectStage_eq (hlive : live < 2 ^ 32) (h : ∀ c ∈ cells, c < live)
    (hl : ValidStageLayout stageGroups tailGroups swa) :
    llamaKvarnSelectStateStageCells cells live stageGroups tailGroups swa stagedGroups =
      .ok (stageCellsOf live stageGroups tailGroups swa stagedGroups cells) := by
  unfold llamaKvarnSelectStateStageCells
  split
  · next h0 =>
    have hnil : cells = [] := eq_nil_iff_forall_not_mem.mpr fun c hc => by
      have := h c hc
      omega
    rw [hnil]
    rfl
  · rw [if_neg, selectStageFrom_eq h hlive]
    have h1 := hl.stage
    have h2 := hl.tail_pos
    have h3 := hl.tail_le
    rintro (h | h | h | ⟨hf, hge⟩)
    · omega
    · omega
    · omega
    · exact absurd (hl.tail_lt hf) (Nat.not_lt.mpr hge)

theorem insertGroup_sorted {g : Nat} {groups : List Nat} (h : groups.Pairwise (· < ·)) :
    (insertGroup g groups).Pairwise (· < ·) := by
  unfold insertGroup
  split
  · exact h
  · next hn =>
    have hle : (groups.orderedInsert (· ≤ ·) g).Pairwise (· ≤ ·) :=
      List.Pairwise.orderedInsert g groups (h.imp fun h => Nat.le_of_lt h)
    have hnd : (groups.orderedInsert (· ≤ ·) g).Nodup :=
      (perm_orderedInsert (· ≤ ·) g groups).nodup_iff.mpr
        (nodup_cons.mpr ⟨hn, h.imp fun h => Nat.ne_of_lt h⟩)
    exact List.Pairwise.imp₂ (fun _ _ h hne => Nat.lt_of_le_of_ne h hne) hle hnd

theorem mem_insertGroup {g x : Nat} {groups : List Nat} :
    x ∈ insertGroup g groups ↔ x = g ∨ x ∈ groups := by
  unfold insertGroup
  split
  · next hm => exact ⟨.inr, fun h => h.elim (fun he => he ▸ hm) id⟩
  · exact mem_orderedInsert _

/-- The groups of the cells that are not staged, in order. -/
theorem selectRecordFrom_spec {staged sealedGroups : List Nat} {groupsPerStream : Nat}
    (h : ∀ c ∈ cells, c / KVAR_N_GROUP < groupsPerStream)
    (hs : sealedGroups.Pairwise (· < ·)) :
    ∃ groups, selectRecordFrom staged groupsPerStream sealedGroups cells = .ok groups ∧
      groups.Pairwise (· < ·) ∧
      ∀ g, g ∈ groups ↔ g ∈ sealedGroups ∨ ∃ c ∈ cells, c / KVAR_N_GROUP = g ∧ g ∉ staged := by
  induction cells generalizing sealedGroups with
  | nil => exact ⟨sealedGroups, rfl, hs, fun g => by simp⟩
  | cons c cells ih =>
    obtain ⟨hc, ht⟩ := forall_mem_cons.mp h
    rw [selectRecordFrom, if_neg (Nat.not_le.mpr hc)]
    by_cases hm : c / KVAR_N_GROUP ∈ staged
    · obtain ⟨groups, hg, hsorted, hmem⟩ := ih ht hs
      refine ⟨groups, by rw [if_pos hm, hg], hsorted, fun g => ?_⟩
      rw [hmem, exists_mem_cons_iff]
      refine or_congr_right ⟨.inr, fun h => h.resolve_left ?_⟩
      rintro ⟨rfl, hn⟩
      exact hn hm
    · obtain ⟨groups, hg, hsorted, hmem⟩ := ih ht (insertGroup_sorted hs)
      refine ⟨groups, by rw [if_neg hm, hg], hsorted, fun g => ?_⟩
      rw [hmem, mem_insertGroup, exists_mem_cons_iff, @or_comm (g = _), or_assoc]
      refine or_congr_right (or_congr_left ⟨?_, fun h => h.1.symm⟩)
      rintro rfl
      exact ⟨rfl, hm⟩

end Select

/-! ## The partition -/

/-- Staged cells of the source with the same slot are in the same group. -/
def SlotsDistinct (sourceCells : List Nat) (liveCellMaxP1 stageGroups tailGroups : Nat)
    (swa : Bool) (stagedGroups : Option (List Nat)) : Prop :=
  ∀ c ∈ sourceCells, ∀ c' ∈ sourceCells,
    stagedGroup liveCellMaxP1 tailGroups swa stagedGroups (c / KVAR_N_GROUP) = true →
    stagedGroup liveCellMaxP1 tailGroups swa stagedGroups (c' / KVAR_N_GROUP) = true →
    stageSlotOf stageGroups tailGroups swa (c / KVAR_N_GROUP) =
      stageSlotOf stageGroups tailGroups swa (c' / KVAR_N_GROUP) →
    c / KVAR_N_GROUP = c' / KVAR_N_GROUP

/-- The rows are inside the stage and each is of one cell; the staged cells are cells of the source
in its order. -/
structure StageRows (sourceCells : List Nat) (stageGroups : Nat)
    (stageCells : List StateStageCell) : Prop where
  inj : ∀ a ∈ stageCells, ∀ b ∈ stageCells, a.stageRow = b.stageRow → a = b
  rows : sourceCells.Nodup → (stageCells.map StateStageCell.stageRow).Nodup
  lt : ∀ a ∈ stageCells, a.stageRow < stageGroups * KVAR_N_GROUP
  sub : (stageCells.map StateStageCell.sourceCell).Sublist sourceCells
  all : ∀ a ∈ stageCells, (stageCells.map StateStageCell.sourceCell).count a.sourceCell =
    sourceCells.count a.sourceCell

/-- A cell of the source is a row of the stage, or its group is saved as a record, and not both. -/
structure Partitioned (sourceCells : List Nat) (stageCells : List StateStageCell)
    (groups : List Nat) : Prop where
  sorted : groups.Pairwise (· < ·)
  source : ∀ g ∈ groups, ∃ c ∈ sourceCells, c / KVAR_N_GROUP = g
  covers : ∀ c ∈ sourceCells, c ∈ stageCells.map StateStageCell.sourceCell ∨
    c / KVAR_N_GROUP ∈ groups
  once : ∀ c ∈ sourceCells, ¬(c ∈ stageCells.map StateStageCell.sourceCell ∧
    c / KVAR_N_GROUP ∈ groups)

section Partition

variable {sourceCells : List Nat} {liveCellMaxP1 stageGroups tailGroups : Nat} {swa : Bool}
  {stagedGroups : Option (List Nat)}

theorem map_sourceCell : (stageCellsOf liveCellMaxP1 stageGroups tailGroups swa stagedGroups
      sourceCells).map StateStageCell.sourceCell =
    sourceCells.filter (stagedCell liveCellMaxP1 tailGroups swa stagedGroups) := by
  rw [stageCellsOf, map_map]
  exact map_id _

theorem mem_stageCellsOf {a : StateStageCell} :
    a ∈ stageCellsOf liveCellMaxP1 stageGroups tailGroups swa stagedGroups sourceCells ↔
      a.sourceCell ∈ sourceCells ∧
      stagedCell liveCellMaxP1 tailGroups swa stagedGroups a.sourceCell = true ∧
      a.stageRow = stageRowOf stageGroups tailGroups swa a.sourceCell := by
  rw [stageCellsOf, mem_map]
  constructor
  · rintro ⟨c, hc, rfl⟩
    obtain ⟨hm, hs⟩ := mem_filter.mp hc
    exact ⟨hm, hs, rfl⟩
  · rintro ⟨hm, hs, hr⟩
    exact ⟨a.sourceCell, mem_filter.mpr ⟨hm, hs⟩, by rw [← hr]⟩

/-- With different slots two staged cells of the source have different rows. -/
theorem SlotsDistinct.row_inj (h : SlotsDistinct sourceCells liveCellMaxP1 stageGroups tailGroups
      swa stagedGroups) {c c' : Nat} (hc : c ∈ sourceCells) (hc' : c' ∈ sourceCells)
    (hs : stagedCell liveCellMaxP1 tailGroups swa stagedGroups c = true)
    (hs' : stagedCell liveCellMaxP1 tailGroups swa stagedGroups c' = true)
    (he : stageRowOf stageGroups tailGroups swa c = stageRowOf stageGroups tailGroups swa c') :
    c = c' := by
  have hg := h c hc c' hc' hs hs' (by rw [← stageRowOf_div, he, stageRowOf_div])
  have hm : c % KVAR_N_GROUP = c' % KVAR_N_GROUP := by
    rw [← @stageRowOf_mod stageGroups tailGroups swa c, he, stageRowOf_mod]
  rw [← div_add_mod c KVAR_N_GROUP, hg, hm, div_add_mod]

theorem SlotsDistinct.stageRows (h : SlotsDistinct sourceCells liveCellMaxP1 stageGroups
      tailGroups swa stagedGroups) (hl : ValidStageLayout stageGroups tailGroups swa) :
    StageRows sourceCells stageGroups
      (stageCellsOf liveCellMaxP1 stageGroups tailGroups swa stagedGroups sourceCells) where
  inj a ha b hb he := by
    obtain ⟨hm, hs, hr⟩ := mem_stageCellsOf.mp ha
    obtain ⟨hm', hs', hr'⟩ := mem_stageCellsOf.mp hb
    rw [hr, hr'] at he
    have hc := h.row_inj hm hm' hs hs' he
    cases a
    cases b
    simp_all
  rows hnd := by
    rw [stageCellsOf, map_map]
    refine (List.Nodup.filter _ hnd).map_on fun c hc c' hc' he => ?_
    obtain ⟨hm, hs⟩ := mem_filter.mp hc
    obtain ⟨hm', hs'⟩ := mem_filter.mp hc'
    exact h.row_inj hm hm' hs hs' he
  lt a ha := by
    rw [(mem_stageCellsOf.mp ha).2.2]
    exact stageRowOf_lt hl _
  sub := by
    rw [map_sourceCell]
    exact filter_sublist
  all a ha := by
    rw [map_sourceCell]
    exact count_filter (mem_stageCellsOf.mp ha).2.1

/-- The records are of the groups that are not staged. -/
theorem selectRecord_partitioned {groupsPerStream : Nat}
    (h : ∀ c ∈ sourceCells, c / KVAR_N_GROUP < groupsPerStream) :
    ∃ groups, llamaKvarnSelectStateRecordGroups sourceCells
        (stageCellsOf liveCellMaxP1 stageGroups tailGroups swa stagedGroups sourceCells)
        groupsPerStream = .ok groups ∧
      Partitioned sourceCells
        (stageCellsOf liveCellMaxP1 stageGroups tailGroups swa stagedGroups sourceCells)
        groups := by
  obtain ⟨groups, hg, hsorted, hmem⟩ := @selectRecordFrom_spec sourceCells
    ((stageCellsOf liveCellMaxP1 stageGroups tailGroups swa stagedGroups sourceCells).map
      fun cell => cell.sourceCell / KVAR_N_GROUP) [] groupsPerStream h List.Pairwise.nil
  -- whether a cell is staged depends on its group only
  have hstaged : ∀ c ∈ sourceCells, c / KVAR_N_GROUP ∈
      (stageCellsOf liveCellMaxP1 stageGroups tailGroups swa stagedGroups sourceCells).map
        (fun cell => cell.sourceCell / KVAR_N_GROUP) ↔
      stagedCell liveCellMaxP1 tailGroups swa stagedGroups c = true := by
    intro c hc
    rw [mem_map]
    constructor
    · rintro ⟨a, ha, he⟩
      rw [stagedCell, ← he]
      exact (mem_stageCellsOf.mp ha).2.1
    · exact fun hs => ⟨⟨c, stageRowOf stageGroups tailGroups swa c⟩,
        mem_stageCellsOf.mpr ⟨hc, hs, rfl⟩, rfl⟩
  have hcell : ∀ c ∈ sourceCells, c / KVAR_N_GROUP ∈ groups ↔
      ¬stagedCell liveCellMaxP1 tailGroups swa stagedGroups c = true := by
    intro c hc
    rw [hmem, ← hstaged c hc]
    exact ⟨fun h => (h.resolve_left not_mem_nil).elim fun _ h => h.2.2,
      fun h => .inr ⟨c, hc, rfl, h⟩⟩
  refine ⟨groups, hg, hsorted, fun g hgm => ?_, fun c hc => ?_, fun c hc => ?_⟩
  · obtain ⟨c, hc, he, -⟩ := ((hmem g).mp hgm).resolve_left not_mem_nil
    exact ⟨c, hc, he⟩
  · rw [map_sourceCell, mem_filter, hcell c hc]
    by_cases hs : stagedCell liveCellMaxP1 tailGroups swa stagedGroups c = true
    · exact .inl ⟨hc, hs⟩
    · exact .inr hs
  · rw [map_sourceCell, mem_filter, hcell c hc]
    exact fun h => h.2 h.1.2

/-- Without a list of the staged groups the slots are different. -/
theorem slotsDistinct_window (hl : ValidStageLayout stageGroups tailGroups swa) :
    SlotsDistinct sourceCells liveCellMaxP1 stageGroups tailGroups swa none :=
  fun _ _ _ _ hs hs' he => window_slots hl hs hs' he

end Partition

/-- The rows of the stage and the records split the cells of the source. -/
theorem selectState_partition {sourceCells : List Nat} {liveCellMaxP1 stageGroups tailGroups : Nat}
    {swa : Bool} {stagedGroups : Option (List Nat)} (hlive : liveCellMaxP1 < 2 ^ 32)
    (hcells : ∀ c ∈ sourceCells, c < liveCellMaxP1)
    (hlayout : ValidStageLayout stageGroups tailGroups swa)
    (hslots : SlotsDistinct sourceCells liveCellMaxP1 stageGroups tailGroups swa stagedGroups) :
    ∃ stageCells, llamaKvarnSelectStateStageCells sourceCells liveCellMaxP1 stageGroups tailGroups
        swa stagedGroups = .ok stageCells ∧
      StageRows sourceCells stageGroups stageCells ∧
      ∀ groupsPerStream, (∀ c ∈ sourceCells, c / KVAR_N_GROUP < groupsPerStream) →
        ∃ groups, llamaKvarnSelectStateRecordGroups sourceCells stageCells groupsPerStream =
            .ok groups ∧
          Partitioned sourceCells stageCells groups :=
  ⟨_, selectStage_eq hlive hcells hlayout, hslots.stageRows hlayout,
    fun _ hgroups => selectRecord_partitioned hgroups⟩

/-- Group `0` and the newest of five groups are staged, the others are saved as records. -/
theorem selectState_partition_small :
    ∃ stageCells, llamaKvarnSelectStateStageCells [0, 130, 400, 513] 514 3 2 false none =
        .ok stageCells ∧
      StageRows [0, 130, 400, 513] 3 stageCells ∧
      ∀ groupsPerStream, (∀ c ∈ [0, 130, 400, 513], c / KVAR_N_GROUP < groupsPerStream) →
        ∃ groups, llamaKvarnSelectStateRecordGroups [0, 130, 400, 513] stageCells
            groupsPerStream = .ok groups ∧
          Partitioned [0, 130, 400, 513] stageCells groups :=
  have hl : ValidStageLayout 3 2 false := ⟨by decide, by decide, by decide, fun _ => by decide⟩
  selectState_partition (by decide) (by decide) hl (slotsDistinct_window hl)

end BeeLlama
