import Mathlib.Data.List.DropRight
import BeeLlama.Kv.Mask
import BeeLlama.Kv.TailRun

/-!
# The mask of the exact tail (`set_input_kq_mask_tail`)

The rows of the newest cells of a sequence are in the exact tail. For each query the code moves the
mask values of the newest visible entries of the tail from the body row to the exact row, where the
column of an entry is its number among the candidates of the sequence (`considered`). Adjacent
entries move together (`CopyRun`).

* `selectMaskedEntries_eq`: the selection is the newest `retention` of the visible entries.
* `foldl_applyRun`: the runs move what the entries move one by one.
* `reach_tailMask_split`: every finite value of the body row stays, or moves to one column of the
  exact row; nothing else is visible.
-/

namespace BeeLlama

open List Function TailStore

namespace TailStore

/-- `source_candidates`: in a compact batch the newest committed entries and the rows of the batch,
sorted; else the entries. -/
def sourceCandidates (st : TailStore) (seqId : Int) : List TailEntry :=
  if !st.validSeq seqId then []
  else
    match st.batchTransaction with
    | none => (st.seqs seqId.toNat).entries.map (·.toTailEntry)
    | some b =>
      let committed := (b.saved seqId.toNat).entries.map (·.toTailEntry)
      let first :=
        if committed.length > st.cfg.nTokens then committed.length - st.cfg.nTokens else 0
      (committed.drop first ++ b.current seqId.toNat).insertionSort TailEntry.Le

/-- The candidates are in the order of position and insertion. -/
theorem Inv.sourceCandidates_sorted {st : TailStore} (h : st.Inv) (seqId : Int) :
    (st.sourceCandidates seqId).Pairwise TailEntry.Le := by
  unfold sourceCandidates
  split
  · exact List.Pairwise.nil
  · next hv =>
    split
    · rw [pairwise_map]
      exact (h.seq _ (validSeq_iff.mp (by simpa using hv)).2).sorted
    · have : Std.Total TailEntry.Le := ⟨fun _ _ => TailEntry.Le.total _ _⟩
      have : IsTrans TailEntry TailEntry.Le := ⟨fun _ _ _ => TailEntry.Le.trans⟩
      exact pairwise_insertionSort _ _

end TailStore

/-- `llama_kv_tail_mask_entry`. -/
structure MaskEntry where
  exact : Nat
  cell : Nat
  position : Int
  deriving DecidableEq, Repr

/-- `exact_entry`. -/
structure ExactEntry where
  mask : MaskEntry
  slot : Int
  bodyRow : Nat
  deriving DecidableEq, Repr

/-- `copy_run`. -/
structure CopyRun where
  exact : Nat
  stream : Nat
  cell : Nat
  length : Nat
  deriving DecidableEq, Repr

/-- What the planner throws, and `abort` for a failed `GGML_ASSERT`. -/
inductive TailMaskError where
  | sizesDiffer
  | abort
  deriving DecidableEq, Repr

/-- The text of the exception. -/
def TailMaskError.what : TailMaskError → String
  | .sizesDiffer => "KV tail candidate and mask sizes differ"
  | .abort => ""

/-! ## The selection -/

/-- The test of the loop of `llama_kv_tail_select_masked_entries`. -/
def selectable (entries : List MaskEntry) (finite : List Bool) (queryPosition : Int)
    (causalAttn : Bool) (i : Nat) : Bool :=
  finite.getD i false &&
    !(causalAttn && (entries[i]?).any fun e => decide (e.position > queryPosition))

/-- `llama_kv_tail_select_masked_entries`: from the last entry on, until `retention` are selected.
-/
def selectMaskedEntries (entries : List MaskEntry) (finite : List Bool) (queryPosition : Int)
    (retention : Nat) (causalAttn : Bool) : Except TailMaskError (List Nat) :=
  if entries.length ≠ finite.length then .error .sizesDiffer
  else
    .ok ((List.range entries.length).reverse.foldl
      (fun selected i =>
        if selected.length < retention ∧ selectable entries finite queryPosition causalAttn i then
          selected ++ [i]
        else selected) []).reverse

section Newest

variable {α : Type}

theorem take_filter {p : α → Bool} {l : List α} : ∀ {n : Nat}, (∀ x ∈ l.take n, p x = true) →
    (l.filter p).take n = l.take n := by
  induction l with
  | nil => exact fun _ => rfl
  | cons x l ih =>
    intro n h
    cases n with
    | zero => rfl
    | succ n =>
      rw [take_succ_cons] at h ⊢
      rw [filter_cons_of_pos (h x mem_cons_self), take_succ_cons,
        ih fun y hy => h y (mem_cons_of_mem x hy)]

/-- If the newest items have the property, they are the newest ones with the property. -/
theorem rtake_filter {p : α → Bool} {l : List α} {n : Nat} (h : ∀ x ∈ l.rtake n, p x = true) :
    (l.filter p).rtake n = ((l.rtake n).filter p).rtake n := by
  have h' : ∀ x ∈ l.reverse.take n, p x = true := fun x hx =>
    h x (by rw [rtake_eq_reverse_take_reverse]; exact mem_reverse.mpr hx)
  rw [filter_eq_self.mpr h]
  simp only [rtake_eq_reverse_take_reverse, reverse_reverse, take_take, min_self]
  rw [← filter_reverse, take_filter h']

theorem rtake_map {β : Type} (f : α → β) (l : List α) (n : Nat) :
    (l.map f).rtake n = (l.rtake n).map f := by
  unfold List.rtake
  rw [length_map, map_drop]

theorem rtake_sublist (l : List α) (n : Nat) : (l.rtake n).Sublist l := drop_sublist _ _

theorem rtake_length (l : List α) (n : Nat) : (l.rtake n).length = min n l.length := by
  unfold List.rtake
  rw [length_drop]
  omega

/-- A loop that appends what passes the test until there are `n` items. -/
theorem foldl_select (ok : α → Bool) (n : Nat) (l : List α) :
    l.foldl (fun sel x => if sel.length < n ∧ ok x then sel ++ [x] else sel) [] =
      (l.filter ok).take n := by
  have key : ∀ sel : List α, sel.length ≤ n →
      l.foldl (fun sel x => if sel.length < n ∧ ok x then sel ++ [x] else sel) sel =
        sel ++ (l.filter ok).take (n - sel.length) := by
    induction l with
    | nil =>
      intro sel _
      simp
    | cons x l ih =>
      intro sel hsel
      rw [foldl_cons]
      by_cases hx : ok x = true
      · rw [filter_cons_of_pos hx]
        by_cases hlt : sel.length < n
        · obtain ⟨m, hm⟩ : ∃ m, n - sel.length = m + 1 := ⟨n - sel.length - 1, by omega⟩
          have hm' : n - (sel ++ [x]).length = m := by
            rw [length_append, length_singleton]
            omega
          rw [if_pos ⟨hlt, hx⟩, ih _ (by rw [length_append, length_singleton]; omega),
            hm, hm', take_succ_cons, append_assoc, singleton_append]
        · rw [if_neg (fun h => hlt h.1), ih _ hsel, Nat.sub_eq_zero_of_le (Nat.not_lt.mp hlt),
            take_zero, take_zero]
      · rw [if_neg (fun h => hx h.2), ih _ hsel, filter_cons_of_neg hx]
  have := key [] (Nat.zero_le n)
  rwa [nil_append, length_nil, Nat.sub_zero] at this

end Newest

/-- The selection is the newest `retention` of the selectable entries, in ascending order. -/
theorem selectMaskedEntries_eq {entries : List MaskEntry} {finite : List Bool} {queryPosition : Int}
    {retention : Nat} {causalAttn : Bool} (h : entries.length = finite.length) :
    selectMaskedEntries entries finite queryPosition retention causalAttn =
      .ok (((List.range entries.length).filter
        (selectable entries finite queryPosition causalAttn)).rtake retention) := by
  unfold selectMaskedEntries
  rw [if_neg (not_not_intro h), foldl_select, filter_reverse, rtake_eq_reverse_take_reverse]

/-- The items at the selected indexes. -/
theorem map_filter_range {α : Type} (l : List α) (d : α) {p : α → Bool} {ok : Nat → Bool}
    (hok : ∀ i < l.length, ok i = p (l.getD i d)) :
    ((List.range l.length).filter ok).map (l.getD · d) = l.filter p := by
  have hl : (List.range l.length).map (l.getD · d) = l := by
    refine ext_getElem (by simp) fun i h1 h2 => ?_
    rw [getElem_map, getElem_range, getD_eq_getElem?_getD, getElem?_eq_getElem h2, Option.getD_some]
  conv_rhs => rw [← hl, filter_map]
  congr 1
  exact filter_congr fun i hi => hok i (mem_range.mp hi)

/-! ## Runs -/

section Runs

variable {T : Type} (drop : T)

/-- The mask values of a body row and of an exact row. -/
abbrev MaskRows (T : Type) := (Nat → T) × (Nat → T)

/-- The value of one entry moves from the body row to the exact row. -/
def moveEntry (r : MaskRows T) (e : MaskEntry) : MaskRows T :=
  (Function.update r.1 e.cell drop, Function.update r.2 e.exact (r.1 e.cell))

/-- The `memcpy` and the `fill_n` of a run. -/
def applyRun (r : MaskRows T) (run : CopyRun) : MaskRows T :=
  (fun c => if run.cell ≤ c ∧ c < run.cell + run.length then drop else r.1 c,
    fun k => if run.exact ≤ k ∧ k < run.exact + run.length then r.1 (run.cell + (k - run.exact))
      else r.2 k)

/-- The loop that collects the runs: an entry after the last run, in both rows, makes it longer. -/
def addToRuns (stream : Nat) (runs : List CopyRun) (e : MaskEntry) : List CopyRun :=
  match runs.getLast? with
  | some run =>
    if run.exact + run.length = e.exact ∧ run.stream = stream ∧ run.cell + run.length = e.cell then
      runs.dropLast ++ [{ run with length := run.length + 1 }]
    else runs ++ [⟨e.exact, stream, e.cell, 1⟩]
  | none => runs ++ [⟨e.exact, stream, e.cell, 1⟩]

theorem applyRun_one (r : MaskRows T) (e : MaskEntry) (stream : Nat) :
    applyRun drop r ⟨e.exact, stream, e.cell, 1⟩ = moveEntry drop r e := by
  refine Prod.ext (funext fun c => ?_) (funext fun k => ?_)
  · show (if e.cell ≤ c ∧ c < e.cell + 1 then drop else r.1 c) = Function.update r.1 e.cell drop c
    rw [update_apply]
    exact if_congr (by omega) rfl rfl
  · show (if e.exact ≤ k ∧ k < e.exact + 1 then r.1 (e.cell + (k - e.exact)) else r.2 k) =
      Function.update r.2 e.exact (r.1 e.cell) k
    rw [update_apply]
    by_cases hk : k = e.exact
    · rw [if_pos (by omega), if_pos hk, hk, Nat.sub_self, Nat.add_zero]
    · rw [if_neg (by omega), if_neg hk]

theorem applyRun_succ (r : MaskRows T) (run : CopyRun) {e : MaskEntry}
    (he : run.exact + run.length = e.exact) (hc : run.cell + run.length = e.cell) :
    applyRun drop r { run with length := run.length + 1 } =
      moveEntry drop (applyRun drop r run) e := by
  refine Prod.ext (funext fun c => ?_) (funext fun k => ?_)
  · show (if run.cell ≤ c ∧ c < run.cell + (run.length + 1) then drop else r.1 c) =
      Function.update (fun c => if run.cell ≤ c ∧ c < run.cell + run.length then drop else r.1 c)
        e.cell drop c
    rw [update_apply]
    by_cases h : c = e.cell
    · rw [if_pos (by omega), if_pos h]
    · rw [if_neg h]
      exact if_congr (by omega) rfl rfl
  · show (if run.exact ≤ k ∧ k < run.exact + (run.length + 1) then
        r.1 (run.cell + (k - run.exact)) else r.2 k) =
      Function.update (fun k => if run.exact ≤ k ∧ k < run.exact + run.length then
        r.1 (run.cell + (k - run.exact)) else r.2 k) e.exact
        (if run.cell ≤ e.cell ∧ e.cell < run.cell + run.length then drop else r.1 e.cell) k
    rw [update_apply]
    by_cases h : k = e.exact
    · have hcell : run.cell + (k - run.exact) = e.cell := by omega
      rw [if_pos (by omega), if_pos h, if_neg (by omega), hcell]
    · rw [if_neg h]
      exact if_congr (by omega) rfl rfl

theorem foldl_addToRuns (stream : Nat) (runs : List CopyRun) (e : MaskEntry) (r : MaskRows T) :
    (addToRuns stream runs e).foldl (applyRun drop) r =
      moveEntry drop (runs.foldl (applyRun drop) r) e := by
  unfold addToRuns
  cases h : runs.getLast? with
  | none =>
    rw [foldl_append, foldl_cons, foldl_nil, applyRun_one]
  | some run =>
    dsimp only
    split
    · next hrun =>
      obtain ⟨rest, rfl⟩ := getLast?_eq_some_iff.mp h
      rw [dropLast_concat, foldl_append, foldl_append, foldl_cons,
        foldl_nil, foldl_cons, foldl_nil, applyRun_succ drop _ run hrun.1 hrun.2.2]
    · rw [foldl_append, foldl_cons, foldl_nil, applyRun_one]

/-- The runs move what the entries move one by one. -/
theorem foldl_applyRun (stream : Nat) (es : List MaskEntry) (r : MaskRows T) :
    (es.foldl (addToRuns stream) []).foldl (applyRun drop) r = es.foldl (moveEntry drop) r := by
  have key : ∀ (es : List MaskEntry) (runs : List CopyRun),
      (es.foldl (addToRuns stream) runs).foldl (applyRun drop) r =
        es.foldl (moveEntry drop) (runs.foldl (applyRun drop) r) := by
    intro es
    induction es with
    | nil => exact fun _ => rfl
    | cons e es ih =>
      intro runs
      rw [foldl_cons, ih, foldl_addToRuns, foldl_cons]
  exact key es []

/-- A run stays inside the two rows. -/
def CopyRun.Fits (stride nKv : Nat) (run : CopyRun) : Prop :=
  run.exact + run.length ≤ stride ∧ run.cell + run.length ≤ nKv

instance (stride nKv : Nat) (run : CopyRun) : Decidable (run.Fits stride nKv) :=
  inferInstanceAs (Decidable (_ ∧ _))

theorem runs_fit {stride nKv : Nat} (stream : Nat) {es : List MaskEntry}
    (h : ∀ e ∈ es, e.exact < stride ∧ e.cell < nKv) :
    ∀ run ∈ es.foldl (addToRuns stream) [], run.Fits stride nKv := by
  have key : ∀ (es : List MaskEntry) (runs : List CopyRun),
      (∀ e ∈ es, e.exact < stride ∧ e.cell < nKv) → (∀ run ∈ runs, run.Fits stride nKv) →
        ∀ run ∈ es.foldl (addToRuns stream) runs, run.Fits stride nKv := by
    intro es
    induction es with
    | nil => exact fun _ _ h => h
    | cons e es ih =>
      intro runs he hr
      refine ih _ (fun e' h' => he e' (mem_cons_of_mem e h')) fun run hrun => ?_
      obtain ⟨he1, he2⟩ := he e mem_cons_self
      have hnew : CopyRun.Fits stride nKv ⟨e.exact, stream, e.cell, 1⟩ := ⟨he1, he2⟩
      unfold addToRuns at hrun
      cases hl : runs.getLast? with
      | none =>
        rw [hl] at hrun
        rcases mem_append.mp hrun with hrun | hrun
        · exact hr run hrun
        · rw [mem_singleton.mp hrun]
          exact hnew
      | some last =>
        rw [hl] at hrun
        dsimp only at hrun
        split at hrun
        · next hext =>
          rcases mem_append.mp hrun with hrun | hrun
          · exact hr run (dropLast_subset _ hrun)
          · rw [mem_singleton.mp hrun]
            refine ⟨?_, ?_⟩
            · show last.exact + (last.length + 1) ≤ stride
              omega
            · show last.cell + (last.length + 1) ≤ nKv
              omega
        · rcases mem_append.mp hrun with hrun | hrun
          · exact hr run hrun
          · rw [mem_singleton.mp hrun]
            exact hnew
  exact key es [] h fun _ h => absurd h not_mem_nil

/-! ### What the moves leave -/

variable {drop}

theorem foldl_move_body (es : List MaskEntry) (r : MaskRows T) (c : Nat) :
    (es.foldl (moveEntry drop) r).1 c = if c ∈ es.map (·.cell) then drop else r.1 c := by
  induction es generalizing r with
  | nil => rfl
  | cons e es ih =>
    rw [foldl_cons, ih]
    show (if _ then _ else Function.update r.1 e.cell drop c) = _
    rw [update_apply, map_cons]
    by_cases h : c ∈ es.map (·.cell)
    · rw [if_pos h, if_pos (mem_cons_of_mem _ h)]
    · rw [if_neg h]
      refine if_congr ?_ rfl rfl
      rw [mem_cons]
      exact ⟨.inl, fun h' => h'.resolve_right h⟩

theorem foldl_move_exact_of_notMem {es : List MaskEntry} {k : Nat} (h : k ∉ es.map (·.exact))
    (r : MaskRows T) : (es.foldl (moveEntry drop) r).2 k = r.2 k := by
  induction es generalizing r with
  | nil => rfl
  | cons e es ih =>
    rw [map_cons, mem_cons, not_or] at h
    rw [foldl_cons, ih h.2]
    exact update_of_ne h.1 _ _

/-- The column of an entry gets the value of its cell, unless an entry before it has the cell. -/
theorem foldl_move_exact {l₁ l₂ : List MaskEntry} {e : MaskEntry}
    (hn : e.exact ∉ l₂.map (·.exact)) (r : MaskRows T) :
    ((l₁ ++ e :: l₂).foldl (moveEntry drop) r).2 e.exact =
      if e.cell ∈ l₁.map (·.cell) then drop else r.1 e.cell := by
  rw [foldl_append, foldl_cons, foldl_move_exact_of_notMem hn]
  show Function.update _ e.exact _ e.exact = _
  rw [update_self, foldl_move_body]

end Runs

/-! ## The planner -/

/-- The arguments of `set_input_kq_mask_tail_impl`. -/
structure TailMaskArgs (T : Type) where
  tail : TailStore
  /-- `generations`, by stream and cell. -/
  generations : Nat → List Nat
  seqToStream : Nat → Nat
  ubatch : Ubatch
  nKv : Nat
  attentionStride : Nat
  causalAttn : Bool
  /-- `physical_to_read`: the column of a cell, negative for none. -/
  physicalToRead : Option (Nat → Int)
  /-- The cast of `-INFINITY`. -/
  drop : T
  /-- `kv_tail_mask_finite`. -/
  finite : T → Bool
  finite_drop : finite drop = false

/-- The tensors that `set_input_kq_mask_tail_impl` writes, by row and column. -/
structure TailMaskOut (T : Type) where
  body : Nat → Nat → T
  exact : Nat → Nat → T
  read : Option (Nat → Nat → Int)
  bodyRead : Option (Nat → Nat → Int)
  biasRead : Option (Nat → Nat → Int)

namespace TailMaskArgs

variable {T : Type} (a : TailMaskArgs T)

/-- `tail.retention()`. -/
def retention : Nat := a.tail.cfg.nTokens

/-- Token `i` of the ubatch. -/
def token (i : Nat) : UToken := a.ubatch.tokens.getD i ⟨0, {}, []⟩

/-- The sequence of query `i`. -/
def seqOf (i : Nat) : Nat := (a.token i).seqId0

/-- `query_count_by_seq`. -/
def queryCount (q : Nat) : Nat := a.ubatch.tokens.countP fun t => t.seqId0 = q

/-- The candidates from `first` on: the newest `retention` for the only query of a sequence. -/
def considered (q : Nat) : List TailEntry :=
  let candidates := a.tail.sourceCandidates q
  let first := if a.queryCount q = 1 ∧ candidates.length > a.retention then
      candidates.length - min a.retention candidates.length
    else 0
  candidates.drop first

/-- The identity of the candidate is the present one of its cell. -/
def Current (q : Nat) (e : TailEntry) : Prop :=
  e.identity.stream = a.seqToStream q ∧
    (a.generations (a.seqToStream q))[e.identity.cell]? = some e.identity.generation

instance (q : Nat) (e : TailEntry) : Decidable (a.Current q e) :=
  inferInstanceAs (Decidable (_ ∧ _))

/-- `read_cell`: the column of the cell in the body row, if it has one. -/
def readCell (cell : Nat) : Option Nat :=
  let readCell := match a.physicalToRead with
    | some f => f cell
    | none => (cell : Int)
  if readCell < 0 ∨ a.nKv ≤ readCell.toNat then none else some readCell.toNat

/-- The entry of the plan for candidate number `p.2`. -/
def planEntry (q : Nat) (p : TailEntry × Nat) : Option ExactEntry :=
  if a.Current q p.1 then
    (a.readCell p.1.identity.cell).map fun c =>
      ⟨⟨p.2, c, p.1.position⟩, p.1.slot, a.seqToStream q * a.nKv + c⟩
  else none

/-- The entries of `sequence_plan`. -/
def planEntries (q : Nat) : List ExactEntry := (a.considered q).zipIdx.filterMap (a.planEntry q)

/-- A new `sequence_plan`. -/
def makePlan (q : Nat) : Except TailMaskError (List ExactEntry) :=
  if a.attentionStride < (a.considered q).length then .error .abort
  else if (a.planEntries q).any fun e => decide (e.bodyRow > INT32_MAX) then .error .abort
  else .ok (a.planEntries q)

/-- A value is written for each chosen entry, if the tensor is there. -/
def writeReads (i : Nat) (chosen : List ExactEntry) (f : ExactEntry → Int)
    (r : Option (Nat → Nat → Int)) : Option (Nat → Nat → Int) :=
  r.map fun d => Function.update d i
    (chosen.foldl (fun row e => Function.update row e.mask.exact (f e)) (d i))

/-- The loop over the queries: one row, with the plan of its sequence. -/
def tailRow (i : Nat) (plan : List ExactEntry) (o : TailMaskOut T) :
    Except TailMaskError (TailMaskOut T) :=
  match selectMaskedEntries (plan.map (·.mask)) (plan.map fun e => a.finite (o.body i e.mask.cell))
      (a.token i).pos a.retention a.causalAttn with
  | .error e => .error e
  | .ok selected =>
    let chosen := selected.map fun j => plan.getD j ⟨⟨0, 0, 0⟩, 0, 0⟩
    let runs := (chosen.map (·.mask)).foldl (addToRuns (a.seqToStream (a.seqOf i))) []
    if a.retention < selected.length then .error .abort
    else if !runs.all fun run => decide (run.Fits a.attentionStride a.nKv) then .error .abort
    else if (o.read.isSome || o.bodyRead.isSome || o.biasRead.isSome) &&
        chosen.any fun e => decide (i * a.nKv + e.mask.cell > INT32_MAX) then .error .abort
    else
      let r := runs.foldl (applyRun a.drop) (o.body i, o.exact i)
      .ok
        { body := Function.update o.body i r.1
          exact := Function.update o.exact i r.2
          read := writeReads i chosen (·.slot) o.read
          bodyRead := writeReads i chosen (fun e => e.bodyRow) o.bodyRead
          biasRead := writeReads i chosen (fun e => (i * a.nKv + e.mask.cell : Nat)) o.biasRead }

/-- `plans_by_seq`. -/
abbrev Plans := Nat → Option (List ExactEntry)

/-- One query: the plan of its sequence is made once. -/
def tailQuery (i : Nat) (s : Plans × TailMaskOut T) :
    Except TailMaskError (Plans × TailMaskOut T) :=
  let q := a.seqOf i
  match s.1 q with
  | some plan => (a.tailRow i plan s.2).map fun o => (s.1, o)
  | none =>
    match a.makePlan q with
    | .error e => .error e
    | .ok plan => (a.tailRow i plan s.2).map fun o => (Function.update s.1 q (some plan), o)

/-- The loop over the first `n` queries. -/
def tailQueries (a : TailMaskArgs T) (o : TailMaskOut T) :
    Nat → Except TailMaskError (Plans × TailMaskOut T)
  | 0 => .ok (fun _ => none, o)
  | n + 1 =>
    match tailQueries a o n with
    | .error e => .error e
    | .ok s => a.tailQuery n s

/-- The `std::fill` calls before the loop. -/
def clearExact (o : TailMaskOut T) : TailMaskOut T :=
  { body := o.body
    exact := fun _ _ => a.drop
    read := o.read.map fun _ _ _ => 0
    bodyRead := o.bodyRead.map fun _ _ _ => 0
    biasRead := o.biasRead.map fun _ _ _ => 0 }

/-- `set_input_kq_mask_tail_impl`: the exact rows start masked, the read indexes at `0`. -/
def setInputKqMaskTailImpl (o : TailMaskOut T) : Except TailMaskError (TailMaskOut T) :=
  (tailQueries a (a.clearExact o) a.ubatch.tokens.length).map (·.2)

/-! ## What is selected -/

/-- A candidate is visible to query `i` with this body row. -/
def visible (i : Nat) (row : Nat → T) (e : TailEntry) : Bool :=
  decide (a.Current (a.seqOf i) e) && (a.readCell e.identity.cell).any fun c =>
    a.finite (row c) && !(a.causalAttn && decide (e.position > (a.token i).pos))

/-- The newest `retention` visible candidates of query `i`, with their columns. -/
def chosen (i : Nat) (row : Nat → T) : List (TailEntry × Nat) :=
  ((a.considered (a.seqOf i)).zipIdx.filter fun p => a.visible i row p.1).rtake a.retention

/-- The entry of the plan for a visible candidate. -/
def toExact (q : Nat) (p : TailEntry × Nat) : ExactEntry :=
  let c := (a.readCell p.1.identity.cell).getD 0
  ⟨⟨p.2, c, p.1.position⟩, p.1.slot, a.seqToStream q * a.nKv + c⟩

/-- The test of the selection on an entry of the plan. -/
def planVisible (i : Nat) (row : Nat → T) (e : ExactEntry) : Bool :=
  a.finite (row e.mask.cell) && !(a.causalAttn && decide (e.mask.position > (a.token i).pos))

theorem filter_filterMap_eq_map {α β : Type} {f : α → Option β} {p : β → Bool} {p' : α → Bool}
    {g : α → β} (h : ∀ x, (f x).filter p = if p' x then some (g x) else none) (l : List α) :
    (l.filterMap f).filter p = (l.filter p').map g := by
  rw [filter_filterMap]
  induction l with
  | nil => rfl
  | cons x l ih =>
    rw [filterMap_cons, h, filter_cons]
    by_cases hx : p' x = true
    · rw [if_pos hx, if_pos hx]
      simp only [map_cons, ih]
    · rw [if_neg hx, if_neg hx]
      exact ih

theorem planEntries_filter (i : Nat) (row : Nat → T) :
    ((a.planEntries (a.seqOf i)).filter (a.planVisible i row)).rtake a.retention =
      (a.chosen i row).map (a.toExact (a.seqOf i)) := by
  unfold planEntries chosen
  rw [← rtake_map]
  congr 1
  refine filter_filterMap_eq_map (fun p => ?_) _
  unfold planEntry visible toExact planVisible
  by_cases hc : a.Current (a.seqOf i) p.1
  · rw [if_pos hc, decide_eq_true hc, Bool.true_and]
    cases hr : a.readCell p.1.identity.cell with
    | none => rfl
    | some c =>
      simp only [Option.map_some, Option.any_some, Option.getD_some]
      exact Option.filter_some
  · rw [if_neg hc, decide_eq_false hc]
    rfl

/-- The default of the read of a plan. -/
abbrev noEntry : ExactEntry := ⟨⟨0, 0, 0⟩, 0, 0⟩

/-- The indexes that are selected for a row, and the entries at them. -/
theorem select_eq (i : Nat) (plan : List ExactEntry) (row : Nat → T) :
    ∃ selected, selectMaskedEntries (plan.map (·.mask))
        (plan.map fun e => a.finite (row e.mask.cell)) (a.token i).pos a.retention a.causalAttn =
          .ok selected ∧
      selected.map (plan.getD · noEntry) =
        (plan.filter (a.planVisible i row)).rtake a.retention := by
  refine ⟨_, selectMaskedEntries_eq (by rw [length_map, length_map]), ?_⟩
  rw [← rtake_map, length_map]
  congr 1
  refine map_filter_range plan noEntry fun j hj => ?_
  unfold selectable planVisible
  simp only [getD_eq_getElem?_getD, getElem?_map, getElem?_eq_getElem hj,
    Option.map_some, Option.getD_some, Option.any_some]

/-- The rows of query `i` after its moves. -/
def movedRows (i : Nat) (plan : List ExactEntry) (o : TailMaskOut T) : MaskRows T :=
  ((((plan.filter (a.planVisible i (o.body i))).rtake a.retention)).map (·.mask)).foldl
    (moveEntry a.drop) (o.body i, o.exact i)

/-- What a row leaves. -/
def rowOut (i : Nat) (plan : List ExactEntry) (o : TailMaskOut T) : TailMaskOut T :=
  let es := (plan.filter (a.planVisible i (o.body i))).rtake a.retention
  { body := Function.update o.body i (a.movedRows i plan o).1
    exact := Function.update o.exact i (a.movedRows i plan o).2
    read := writeReads i es (·.slot) o.read
    bodyRead := writeReads i es (fun e => e.bodyRow) o.bodyRead
    biasRead := writeReads i es (fun e => (i * a.nKv + e.mask.cell : Nat)) o.biasRead }

variable {i : Nat} {o o' : TailMaskOut T} {q : Nat} {p : TailEntry × Nat} {plan : List ExactEntry}

theorem tailRow_ok (h : a.tailRow i plan o = .ok o') : o' = a.rowOut i plan o := by
  obtain ⟨selected, hs, he⟩ := a.select_eq i plan (o.body i)
  unfold tailRow at h
  rw [hs] at h
  dsimp only at h
  rw [he] at h
  split at h
  · cases h
  split at h
  · cases h
  split at h
  · cases h
  rw [Except.ok.injEq] at h
  rw [← h, foldl_applyRun]
  rfl

/-- A row is done if its columns are inside the two rows. -/
theorem tailRow_total {o : TailMaskOut T}
    (hp : ∀ e ∈ plan, e.mask.exact < a.attentionStride ∧ e.mask.cell < a.nKv)
    (hi : (i + 1) * a.nKv ≤ INT32_MAX + 1) :
    a.tailRow i plan o = .ok (a.rowOut i plan o) := by
  obtain ⟨selected, hs, he⟩ := a.select_eq i plan (o.body i)
  have hmem : ∀ e ∈ (plan.filter (a.planVisible i (o.body i))).rtake a.retention, e ∈ plan :=
    fun e h => (mem_filter.mp ((rtake_sublist _ _).subset h)).1
  have hlen : selected.length ≤ a.retention := by
    have := congrArg List.length he
    rw [length_map, rtake_length] at this
    omega
  cases hr : a.tailRow i plan o with
  | ok o' => rw [a.tailRow_ok hr]
  | error e =>
    exfalso
    unfold tailRow at hr
    rw [hs] at hr
    dsimp only at hr
    rw [he, if_neg (Nat.not_lt.mpr hlen), if_neg, if_neg] at hr
    · cases hr
    · intro hany
      obtain ⟨e, hm, hgt⟩ := any_eq_true.mp (Bool.and_eq_true_iff.mp hany).2
      have hc := (hp e (hmem e hm)).2
      rw [Nat.add_mul, Nat.one_mul] at hi
      have := of_decide_eq_true hgt
      omega
    · intro hall
      rw [Bool.not_eq_true', all_eq_false] at hall
      obtain ⟨run, hm, hrun⟩ := hall
      refine hrun (decide_eq_true (runs_fit _ (fun e h => ?_) run hm))
      obtain ⟨x, hx, rfl⟩ := mem_map.mp h
      exact hp x (hmem x hx)

/-! ## The loop over the queries -/

/-- The rows of the first `n` queries are done. -/
def rowsDone (a : TailMaskArgs T) (o : TailMaskOut T) : Nat → TailMaskOut T
  | 0 => o
  | n + 1 => a.rowOut n (a.planEntries (a.seqOf n)) (rowsDone a o n)

theorem makePlan_ok (h : a.makePlan q = .ok plan) : plan = a.planEntries q := by
  unfold makePlan at h
  split at h
  · cases h
  split at h
  · cases h
  exact (Except.ok.inj h).symm

/-- A plan that is kept is the one of its sequence. -/
theorem tailQueries_ok {o : TailMaskOut T} : ∀ {n : Nat} {s : Plans × TailMaskOut T},
    tailQueries a o n = .ok s →
      (∀ q plan, s.1 q = some plan → plan = a.planEntries q) ∧ s.2 = rowsDone a o n := by
  intro n
  induction n with
  | zero =>
    intro s h
    cases h
    exact ⟨fun _ _ h => (by cases h), rfl⟩
  | succ n ih =>
    intro s h
    unfold tailQueries at h
    split at h
    · cases h
    next s₀ hs0 =>
    obtain ⟨hplan, ho⟩ := ih hs0
    unfold tailQuery at h
    dsimp only at h
    split at h
    · next plan hp =>
      cases hr : a.tailRow n plan s₀.2 with
      | error e =>
        rw [hr] at h
        cases h
      | ok o' =>
        rw [hr] at h
        cases h
        refine ⟨hplan, ?_⟩
        rw [a.tailRow_ok hr, hplan _ _ hp, ho]
        rfl
    · split at h
      · cases h
      next plan hp =>
      cases hr : a.tailRow n plan s₀.2 with
      | error e =>
        rw [hr] at h
        cases h
      | ok o' =>
        rw [hr] at h
        cases h
        refine ⟨fun q plan' h' => ?_, ?_⟩
        · dsimp only at h'
          rw [update_apply] at h'
          split at h'
          · next hq =>
            rw [hq, ← a.makePlan_ok hp]
            exact (Option.some.inj h').symm
          · exact hplan q plan' h'
        · rw [a.tailRow_ok hr, a.makePlan_ok hp, ho]
          rfl

/-- The asserts of the planner: the candidates fit in the exact row, the indexes of the body rows
and of the biases in an `int32_t`. -/
structure Fits : Prop where
  stride : ∀ i < a.ubatch.tokens.length, (a.considered (a.seqOf i)).length ≤ a.attentionStride
  bodyRow : ∀ i < a.ubatch.tokens.length, (a.seqToStream (a.seqOf i) + 1) * a.nKv ≤ INT32_MAX + 1
  biasRow : a.ubatch.tokens.length * a.nKv ≤ INT32_MAX + 1

variable {a}

theorem readCell_lt {c r : Nat} (h : a.readCell c = some r) : r < a.nKv := by
  unfold readCell at h
  dsimp only at h
  generalize (match a.physicalToRead with | some f => f c | none => (c : Int)) = x at h
  split at h
  · cases h
  next hn =>
  have := Option.some.inj h
  omega

theorem mem_planEntries {x : ExactEntry} (h : x ∈ a.planEntries q) :
    x.mask.exact < (a.considered q).length ∧ x.mask.cell < a.nKv ∧
      x.bodyRow = a.seqToStream q * a.nKv + x.mask.cell := by
  obtain ⟨p, hp, hx⟩ := mem_filterMap.mp h
  unfold planEntry at hx
  split at hx
  · cases hr : a.readCell p.1.identity.cell with
    | none =>
      rw [hr] at hx
      cases hx
    | some c =>
      rw [hr] at hx
      cases hx
      exact ⟨(snd_lt_of_mem_zipIdx hp), readCell_lt hr, rfl⟩
  · cases hx

theorem Fits.makePlan (h : a.Fits) (hi : i < a.ubatch.tokens.length) :
    a.makePlan (a.seqOf i) = .ok (a.planEntries (a.seqOf i)) := by
  unfold TailMaskArgs.makePlan
  rw [if_neg (Nat.not_lt.mpr (h.stride i hi)), if_neg]
  rw [any_eq_true]
  rintro ⟨e, he, hgt⟩
  obtain ⟨-, hc, hb⟩ := mem_planEntries he
  have h1 := h.bodyRow i hi
  have h2 := of_decide_eq_true hgt
  rw [Nat.add_mul, Nat.one_mul] at h1
  omega

/-- Within the asserts every row is done. -/
theorem Fits.tailQueries (h : a.Fits) (o : TailMaskOut T) : ∀ {n : Nat},
    n ≤ a.ubatch.tokens.length → ∃ s, TailMaskArgs.tailQueries a o n = .ok s := by
  intro n
  induction n with
  | zero => exact fun _ => ⟨_, rfl⟩
  | succ n ih =>
    intro hn
    obtain ⟨s₀, hs0⟩ := ih (Nat.le_of_succ_le hn)
    have hrow : a.tailRow n (a.planEntries (a.seqOf n)) s₀.2 =
        .ok (a.rowOut n (a.planEntries (a.seqOf n)) s₀.2) := by
      refine a.tailRow_total (fun e he => ?_)
        ((Nat.mul_le_mul_right a.nKv hn).trans h.biasRow)
      obtain ⟨h1, h2, -⟩ := mem_planEntries he
      exact ⟨h1.trans_le (h.stride n hn), h2⟩
    unfold TailMaskArgs.tailQueries
    rw [hs0]
    unfold tailQuery
    dsimp only
    cases hp : s₀.1 (a.seqOf n) with
    | some plan =>
      dsimp only
      rw [(a.tailQueries_ok hs0).1 _ _ hp, hrow]
      exact ⟨_, rfl⟩
    | none =>
      rw [h.makePlan hn]
      dsimp only
      rw [hrow]
      exact ⟨_, rfl⟩

/-- The entries that move for query `i`. -/
def movedEntries (a : TailMaskArgs T) (i : Nat) (row : Nat → T) : List ExactEntry :=
  (a.chosen i row).map (a.toExact (a.seqOf i))

theorem rowOut_body (i j : Nat) (plan : List ExactEntry) (o : TailMaskOut T) :
    (a.rowOut i plan o).body j = if j = i then (a.movedRows i plan o).1 else o.body j :=
  update_apply _ _ _ _

theorem rowOut_exact (i j : Nat) (plan : List ExactEntry) (o : TailMaskOut T) :
    (a.rowOut i plan o).exact j = if j = i then (a.movedRows i plan o).2 else o.exact j :=
  update_apply _ _ _ _

theorem movedRows_eq (i : Nat) (o : TailMaskOut T) : a.movedRows i (a.planEntries (a.seqOf i)) o =
      ((a.movedEntries i (o.body i)).map (·.mask)).foldl (moveEntry a.drop)
        (o.body i, o.exact i) := by
  unfold movedRows movedEntries
  rw [planEntries_filter]

/-- The two rows of query `j` after `n` queries. -/
theorem rowsDone_rows (o : TailMaskOut T) (n j : Nat) :
    ((rowsDone a o n).body j, (rowsDone a o n).exact j) =
      if j < n then
        ((a.movedEntries j (o.body j)).map (·.mask)).foldl (moveEntry a.drop) (o.body j, o.exact j)
      else (o.body j, o.exact j) := by
  induction n with
  | zero => rfl
  | succ n ih =>
    unfold rowsDone
    rw [rowOut_body, rowOut_exact]
    by_cases hj : j = n
    · rw [if_neg (by omega)] at ih
      rw [if_pos hj, if_pos hj, if_pos (by omega), hj, movedRows_eq]
      rw [hj, Prod.mk.injEq] at ih
      rw [ih.1, ih.2]
    · rw [if_neg hj, if_neg hj, ih]
      exact if_congr (by omega) rfl rfl

/-- The read index of a column of row `j` after `n` queries. -/
theorem rowsDone_read (o : TailMaskOut T) (n j : Nat) :
    (rowsDone a o n).read.map (· j) = o.read.map fun d =>
      if j < n then
        (a.movedEntries j (o.body j)).foldl (fun row e => Function.update row e.mask.exact e.slot)
          (d j)
      else d j := by
  induction n with
  | zero => rfl
  | succ n ih =>
    have hrow := rowsDone_rows (a := a) o n j
    show (writeReads n _ _ (rowsDone a o n).read).map (· j) = _
    unfold writeReads
    rw [planEntries_filter, Option.map_map]
    cases hd : (rowsDone a o n).read with
    | none =>
      rw [hd] at ih
      cases ho : o.read with
      | none => rfl
      | some d =>
        rw [ho] at ih
        cases ih
    | some d' =>
      rw [hd] at ih
      cases ho : o.read with
      | none =>
        rw [ho] at ih
        cases ih
      | some d =>
        rw [ho] at ih
        have ih := Option.some.inj ih
        dsimp only at ih
        refine congrArg some ?_
        dsimp only [comp_apply]
        rw [update_apply]
        by_cases hj : j = n
        · subst hj
          rw [if_neg (by omega), Prod.mk.injEq] at hrow
          rw [if_neg (by omega)] at ih
          rw [if_pos rfl, if_pos (by omega), hrow.1, ih]
          rfl
        · rw [if_neg hj, ih]
          exact if_congr (by omega) rfl rfl

/-! ## The split of a row -/

/-- The column of the cell of a candidate. -/
def column (a : TailMaskArgs T) (p : TailEntry × Nat) : Nat :=
  (a.readCell p.1.identity.cell).getD 0

variable {row : Nat → T}

theorem mem_chosen (h : p ∈ a.chosen i row) :
    (a.considered (a.seqOf i))[p.2]? = some p.1 ∧ a.Current (a.seqOf i) p.1 ∧
      a.readCell p.1.identity.cell = some (a.column p) ∧ a.finite (row (a.column p)) = true := by
  obtain ⟨hm, hv⟩ := mem_filter.mp ((rtake_sublist _ _).subset h)
  refine ⟨mem_zipIdx_iff_getElem?.mp hm, ?_⟩
  obtain ⟨hc, hr⟩ := Bool.and_eq_true_iff.mp hv
  unfold column
  cases hcell : a.readCell p.1.identity.cell with
  | none =>
    rw [hcell] at hr
    cases hr
  | some c =>
    rw [hcell, Option.any_some] at hr
    exact ⟨of_decide_eq_true hc, rfl, (Bool.and_eq_true_iff.mp hr).1⟩

/-- The columns of the exact row are in the order of the candidates. -/
theorem chosen_sorted (i : Nat) (row : Nat → T) :
    (a.chosen i row).Pairwise fun p p' => p.2 < p'.2 := by
  have hz : (a.considered (a.seqOf i)).zipIdx.Pairwise fun p p' => p.2 < p'.2 := by
    rw [← pairwise_map (f := Prod.snd) (R := (· < ·)), zipIdx_map_snd]
    exact pairwise_lt_range'
  exact hz.sublist ((rtake_sublist _ _).trans filter_sublist)

theorem movedEntries_exact (i : Nat) (row : Nat → T) :
    ((a.movedEntries i row).map (·.mask)).map (·.exact) = (a.chosen i row).map (·.2) := by
  unfold movedEntries
  rw [map_map, map_map]
  rfl

theorem movedEntries_cell (i : Nat) (row : Nat → T) :
    ((a.movedEntries i row).map (·.mask)).map (·.cell) = (a.chosen i row).map a.column := by
  unfold movedEntries
  rw [map_map, map_map]
  rfl

/-- The rows of a query after its moves. -/
def splitRows (a : TailMaskArgs T) (i : Nat) (row : Nat → T) : MaskRows T :=
  ((a.movedEntries i row).map (·.mask)).foldl (moveEntry a.drop) (row, fun _ => a.drop)

theorem splitRows_body (i : Nat) (row : Nat → T) (r : Nat) :
    (a.splitRows i row).1 r = if r ∈ (a.chosen i row).map a.column then a.drop else row r := by
  unfold splitRows
  rw [foldl_move_body, movedEntries_cell]

theorem splitRows_exact_of_notMem {k : Nat}
    (h : k ∉ (a.chosen i row).map (·.2)) : (a.splitRows i row).2 k = a.drop :=
  foldl_move_exact_of_notMem (by rwa [movedEntries_exact]) _

theorem splitRows_exact {l₁ l₂ : List (TailEntry × Nat)} (h : a.chosen i row = l₁ ++ p :: l₂) :
    (a.splitRows i row).2 p.2 =
      if a.column p ∈ l₁.map a.column then a.drop else row (a.column p) := by
  have hs := a.chosen_sorted i row
  rw [h, pairwise_append, pairwise_cons] at hs
  have hn : p.2 ∉ l₂.map (·.2) := by
    intro hm
    obtain ⟨p', hp', he⟩ := mem_map.mp hm
    exact absurd (hs.2.1.1 p' hp') (by omega)
  unfold splitRows movedEntries
  rw [h, map_append, map_append, map_cons, map_cons]
  refine (foldl_move_exact (e := (a.toExact (a.seqOf i) p).mask) ?_ _).trans ?_
  · rw [map_map, map_map]
    exact hn
  · rw [map_map, map_map]
    rfl

/-- `physical_to_read` gives no column to two cells. -/
def Injective (a : TailMaskArgs T) : Prop :=
  ∀ f ∈ a.physicalToRead, ∀ c c', 0 ≤ f c → f c = f c' → c = c'

theorem Injective.readCell (h : a.Injective) {c c' r : Nat} (hc : a.readCell c = some r)
    (hc' : a.readCell c' = some r) : c = c' := by
  unfold TailMaskArgs.readCell at hc hc'
  cases hp : a.physicalToRead with
  | none =>
    rw [hp] at hc hc'
    dsimp only at hc hc'
    split at hc
    · cases hc
    split at hc'
    · cases hc'
    have h1 := Option.some.inj hc
    have h2 := Option.some.inj hc'
    omega
  | some f =>
    rw [hp] at hc hc'
    dsimp only at hc hc'
    split at hc
    · cases hc
    split at hc'
    · cases hc'
    have h1 := Option.some.inj hc
    have h2 := Option.some.inj hc'
    exact h f hp c c' (by omega) (by omega)

/-- Candidate number `k` of query `i` is a present row of cell `c`, and its column is visible. -/
def InExact (a : TailMaskArgs T) (exact : Nat → T) (i c k : Nat) : Prop :=
  a.finite (exact k) = true ∧ ∃ e, (a.considered (a.seqOf i))[k]? = some e ∧
    a.Current (a.seqOf i) e ∧ e.identity.cell = c

/-- A visible column of the exact row is a chosen one, and the first with its cell. -/
theorem splitRows_finite {k : Nat} (h : a.finite ((a.splitRows i row).2 k) = true) :
    ∃ l₁ p l₂, a.chosen i row = l₁ ++ p :: l₂ ∧ p.2 = k ∧ a.column p ∉ l₁.map a.column := by
  by_cases hk : k ∈ (a.chosen i row).map (·.2)
  · obtain ⟨p, hp, hpk⟩ := mem_map.mp hk
    obtain ⟨l₁, l₂, hl⟩ := append_of_mem hp
    refine ⟨l₁, p, l₂, hl, hpk, fun hm => ?_⟩
    rw [← hpk, splitRows_exact hl, if_pos hm, a.finite_drop] at h
    cases h
  · rw [splitRows_exact_of_notMem hk, a.finite_drop] at h
    cases h

/-- The candidate of a visible column. -/
theorem InExact.chosen {i c k : Nat} (h : a.InExact (a.splitRows i row).2 i c k) :
    ∃ l₁ p l₂, a.chosen i row = l₁ ++ p :: l₂ ∧ p.2 = k ∧ a.column p ∉ l₁.map a.column ∧
      p.1.identity.cell = c := by
  obtain ⟨hf, e, he, -, hc⟩ := h
  obtain ⟨l₁, p, l₂, hl, hk, hn⟩ := splitRows_finite hf
  refine ⟨l₁, p, l₂, hl, hk, hn, ?_⟩
  have hp := (mem_chosen (hl ▸ mem_append_right l₁ mem_cons_self)).1
  rw [hk, he] at hp
  rw [← Option.some.inj hp, hc]

/-- A column that no chosen candidate has. -/
theorem splitRows_of_notMem {i c r : Nat} (hr : a.readCell c = some r)
    (hn : r ∉ (a.chosen i row).map a.column) :
    (a.splitRows i row).1 r = row r ∧ ∀ k, ¬ a.InExact (a.splitRows i row).2 i c k := by
  refine ⟨by rw [splitRows_body, if_neg hn], fun k hk => ?_⟩
  obtain ⟨l1, p, l2, hl, -, -, hc⟩ := hk.chosen
  have hp : p ∈ a.chosen i row := hl ▸ mem_append_right l1 mem_cons_self
  refine hn (mem_map.mpr ⟨p, hp, ?_⟩)
  have := (mem_chosen hp).2.2.1
  rw [hc, hr] at this
  exact (Option.some.inj this).symm

theorem splitRows_of_mem (hinj : a.Injective) {i c r : Nat}
    (hr : a.readCell c = some r) (hm : r ∈ (a.chosen i row).map a.column) :
    ∃ p ∈ a.chosen i row, p.1.identity.cell = c ∧ (a.splitRows i row).2 p.2 = row r ∧
      ∀ k, a.InExact (a.splitRows i row).2 i c k → k = p.2 := by
  obtain ⟨l, l', hl, hn⟩ := eq_append_cons_of_mem hm
  obtain ⟨l1, l2', hch, rfl, hl2⟩ := map_eq_append_iff.mp hl
  obtain ⟨p, l2, rfl, hpr, rfl⟩ := map_eq_cons_iff.mp hl2
  have hp : p ∈ a.chosen i row := hch ▸ mem_append_right l1 mem_cons_self
  have hcell : ∀ p' ∈ a.chosen i row, p'.1.identity.cell = c → a.column p' = r := by
    intro p' hp' hc'
    have := (mem_chosen hp').2.2.1
    rw [hc', hr] at this
    exact (Option.some.inj this).symm
  refine ⟨p, hp, ?_, ?_, fun k hk => ?_⟩
  · refine hinj.readCell (r := r) ?_ hr
    rw [(mem_chosen hp).2.2.1, hpr]
  · rw [splitRows_exact hch, hpr, if_neg hn]
  · obtain ⟨m1, p', m2, hm', hk', hfirst, hc'⟩ := hk.chosen
    have hp' : p' ∈ a.chosen i row := hm' ▸ mem_append_right m1 mem_cons_self
    rw [hcell p' hp' hc'] at hfirst
    -- both are the first chosen candidate with column `r`
    rcases append_eq_append_iff.mp (hm'.symm.trans hch) with ⟨m, hl1, hl2⟩ | ⟨m, hm1, hl2⟩
    · cases m with
      | nil =>
        rw [← hk', (List.cons.inj hl2).1]
      | cons x m =>
        cases hl2
        refine absurd ?_ hn
        rw [hl1, map_append, map_cons]
        exact mem_append_right _ (by rw [hcell p' hp' hc']; exact mem_cons_self)
    · cases m with
      | nil =>
        rw [← hk', (List.cons.inj hl2).1]
      | cons x m =>
        cases hl2
        refine absurd ?_ hfirst
        rw [hm1, map_append, map_cons]
        exact mem_append_right _ (by rw [hpr]; exact mem_cons_self)

theorem splitRows_read (h : p ∈ a.chosen i row) (d : Nat → Int) :
    (a.movedEntries i row).foldl (fun r e => Function.update r e.mask.exact e.slot) d p.2 =
      p.1.slot := by
  obtain ⟨l1, l2, hl⟩ := append_of_mem h
  have hs := a.chosen_sorted i row
  rw [hl, pairwise_append, pairwise_cons] at hs
  unfold movedEntries
  rw [hl, map_append, map_cons, foldl_append, foldl_cons]
  generalize List.foldl _ d _ = d'
  have key : ∀ (l : List (TailEntry × Nat)) (r : Nat → Int), (∀ p' ∈ l, p.2 < p'.2) →
      r p.2 = p.1.slot → (l.map (a.toExact (a.seqOf i))).foldl
        (fun r e => Function.update r e.mask.exact e.slot) r p.2 = p.1.slot := by
    intro l
    induction l with
    | nil => exact fun _ _ h => h
    | cons p' l ih =>
      intro r hlt hr
      refine ih _ (fun x hx => hlt x (mem_cons_of_mem p' hx)) ?_
      have hne : p.2 ≠ p'.2 := Nat.ne_of_lt (hlt p' mem_cons_self)
      exact (update_of_ne hne _ _).trans hr
  exact key l2 _ hs.2.1.1 (update_self _ _ _)

variable (a) in
/-- The values of the body rows are split between the body rows and the exact rows. -/
structure Split (o o' : TailMaskOut T) : Prop where
  /-- A visible cell stays in the body row, or has one visible column in the exact row. -/
  visible : ∀ i < a.ubatch.tokens.length, ∀ c r, a.readCell c = some r →
    a.finite (o.body i r) = true →
      (o'.body i r = o.body i r ∧ ∀ k, ¬ a.InExact (o'.exact i) i c k) ∨
      (a.finite (o'.body i r) = false ∧ ∃ k e, (a.considered (a.seqOf i))[k]? = some e ∧
        a.Current (a.seqOf i) e ∧ e.identity.cell = c ∧ o'.exact i k = o.body i r ∧
        (∀ d ∈ o'.read, d i k = e.slot) ∧ ∀ k', a.InExact (o'.exact i) i c k' → k' = k)
  masked : ∀ i < a.ubatch.tokens.length, ∀ c r, a.readCell c = some r →
    a.finite (o.body i r) = false → o'.body i r = o.body i r ∧ ∀ k, ¬ a.InExact (o'.exact i) i c k
  /-- A column of no cell stays as it is. -/
  unmapped : ∀ i < a.ubatch.tokens.length, ∀ r, (∀ c, a.readCell c ≠ some r) →
    o'.body i r = o.body i r
  /-- A visible column of the exact row is a chosen candidate. -/
  exact : ∀ i < a.ubatch.tokens.length, ∀ k, a.finite (o'.exact i k) = true →
    ∃ p ∈ a.chosen i (o.body i), p.2 = k ∧ a.InExact (o'.exact i) i p.1.identity.cell k
  /-- A chosen candidate is visible in one column of its identity. -/
  chosen : ∀ i < a.ubatch.tokens.length, ∀ p ∈ a.chosen i (o.body i),
    ∃ p' ∈ a.chosen i (o.body i), p'.1.identity = p.1.identity ∧
      a.InExact (o'.exact i) i p.1.identity.cell p'.2

theorem Current.identity {e e' : TailEntry} (h : a.Current q e) (h' : a.Current q e')
    (hc : e.identity.cell = e'.identity.cell) : e.identity = e'.identity := by
  obtain ⟨hs, hg⟩ := h
  obtain ⟨hs', hg'⟩ := h'
  rw [hc, hg'] at hg
  generalize e.identity = x at hs hc hg
  generalize e'.identity = y at hs' hc hg
  cases x
  cases y
  simp_all

theorem splitRows_chosen (hinj : a.Injective) (h : p ∈ a.chosen i row) :
    ∃ p' ∈ a.chosen i row, p'.1.identity = p.1.identity ∧
      a.InExact (a.splitRows i row).2 i p.1.identity.cell p'.2 := by
  obtain ⟨hk, hcur, hr, hf⟩ := mem_chosen h
  obtain ⟨p', hp', hc', he', -⟩ := splitRows_of_mem hinj hr (mem_map_of_mem h)
  obtain ⟨hk', hcur', -⟩ := mem_chosen hp'
  exact ⟨p', hp', hcur'.identity hcur hc', by rw [he']; exact hf, p'.1, hk', hcur', hc'⟩

/-- What the planner returns. -/
theorem impl_ok (h : a.setInputKqMaskTailImpl o = .ok o') (hi : i < a.ubatch.tokens.length) :
    o'.body i = (a.splitRows i (o.body i)).1 ∧ o'.exact i = (a.splitRows i (o.body i)).2 ∧
      ∀ d ∈ o'.read, ∃ d₀, d i = (a.movedEntries i (o.body i)).foldl
        (fun row e => Function.update row e.mask.exact e.slot) d₀ := by
  unfold setInputKqMaskTailImpl at h
  cases hq : tailQueries a (a.clearExact o) a.ubatch.tokens.length with
  | error e =>
    rw [hq] at h
    cases h
  | ok s =>
    rw [hq] at h
    obtain rfl : s.2 = o' := Except.ok.inj h
    rw [(a.tailQueries_ok hq).2]
    have hrows := rowsDone_rows (a := a) (a.clearExact o) a.ubatch.tokens.length i
    rw [if_pos hi, Prod.ext_iff] at hrows
    refine ⟨hrows.1, hrows.2, fun d hd => ?_⟩
    have hread := rowsDone_read (a := a) (a.clearExact o) a.ubatch.tokens.length i
    rw [Option.mem_def.mp hd] at hread
    cases ho : (a.clearExact o).read with
    | none =>
      rw [ho] at hread
      cases hread
    | some d₀ =>
      rw [ho, Option.map_some, Option.map_some, if_pos hi] at hread
      exact ⟨d₀ i, Option.some.inj hread⟩

theorem split_of_ok (hinj : a.Injective)
    (h : a.setInputKqMaskTailImpl o = .ok o') : a.Split o o' where
  visible i hi c r hr hf := by
    obtain ⟨hb, he, hread⟩ := impl_ok h hi
    rw [hb, he]
    by_cases hm : r ∈ (a.chosen i (o.body i)).map a.column
    · obtain ⟨p, hp, hc, hval, hu⟩ := splitRows_of_mem hinj hr hm
      obtain ⟨hk, hcur, -⟩ := mem_chosen hp
      refine .inr ⟨?_, p.2, p.1, hk, hcur, hc, hval, fun d hd => ?_, hu⟩
      · rw [splitRows_body, if_pos hm]
        exact a.finite_drop
      · obtain ⟨d₀, hd0⟩ := hread d hd
        rw [hd0]
        exact splitRows_read hp d₀
    · exact .inl (splitRows_of_notMem hr hm)
  masked i hi c r hr hf := by
    obtain ⟨hb, he, -⟩ := impl_ok h hi
    rw [hb, he]
    refine splitRows_of_notMem hr fun hm => ?_
    obtain ⟨p, hp, rfl⟩ := mem_map.mp hm
    rw [(mem_chosen hp).2.2.2] at hf
    cases hf
  unmapped i hi r hr := by
    rw [(impl_ok h hi).1, splitRows_body, if_neg]
    intro hm
    obtain ⟨p, hp, rfl⟩ := mem_map.mp hm
    exact hr _ (mem_chosen hp).2.2.1
  exact i hi k hk := by
    rw [(impl_ok h hi).2.1] at hk ⊢
    obtain ⟨l1, p, l2, hl, hpk, -⟩ := splitRows_finite hk
    have hp : p ∈ a.chosen i (o.body i) := hl ▸ mem_append_right l1 mem_cons_self
    obtain ⟨he, hcur, -⟩ := mem_chosen hp
    exact ⟨p, hp, hpk, hk, p.1, hpk ▸ he, hcur, rfl⟩
  chosen i hi p hp := by
    rw [(impl_ok h hi).2.1]
    exact splitRows_chosen hinj hp

/-- With all the newest candidates visible, the narrowed list gives the choice of the full one. -/
theorem considered_filter (h : ∀ e ∈ (a.tail.sourceCandidates (a.seqOf i)).rtake a.retention,
      a.visible i row e = true) :
    ((a.considered (a.seqOf i)).filter (a.visible i row)).rtake a.retention =
      ((a.tail.sourceCandidates (a.seqOf i)).filter (a.visible i row)).rtake a.retention := by
  unfold considered
  dsimp only
  split
  · next hq =>
    rw [Nat.min_eq_left (Nat.le_of_lt hq.2), rtake_filter h]
    rfl
  · rfl

theorem chosen_fst (i : Nat) (row : Nat → T) : (a.chosen i row).map (·.1) =
    ((a.considered (a.seqOf i)).filter (a.visible i row)).rtake a.retention := by
  unfold chosen
  rw [← rtake_map]
  congr 1
  conv_rhs => rw [← zipIdx_map_fst 0 (a.considered (a.seqOf i)), filter_map]
  rfl

/-- The planner splits the rows for every state of the tail, within its asserts. The chosen
candidates are the newest `retention` visible ones of a list in the order of position and
insertion; the narrowed list of a sequence with one query gives the same choice if all of its
candidates are visible. -/
theorem reach_tailMask_split {T : Type} (a : TailMaskArgs T) (hinj : a.Injective)
    (hr : TailStore.sys.Reach (fun _ _ => True) a.tail) (o : TailMaskOut T) :
    (a.Fits → ∃ o', a.setInputKqMaskTailImpl o = .ok o') ∧
    (∀ o', a.setInputKqMaskTailImpl o = .ok o' → a.Split o o') ∧
    ∀ i, (a.considered (a.seqOf i)).Pairwise TailEntry.Le ∧
      (a.chosen i (o.body i)).map (·.1) = ((a.considered (a.seqOf i)).filter
        (a.visible i (o.body i))).rtake a.retention ∧
      (a.queryCount (a.seqOf i) ≠ 1 →
        a.considered (a.seqOf i) = a.tail.sourceCandidates (a.seqOf i)) ∧
      ((∀ e ∈ (a.tail.sourceCandidates (a.seqOf i)).rtake a.retention,
          a.visible i (o.body i) e = true) →
        (a.chosen i (o.body i)).map (·.1) = ((a.tail.sourceCandidates (a.seqOf i)).filter
          (a.visible i (o.body i))).rtake a.retention) := by
  refine ⟨fun h => ?_, fun o' h => split_of_ok hinj h, fun i => ⟨?_, chosen_fst i _, ?_, ?_⟩⟩
  · obtain ⟨s, hs⟩ := h.tailQueries (a.clearExact o) (Nat.le_refl a.ubatch.tokens.length)
    refine ⟨s.2, ?_⟩
    unfold setInputKqMaskTailImpl
    rw [hs]
    rfl
  · exact ((hr.inv (inv_inductive _)).sourceCandidates_sorted _).sublist
      (drop_sublist _ _)
  · intro hq
    unfold considered
    dsimp only
    rw [if_neg (fun h => hq h.1), drop_zero]
  · intro hv
    rw [chosen_fst, considered_filter hv]

/-! ## Two rows with a gap -/

/-- Rows `0` and `2` of a sequence are in the tail, row `1` is not. -/
def gapOps : List TailStore.Op :=
  [.commit 0 ⟨0, 0, 1⟩ 0 0 UINT32_MAX, .commit 0 ⟨0, 2, 1⟩ 2 1 UINT32_MAX]

/-- Two queries at positions `2` and `3`; the body has four columns. -/
def gapArgs : TailMaskArgs (Option Int) where
  tail := TailStore.runOps gapOps TailStore.twoSeqs
  generations _ := [1, 1, 1, 1]
  seqToStream _ := 0
  ubatch := ⟨[⟨2, {}, [0]⟩, ⟨3, {}, [0]⟩], [0], false⟩
  nKv := 4
  attentionStride := 2
  causalAttn := true
  physicalToRead := none
  drop := none
  finite := Option.isSome
  finite_drop := rfl

/-- Column `c` of row `i` holds `10 * i + c`. -/
def gapRows : TailMaskOut (Option Int) where
  body i c := some (10 * i + c)
  exact _ _ := none
  read := some fun _ _ => 0
  bodyRead := none
  biasRead := none

theorem gapArgs_fits : gapArgs.Fits where
  stride := by decide
  bodyRow := by decide
  biasRow := by decide

/-- Columns `0` and `2` move, column `1` between them stays. -/
theorem gapArgs_split : ∃ o', gapArgs.setInputKqMaskTailImpl gapRows = .ok o' ∧
    gapArgs.Split gapRows o' ∧ o'.body 1 0 = none ∧ o'.body 1 1 = some 11 ∧
      o'.exact 1 0 = some 10 ∧ o'.exact 1 1 = some 12 := by
  have hr : sys.Reach (fun _ _ => True) gapArgs.tail :=
    reach_runOps (.init twoSeqs_init) ⟨rfl, rfl, trivial, rfl, rfl, trivial, trivial⟩
  have h := reach_tailMask_split gapArgs (fun _ h => by cases h) hr gapRows
  obtain ⟨o', ho⟩ := h.1 gapArgs_fits
  obtain ⟨hb, he, -⟩ := impl_ok ho (i := 1) (by decide)
  refine ⟨o', ho, h.2.1 o' ho, ?_⟩
  rw [hb, he]
  exact ⟨by decide, by decide, by decide, by decide⟩

end TailMaskArgs

end BeeLlama
