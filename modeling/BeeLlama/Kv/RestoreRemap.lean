import BeeLlama.Kv.SealedFlags
import BeeLlama.Lib.Greedy

/-!
# The remap of a self-contained restore (`state_v2_read_payload_and_install`)

The saved groups get destination groups one after the other, each its own number or else the first
other one that fits. `Fits` says what fits without the array `stage_owner` of the search, and the
greedy assignment of `Lib/Greedy` says which one is taken.

* `remapGroups_assigns`: the search is this assignment, and it throws only if a group is stuck.
* `Destinations`: what the assigned pairs have in common.
* `installCells_cells`: the cells after the restore, for saved cells at any position.
* `installSequence_sound_iff`: the restore is sound if and only if no cell of the sequence is at
  `INT32_MAX` before. `seq_rm` takes this position for the exclusive end of an open range.
-/

namespace BeeLlama.KvCache

open KvCells Greedy List Function Nat KvCells Cell

/-! ## What fits -/

section Spec

variable (cfg : CacheCfg) (c : KvCells) (saved : List SavedCell)

/-- The source group was saved partly filled, so that its destination needs a stage slot. -/
def NeedsStage (source : Nat) : Prop :=
  stageAware cfg = true ∧ sourceGroupFill cfg saved source < cfg.stateRemapGroupSize

/-- A partly filled group has the stage slot, or group `0` has it by its first cell. -/
def SlotHeld (slot : Nat) : Prop :=
  (∃ g, Partial cfg c g ∧ cfg.stageSlot g = slot) ∨ slot = 0 ∧ c.isEmpty 0 = false

/-- The destination fits: it is not reserved, it is empty, and a partly filled group finds its stage
slot free. -/
structure Fits (taken : List (Nat × Nat)) (source d : Nat) : Prop where
  fresh : ∀ p ∈ taken, p.2 ≠ d
  empty : ∀ k, k < cfg.stateRemapGroupSize → c.isEmpty (d * cfg.stateRemapGroupSize + k) = true
  slot : NeedsStage cfg saved source → ¬ SlotHeld cfg c (cfg.stageSlot d) ∧
    ∀ p ∈ taken, NeedsStage cfg saved p.1 → cfg.stageSlot p.2 ≠ cfg.stageSlot d

/-- The order of the two passes: the group itself, then the others. -/
def candidates (source : Nat) : List Nat :=
  (List.range (c.size / cfg.stateRemapGroupSize)).filter (· == source) ++
    (List.range (c.size / cfg.stateRemapGroupSize)).filter (· != source)

/-- `stage_owner` has an owner exactly for the slots that are held or were given away. -/
def OwnersOk (r : Remap) : Prop :=
  stageAware cfg = true → ∀ slot, (r.stageOwner slot).isSome = true ↔
    SlotHeld cfg c slot ∨ ∃ p ∈ r.groups, NeedsStage cfg saved p.1 ∧ cfg.stageSlot p.2 = slot

end Spec

section Search

variable {cfg : CacheCfg} {c : KvCells} {saved : List SavedCell} {r r' : Remap} {source : Nat}

theorem mem_candidates {d : Nat} :
    d ∈ candidates cfg c source ↔ d < c.size / cfg.stateRemapGroupSize := by
  unfold candidates
  rw [mem_append, mem_filter, mem_filter, mem_range, ← and_or_left, beq_iff_eq, bne_iff_ne]
  exact and_iff_left (em (d = source))

/-- The loop of the restore over the partly filled groups. -/
theorem stageOwner_iff (ha : stageAware cfg = true) (slot : Nat) :
    (stageOwner cfg c slot).isSome = true ↔ SlotHeld cfg c slot := by
  have key : ∀ (gs : List Nat) (owner : Nat → Option Nat),
      ((gs.foldl (fun owner g =>
        if groupUsed cfg c g = 0 ∨ groupUsed cfg c g ≥ cfg.allocationGroupSize then owner
        else Function.update owner (cfg.stageSlot g) (some g)) owner) slot).isSome = true ↔
      (∃ g ∈ gs, 0 < groupUsed cfg c g ∧ groupUsed cfg c g < cfg.allocationGroupSize ∧
        cfg.stageSlot g = slot) ∨ (owner slot).isSome = true := by
    intro gs
    induction gs with
    | nil => simp
    | cons g gs ih =>
      intro owner
      rw [foldl_cons, ih]
      have hstep : ((if groupUsed cfg c g = 0 ∨ groupUsed cfg c g ≥ cfg.allocationGroupSize
          then owner else Function.update owner (cfg.stageSlot g) (some g)) slot).isSome = true ↔
          (0 < groupUsed cfg c g ∧ groupUsed cfg c g < cfg.allocationGroupSize ∧
            cfg.stageSlot g = slot) ∨ (owner slot).isSome = true := by
        split
        · next hu => exact ⟨.inr, fun h => h.resolve_left fun h => by omega⟩
        · next hu =>
          rw [update_apply]
          split
          · next hs => exact ⟨fun _ => .inl ⟨by omega, by omega, hs.symm⟩, fun _ => rfl⟩
          · next hs => exact ⟨.inr, fun h => h.resolve_left fun h => hs h.2.2.symm⟩
      rw [hstep, ← or_assoc]
      refine or_congr_left ?_
      simp only [mem_cons, exists_eq_or_imp]
      exact or_comm
  have hall := key (List.range cfg.nGroups).tail fun _ => none
  have hpart : (∃ g ∈ (List.range cfg.nGroups).tail, 0 < groupUsed cfg c g ∧
      groupUsed cfg c g < cfg.allocationGroupSize ∧ cfg.stageSlot g = slot) ↔
      ∃ g, Partial cfg c g ∧ cfg.stageSlot g = slot := by
    refine exists_congr fun g => ?_
    rw [mem_range_tail]
    unfold Partial
    tauto
  rw [hpart, or_iff_left (by simp)] at hall
  unfold stageOwner SlotHeld
  rw [if_pos ha]
  cases h0 : c.isEmpty 0 with
  | true =>
    rw [if_pos rfl, hall]
    simp
  | false =>
    rw [if_neg Bool.false_ne_true, update_apply]
    split
    · next hs => simp [hs]
    · next hs => rw [hall, or_iff_left fun h => hs h.1]

theorem needsStage_iff : (stageAware cfg &&
    decide (sourceGroupFill cfg saved source < cfg.stateRemapGroupSize)) = true ↔
      NeedsStage cfg saved source := by
  rw [Bool.and_eq_true, decide_eq_true_eq]
  rfl

/-- The test of the search says what fits. -/
theorem destinationOk_iff (ho : OwnersOk cfg c saved r) {d : Nat} :
    destinationOk cfg c r (stageAware cfg &&
      decide (sourceGroupFill cfg saved source < cfg.stateRemapGroupSize)) d = true ↔
      Fits cfg c saved r.groups source d := by
  unfold destinationOk
  rw [Bool.and_eq_true, Bool.and_eq_true, Bool.not_eq_true', any_eq_false, Bool.not_eq_true',
    all_eq_true]
  have hslot : ((stageAware cfg &&
      decide (sourceGroupFill cfg saved source < cfg.stateRemapGroupSize)) &&
        (r.stageOwner (cfg.stageSlot d)).isSome) = false ↔
      (NeedsStage cfg saved source → ¬ SlotHeld cfg c (cfg.stageSlot d) ∧
        ∀ p ∈ r.groups, NeedsStage cfg saved p.1 → cfg.stageSlot p.2 ≠ cfg.stageSlot d) := by
    rw [← Bool.not_eq_true, Bool.and_eq_true, needsStage_iff, not_and]
    refine imp_congr_right fun hn => ?_
    rw [ho hn.1, not_or]
    simp only [not_exists, not_and, ne_eq]
  rw [hslot]
  constructor
  · rintro ⟨⟨hf, hs⟩, he⟩
    exact ⟨fun p hp e => hf p hp (beq_iff_eq.mpr e), fun k hk => he k (mem_range.mpr hk), hs⟩
  · rintro ⟨hf, he, hs⟩
    exact ⟨⟨fun p hp e => hf p hp (beq_iff_eq.mp e), hs⟩, fun k hk => he k (mem_range.mp hk)⟩

/-- The owners before the search. -/
theorem ownersOk_start : OwnersOk cfg c saved { stageOwner := stageOwner cfg c } := by
  intro ha slot
  rw [stageOwner_iff ha]
  simp

/-- One source group: the first candidate that fits, or none does. -/
theorem remapGroup_spec (source : Nat) (ho : OwnersOk cfg c saved r) :
    (∀ r', remapGroup cfg c saved r source = .ok r' → OwnersOk cfg c saved r' ∧
      ∃ d, First (Fits cfg c saved) (candidates cfg c) r.groups source d ∧
        r'.groups = r.groups ++ [(source, d)]) ∧
    ∀ e, remapGroup cfg c saved r source = .error e → e = .noGroup ∧
      ∀ d ∈ candidates cfg c source, ¬ Fits cfg c saved r.groups source d := by
  unfold remapGroup
  dsimp only
  split
  · next hnone =>
    refine ⟨fun r' e => (by cases e), fun e he => ⟨(Except.error.inj he).symm, fun d hd hf => ?_⟩⟩
    have hn := find?_eq_none.mp hnone d hd
    exact hn ((destinationOk_iff ho).mpr hf)
  · next d hd =>
    refine ⟨fun r' e => ?_, fun e he => (by cases he)⟩
    cases e
    obtain ⟨hok, l1, l2, hl, hn⟩ := find?_eq_some_iff_append.mp hd
    refine ⟨fun ha slot => ?_, d, ⟨l1, l2, hl, (destinationOk_iff ho).mp hok, fun x hx hf => ?_⟩,
      rfl⟩
    · simp only [mem_append, mem_singleton, or_and_right, exists_or, exists_eq_left]
      rw [← or_assoc, ← ho ha]
      split
      · next hneeds =>
        rw [update_apply]
        split
        · next hs => simp [needsStage_iff.mp hneeds, hs]
        · next hs => exact ⟨.inl, fun h => h.resolve_right fun h => hs h.2.symm⟩
      · next hneeds =>
        exact ⟨.inl, fun h => h.resolve_right fun h => hneeds (needsStage_iff.mpr h.1)⟩
    · have := hn x hx
      rw [(destinationOk_iff ho).mpr hf] at this
      cases this

/-- The search is the greedy assignment. -/
theorem remapGroups_assigns : ∀ {gs : List Nat} {r : Remap}, OwnersOk cfg c saved r →
    (∀ r', remapGroups cfg c saved gs r = .ok r' →
      Assigns (Fits cfg c saved) (candidates cfg c) gs r.groups r'.groups) ∧
    ∀ e, remapGroups cfg c saved gs r = .error e → e = .noGroup ∧
      Stuck (Fits cfg c saved) (candidates cfg c) gs r.groups := by
  intro gs
  induction gs with
  | nil =>
    intro r _
    refine ⟨fun r' e => ?_, fun e he => (by cases he)⟩
    cases e
    exact .nil _
  | cons g gs ih =>
    intro r ho
    obtain ⟨hok, herr⟩ := remapGroup_spec g ho
    unfold remapGroups
    split
    · next e he =>
      obtain ⟨rfl, hn⟩ := herr e he
      exact ⟨fun r' e => (by cases e), fun e' he' => ⟨(Except.error.inj he').symm,
        [], g, gs, r.groups, rfl, .nil _, hn⟩⟩
    · next r1 e1 =>
      obtain ⟨ho1, d, hd, hg⟩ := hok r1 e1
      obtain ⟨hok', herr'⟩ := ih ho1
      rw [hg] at hok' herr'
      exact ⟨fun r' e => .cons hd (hok' r' e),
        fun e he => ⟨(herr' e he).1, .cons hd (herr' e he).2⟩⟩

/-- What the assigned pairs have in common. -/
structure Destinations (cfg : CacheCfg) (c : KvCells) (saved : List SavedCell)
    (out : List (Nat × Nat)) : Prop where
  nodup : (out.map (·.2)).Nodup
  lt : ∀ p ∈ out, p.2 < c.size / cfg.stateRemapGroupSize
  empty : ∀ p ∈ out, ∀ k, k < cfg.stateRemapGroupSize →
    c.isEmpty (p.2 * cfg.stateRemapGroupSize + k) = true
  /-- The slot of a destination that needs one was free. -/
  slot : ∀ p ∈ out, NeedsStage cfg saved p.1 → ¬ SlotHeld cfg c (cfg.stageSlot p.2)
  /-- No two of them have one slot. -/
  apart : ∀ p ∈ out, ∀ q ∈ out, NeedsStage cfg saved p.1 → NeedsStage cfg saved q.1 →
    cfg.stageSlot p.2 = cfg.stageSlot q.2 → p.2 = q.2

theorem Destinations.of_assigns {gs : List Nat} {out : List (Nat × Nat)}
    (h : Assigns (Fits cfg c saved) (candidates cfg c) gs [] out) :
    Destinations cfg c saved out := by
  refine h.inv (fun taken g d ht hm hf => ?_) ⟨nodup_nil, ?_, ?_, ?_, ?_⟩
  · have hmem : ∀ p ∈ taken ++ [(g, d)], p ∈ taken ∨ p = (g, d) := fun p hp =>
      (mem_append.mp hp).imp_right mem_singleton.mp
    refine ⟨?_, fun p hp => ?_, fun p hp => ?_, fun p hp hn => ?_, fun p hp q hq hn hn' e => ?_⟩
    · rw [map_append, map_singleton, nodup_append]
      refine ⟨ht.nodup, nodup_singleton d, fun a ha b hb => ?_⟩
      obtain ⟨p, hp, rfl⟩ := mem_map.mp ha
      rw [mem_singleton.mp hb]
      exact hf.fresh p hp
    · rcases hmem p hp with hp | rfl
      · exact ht.lt p hp
      · exact mem_candidates.mp hm
    · rcases hmem p hp with hp | rfl
      · exact ht.empty p hp
      · exact hf.empty
    · rcases hmem p hp with hp | rfl
      · exact ht.slot p hp hn
      · exact (hf.slot hn).1
    · rcases hmem p hp with hp | rfl <;> rcases hmem q hq with hq | rfl
      · exact ht.apart p hp q hq hn hn' e
      · exact absurd e ((hf.slot hn').2 p hp hn)
      · exact absurd e.symm ((hf.slot hn).2 q hq hn')
      · rfl
  all_goals exact fun p hp => absurd hp not_mem_nil

end Search

/-! ## The cells -/

section Cells

/-- The saved cells `ks` are in the cells `dst` of stream `x`, for sequence `s`. -/
structure InstalledAt (st st' : KvCache) (x s : Nat) (is2d : Bool) (dst : SavedCell → Nat)
    (ks : List SavedCell) : Prop where
  cfg : st'.cfg = st.cfg
  other : ∀ y, y ≠ x → st'.cells y = st.cells y
  size : (st'.cells x).size = (st.cells x).size
  free : ∀ k ∈ ks, (st.cells x).pos (dst k) = -1
  pos : ∀ k ∈ ks, (st'.cells x).pos (dst k) = k.pos
  ext : is2d = true → ∀ k ∈ ks, (st'.cells x).ext (dst k) = k.ext
  seq : ∀ k ∈ ks, (st'.cells x).seq (dst k) = insert s ((st.cells x).seq (dst k))
  used : ∀ i, i ∈ (st'.cells x).used ↔ i ∈ (st.cells x).used ∨ ∃ k ∈ ks, i = dst k
  old : ∀ i, (∀ k ∈ ks, i ≠ dst k) → (st'.cells x).cell i = (st.cells x).cell i

variable {st st₁ st' : KvCache} {s : Nat} {is2d : Bool} {r : Remap}

theorem installCell_at {k : SavedCell} (e : st.installCell s is2d r k = .ok st') :
    InstalledAt st st' (st.cfg.seqToStream s) s is2d (fun q => r.cell st.cfg q.sourceCell) [k] := by
  unfold installCell at e
  dsimp only at e
  set x := st.cfg.seqToStream s
  set dst := r.cell st.cfg k.sourceCell with hdst
  split at e
  · next he =>
    set c := (if is2d = true then ((st.cells x).posSet dst k.pos).extSet dst k.ext
      else (st.cells x).posSet dst k.pos) with hc
    have hpos : c.pos = Function.update (st.cells x).pos dst k.pos := by
      rw [hc]
      split <;> rfl
    have hseq : c.seq = (st.cells x).seq := by
      rw [hc]
      split <;> rfl
    have hshift : c.shift = (st.cells x).shift := by
      rw [hc]
      split <;> rfl
    have hsize : c.size = (st.cells x).size := by
      rw [hc]
      split <;> rfl
    have hused : c.used = insert dst (st.cells x).used := by
      rw [hc]
      split <;> rfl
    have hext : ∀ i, i ≠ dst → c.ext i = (st.cells x).ext i := by
      intro i hi
      rw [hc]
      split
      · exact update_of_ne hi _ _
      · rfl
    obtain ⟨hcfg, hcells⟩ : st'.cfg = st.cfg ∧
        st'.cells = Function.update st.cells x (c.seqAdd dst s) := by
      rw [← Except.ok.inj e]
      split <;> exact ⟨rfl, rfl⟩
    have hx : st'.cells x = c.seqAdd dst s := by
      rw [hcells, update_self]
    have hseq' : (c.seqAdd dst s).seq = Function.update c.seq dst (insert s (c.seq dst)) := rfl
    refine ⟨hcfg, fun y hy => ?_, ?_, fun q hq => ?_, fun q hq => ?_, fun h2 q hq => ?_,
      fun q hq => ?_, fun i => ?_, fun i hi => ?_⟩
    · rw [hcells, update_of_ne hy]
    · rw [hx]
      exact hsize
    · rw [mem_singleton.mp hq]
      simpa [KvCells.isEmpty] using he
    · rw [mem_singleton.mp hq, hx]
      exact (congrFun hpos dst).trans (update_self _ _ _)
    · rw [mem_singleton.mp hq, hx]
      show c.ext dst = k.ext
      rw [hc, if_pos h2]
      exact update_self _ _ _
    · rw [mem_singleton.mp hq, hx, hseq', update_self, hseq]
    · rw [hx]
      show i ∈ c.used ↔ _
      rw [hused, Finset.mem_insert, or_comm]
      simp [hdst]
    · have hi := hi k (mem_singleton.mpr rfl)
      rw [hx]
      show Cell.mk (c.pos i) (c.ext i) (c.shift i) ((c.seqAdd dst s).seq i) = _
      rw [hpos, hext i hi, hshift, hseq', update_of_ne hi, update_of_ne hi, hseq]
      rfl
  · cases e

/-- The cells after the loop over the saved cells, each of which has a cell of its own. -/
theorem installCells_at : ∀ {ks : List SavedCell} {st : KvCache},
    (ks.map fun k => r.cell st.cfg k.sourceCell).Nodup →
    installCells s is2d r ks st = .ok st' →
    InstalledAt st st' (st.cfg.seqToStream s) s is2d (fun q => r.cell st.cfg q.sourceCell) ks := by
  intro ks
  induction ks with
  | nil =>
    intro st _ e
    cases e
    exact ⟨rfl, fun _ _ => rfl, rfl, by simp, by simp, by simp, by simp, by simp, fun _ _ => rfl⟩
  | cons k ks ih =>
    intro st hnd e
    rw [map_cons, nodup_cons, mem_map] at hnd
    obtain ⟨hk, hnd⟩ := hnd
    unfold installCells at e
    split at e
    · cases e
    next st₁ e1 =>
    have h1 := installCell_at e1
    have h₂ := ih (by rw [h1.cfg]; exact hnd) e
    rw [h1.cfg] at h₂
    -- The other saved cells go to other cells.
    have hne : ∀ q ∈ ks, r.cell st.cfg q.sourceCell ≠ r.cell st.cfg k.sourceCell :=
      fun q hq he => hk ⟨q, hq, he⟩
    have hold : ∀ q ∈ ks, (st₁.cells (st.cfg.seqToStream s)).cell (r.cell st.cfg q.sourceCell) =
        (st.cells (st.cfg.seqToStream s)).cell (r.cell st.cfg q.sourceCell) := fun q hq =>
      h1.old _ fun k' hk' => by rw [mem_singleton.mp hk']; exact hne q hq
    have hnew : (st'.cells (st.cfg.seqToStream s)).cell (r.cell st.cfg k.sourceCell) =
        (st₁.cells (st.cfg.seqToStream s)).cell (r.cell st.cfg k.sourceCell) :=
      h₂.old _ fun q hq he => hne q hq he.symm
    have hself := mem_singleton.mpr (rfl : k = k)
    refine ⟨h₂.cfg.trans h1.cfg, fun y hy => (h₂.other y hy).trans (h1.other y hy),
      h₂.size.trans h1.size, fun q hq => ?_, fun q hq => ?_, fun h2 q hq => ?_, fun q hq => ?_,
      fun i => ?_, fun i hi => ?_⟩
    · rcases mem_cons.mp hq with rfl | hq
      · exact h1.free q hself
      · rw [← cell_pos, ← hold q hq]
        exact h₂.free q hq
    · rcases mem_cons.mp hq with rfl | hq
      · rw [← cell_pos, hnew]
        exact h1.pos q hself
      · exact h₂.pos q hq
    · rcases mem_cons.mp hq with rfl | hq
      · rw [← cell_ext, hnew]
        exact h1.ext h2 q hself
      · exact h₂.ext h2 q hq
    · rcases mem_cons.mp hq with rfl | hq
      · rw [← cell_seq, hnew]
        exact h1.seq q hself
      · rw [h₂.seq q hq, ← cell_seq, hold q hq, cell_seq]
    · rw [h₂.used, h1.used]
      simp only [mem_cons, not_mem_nil, or_false, exists_eq_left, exists_eq_or_imp, or_assoc]
    · rw [h₂.old i fun q hq => hi q (mem_cons_of_mem k hq)]
      exact h1.old i fun q hq => by
        rw [mem_singleton.mp hq]
        exact hi k mem_cons_self

end Cells

/-! ## The removal -/

/-- The saved cells of all streams. -/
def savedCells (m : Manifest) : List SavedCell := m.streams.flatMap (·.cells)

/-- The cells of the stream of sequence `s` after its removal. -/
def clearedCells (st : KvCache) (s : Nat) : KvCells :=
  (st.seqRm s (-1) (-1)).1.cells (st.cfg.seqToStream s)

/-- Sequence `s` was removed, but from the cells at `INT32_MAX`. -/
structure Cleared (st st₁ : KvCache) (s : Nat) : Prop where
  cfg : st₁.cfg = st.cfg
  cells : st₁.cells (st.cfg.seqToStream s) = st.clearedCells s
  other : ∀ y, y ≠ st.cfg.seqToStream s → st₁.cells y = st.cells y
  ok : (st.clearedCells s).CellsOk st.cfg.kvSize
  cell : ∀ i, (st.clearedCells s).cell i =
    ((st.cells (st.cfg.seqToStream s)).cell i).rmSeq s 0 INT32_MAX

section Removal

variable {st st₁ st' : KvCache} {s : Nat} {m : Manifest} {r : Remap}

theorem seqRm_cleared (h : st.Inv) (e : st.seqRm s (-1) (-1) = (st₁, .ok true)) :
    Cleared st st₁ s := by
  have hc : st₁.cells (st.cfg.seqToStream s) = st.clearedCells s := by
    unfold clearedCells
    rw [e]
  have e1 := seqRm_whole e
  obtain ⟨-, -, hcfg, -⟩ := seqRmUnchecked_alloc e1
  obtain ⟨_, _, _, _, _, heq, -⟩ := seqRmUnchecked_eq e1
  have hcells : st₁.cells = Function.update st.cells (st.cfg.seqToStream s)
      (sweep (rmCell s 0 INT32_MAX) (st.cells (st.cfg.seqToStream s))).1 := by
    rw [heq]
    rfl
  have hx := h.cells (st.cfg.seqToStream s)
  obtain ⟨hok, hcell⟩ := rmSeq_sweep hx.toCellsOk s 0 INT32_MAX
  have hself : st.clearedCells s =
      (sweep (rmCell s 0 INT32_MAX) (st.cells (st.cfg.seqToStream s))).1 := by
    rw [← hc, hcells, update_self]
  refine ⟨hcfg, hc, fun y hy => ?_, hself ▸ hok, fun i => ?_⟩
  · rw [hcells, update_of_ne hy]
  · rw [hself, hcell]
    split
    · rfl
    · next hi =>
      -- There is no sequence behind the last cell.
      have hn : ¬ ((st.cells (st.cfg.seqToStream s)).cell i).Holds s 0 INT32_MAX := fun hh =>
        hi (hx.size ▸ hx.toCellsOk.lt_of_mem hh.2.2)
      exact (if_neg hn).symm

/-- The parts of a restore that returned. -/
theorem installSequence_ok (e : installSequence s m st = .ok (st', r)) :
    ∃ st₁, st.seqRm s (-1) (-1) = (st₁, .ok true) ∧
      sourceCellsOk (st₁.cells (st₁.cfg.seqToStream s)) (savedCells m) = true ∧
      remapGroups st₁.cfg (st₁.cells (st₁.cfg.seqToStream s)) (savedCells m)
        (sourceGroups st₁.cfg (st₁.cells (st₁.cfg.seqToStream s)) (savedCells m))
        { stageOwner := stageOwner st₁.cfg (st₁.cells (st₁.cfg.seqToStream s)) } = .ok r ∧
      installCells s (decide (m.nPosPerEmbd > 1)) r (savedCells m) st₁ = .ok st' := by
  obtain ⟨⟨st₁, b⟩, e1, e⟩ := bind_ok e
  split at e
  · cases e
  next hb =>
  dsimp only at e
  split at e
  · cases e
  next hok =>
  obtain ⟨r', e2, e⟩ := bind_ok e
  obtain ⟨st2, e3, e⟩ := bind_ok e
  cases e
  have hb : b = true := by simpa using hb
  refine ⟨st₁, ?_, by simpa [savedCells] using hok, e2, e3⟩
  rw [lift_ok e1]
  exact congrArg _ (congrArg Except.ok hb)

theorem lift_ne_noGroup {α : Type} (o : COut α) : lift o ≠ .error .noGroup := by
  unfold lift
  split
  · exact fun h => (by cases Except.error.inj h)
  · exact fun h => (by cases h)

theorem installCells_ne_noGroup {is2d : Bool} : ∀ {ks : List SavedCell} {st : KvCache},
    installCells s is2d r ks st ≠ .error .noGroup := by
  intro ks
  induction ks with
  | nil => exact fun h => (by cases h)
  | cons k ks ih =>
    intro st
    unfold installCells
    split
    · next e he =>
      unfold installCell at he
      dsimp only at he
      split at he
      · cases he
      · obtain rfl := Except.error.inj he
        exact fun h => (by cases Except.error.inj h)
    · exact ih

/-- A restore that found no group. -/
theorem installSequence_noGroup (e : installSequence s m st = .error .noGroup) :
    ∃ st₁, st.seqRm s (-1) (-1) = (st₁, .ok true) ∧
      remapGroups st₁.cfg (st₁.cells (st₁.cfg.seqToStream s)) (savedCells m)
        (sourceGroups st₁.cfg (st₁.cells (st₁.cfg.seqToStream s)) (savedCells m))
        { stageOwner := stageOwner st₁.cfg (st₁.cells (st₁.cfg.seqToStream s)) } =
          .error .noGroup := by
  rcases bind_error e with e1 | ⟨⟨st₁, b⟩, e1, e⟩
  · exact absurd e1 (lift_ne_noGroup _)
  split at e
  · cases Except.error.inj e
  next hb =>
  have hb : b = true := by simpa using hb
  dsimp only at e
  split at e
  · cases Except.error.inj e
  refine ⟨st₁, ?_, ?_⟩
  · rw [lift_ok e1]
    exact congrArg _ (congrArg Except.ok hb)
  · rcases bind_error e with e2 | ⟨r', e2, e⟩
    · exact e2
    rcases bind_error e with e3 | ⟨st2, e3, e⟩
    · exact absurd e3 installCells_ne_noGroup
    · cases e

end Removal

/-! ## Soundness -/

/-- The used cells of a group, by the set of the used cells. -/
def usedCells (cfg : CacheCfg) (c : KvCells) (g : Nat) : Nat :=
  (groupCells cfg g).countP fun i => decide (i ∈ c.used)

/-- The group is partly filled. Group `0` is one too. -/
structure PartlyUsed (cfg : CacheCfg) (c : KvCells) (g : Nat) : Prop where
  lt : g < cfg.nGroups
  pos : 0 < usedCells cfg c g
  part : usedCells cfg c g < cfg.allocationGroupSize

/-- What a restore of sequence `s` that returns `st'` promises. -/
structure RemapSound (st st' : KvCache) (s : Nat) (m : Manifest) (r : Remap) : Prop where
  /-- Every source group has one destination. -/
  destination : ∀ k ∈ savedCells m, (k.sourceCell / st.cfg.stateRemapGroupSize,
    r.at (k.sourceCell / st.cfg.stateRemapGroupSize)) ∈ r.groups
  sources : (r.groups.map (·.1)).Nodup
  injective : (r.groups.map (·.2)).Nodup
  /-- A destination was empty after the removal. -/
  empty : ∀ p ∈ r.groups, ∀ k, k < st.cfg.stateRemapGroupSize →
    (st.clearedCells s).isEmpty (p.2 * st.cfg.stateRemapGroupSize + k) = true
  /-- A cell keeps its offset in its group. -/
  offset : ∀ k ∈ savedCells m,
    r.cell st.cfg k.sourceCell / st.cfg.stateRemapGroupSize =
      r.at (k.sourceCell / st.cfg.stateRemapGroupSize) ∧
    r.cell st.cfg k.sourceCell % st.cfg.stateRemapGroupSize =
      k.sourceCell % st.cfg.stateRemapGroupSize
  placed : ∀ k ∈ savedCells m,
    s ∈ (st'.cells (st.cfg.seqToStream s)).seq (r.cell st.cfg k.sourceCell) ∧
    (st'.cells (st.cfg.seqToStream s)).pos (r.cell st.cfg k.sourceCell) = k.pos ∧
    (m.nPosPerEmbd > 1 →
      (st'.cells (st.cfg.seqToStream s)).ext (r.cell st.cfg k.sourceCell) = k.ext)
  /-- The sequence has exactly the saved positions. -/
  positions : (((List.range (st'.cells (st.cfg.seqToStream s)).size).filter fun i =>
    (st'.cells (st.cfg.seqToStream s)).seqHas i s).map
      (st'.cells (st.cfg.seqToStream s)).pos).Perm ((savedCells m).map (·.pos))
  streams : ∀ y, y ≠ st.cfg.seqToStream s → st'.cells y = st.cells y
  others : ∀ i t, t ≠ s → (t ∈ (st'.cells (st.cfg.seqToStream s)).seq i ↔
    t ∈ (st.cells (st.cfg.seqToStream s)).seq i)
  kept : ∀ i t, t ≠ s → t ∈ (st.cells (st.cfg.seqToStream s)).seq i →
    (st'.cells (st.cfg.seqToStream s)).pos i = (st.cells (st.cfg.seqToStream s)).pos i ∧
    (st'.cells (st.cfg.seqToStream s)).ext i = (st.cells (st.cfg.seqToStream s)).ext i ∧
    (st'.cells (st.cfg.seqToStream s)).shift i = (st.cells (st.cfg.seqToStream s)).shift i
  /-- A partly filled destination shares its stage slot with no partly filled group. -/
  slots : stageAware st.cfg = true → ∀ p ∈ r.groups, ∀ g,
    PartlyUsed st.cfg (st'.cells (st.cfg.seqToStream s)) p.2 →
    PartlyUsed st.cfg (st'.cells (st.cfg.seqToStream s)) g →
    st.cfg.stageSlot p.2 = st.cfg.stageSlot g → p.2 = g

/-- The search ran into a source group for which nothing fits, so that there is no assignment. -/
structure NoRoom (st : KvCache) (s : Nat) (m : Manifest) : Prop where
  stuck : Stuck (Fits st.cfg (st.clearedCells s) (savedCells m))
    (candidates st.cfg (st.clearedCells s))
    (sourceGroups st.cfg (st.clearedCells s) (savedCells m)) []
  none : ∀ out, ¬ Assigns (Fits st.cfg (st.clearedCells s) (savedCells m))
    (candidates st.cfg (st.clearedCells s))
    (sourceGroups st.cfg (st.clearedCells s) (savedCells m)) [] out

section Sound

variable {st st₁ st' : KvCache} {s : Nat} {m : Manifest} {r : Remap}

theorem rmSeq_kept {k : Cell} {t : Nat} (p0 p1 : Int) (hne : t ≠ s) (h : t ∈ k.seq) :
    (k.rmSeq s p0 p1).pos = k.pos ∧ (k.rmSeq s p0 p1).ext = k.ext ∧
      (k.rmSeq s p0 p1).shift = k.shift := by
  unfold rmSeq erase
  split
  · rw [if_neg (Finset.ne_empty_of_mem (Finset.mem_erase.mpr ⟨hne, h⟩))]
    exact ⟨rfl, rfl, rfl⟩
  · exact ⟨rfl, rfl, rfl⟩

/-! ### The destinations of the cells -/

section Destination

variable {cfg : CacheCfg} {c : KvCells} {saved : List SavedCell} {owner : Nat → Option Nat}
  (h : RemapOk cfg c saved owner (sourceGroups cfg c saved) r)

include h

/-- There is a group for a saved cell, so the groups have cells. -/
theorem RemapOk.group_pos {k : SavedCell} (hk : k ∈ saved) (hlt : k.sourceCell < c.size) :
    0 < cfg.stateRemapGroupSize := by
  have hd := h.lt _ (h.mem_at hk hlt)
  by_contra h0
  simp [Nat.eq_zero_of_not_pos h0] at hd

theorem RemapOk.offset {k : SavedCell} (hk : k ∈ saved) (hlt : k.sourceCell < c.size) :
    r.cell cfg k.sourceCell / cfg.stateRemapGroupSize =
      r.at (k.sourceCell / cfg.stateRemapGroupSize) ∧
    r.cell cfg k.sourceCell % cfg.stateRemapGroupSize = k.sourceCell % cfg.stateRemapGroupSize := by
  have hg := h.group_pos hk hlt
  unfold Remap.cell
  rw [Nat.mul_comm, mul_add_div hg, div_eq_of_lt (mod_lt _ hg), Nat.add_zero, mul_add_mod, mod_mod]
  exact ⟨rfl, rfl⟩

/-- The source group of a destination. -/
theorem RemapOk.source_unique {p q : Nat × Nat} (hp : p ∈ r.groups) (hq : q ∈ r.groups)
    (e : p.2 = q.2) : p = q := inj_on_of_nodup_map h.nodup hp hq e

theorem RemapOk.cell_inj {k q : SavedCell} (hk : k ∈ saved) (hq : q ∈ saved)
    (hlt : k.sourceCell < c.size) (hlt' : q.sourceCell < c.size)
    (e : r.cell cfg k.sourceCell = r.cell cfg q.sourceCell) : k.sourceCell = q.sourceCell := by
  obtain ⟨hd, hm⟩ := h.offset hk hlt
  obtain ⟨hd', hm'⟩ := h.offset hq hlt'
  have hat := h.source_unique (h.mem_at hk hlt) (h.mem_at hq hlt')
    (hd.symm.trans ((congrArg (· / cfg.stateRemapGroupSize) e).trans hd'))
  have hmod : k.sourceCell % cfg.stateRemapGroupSize = q.sourceCell % cfg.stateRemapGroupSize :=
    hm.symm.trans ((congrArg (· % cfg.stateRemapGroupSize) e).trans hm')
  have hdiv := congrArg Prod.fst hat
  dsimp only at hdiv
  rw [← div_add_mod k.sourceCell cfg.stateRemapGroupSize, hdiv, hmod, div_add_mod]

theorem RemapOk.cells_nodup (hnd : (saved.map (·.sourceCell)).Nodup)
    (hlt : ∀ k ∈ saved, k.sourceCell < c.size) :
    (saved.map fun k => r.cell cfg k.sourceCell).Nodup := by
  have hmap : (saved.map fun k => r.cell cfg k.sourceCell) =
      (saved.map (·.sourceCell)).map (r.cell cfg) := by
    rw [map_map]
    rfl
  rw [hmap]
  refine hnd.map_on fun a ha b hb e => ?_
  obtain ⟨k, hk, rfl⟩ := mem_map.mp ha
  obtain ⟨q, hq, rfl⟩ := mem_map.mp hb
  exact h.cell_inj hk hq (hlt k hk) (hlt q hq) e

end Destination

/-- What the proof knows of a restore that returned. -/
structure Remapped (st st₁ st' : KvCache) (s : Nat) (m : Manifest) (r : Remap) : Prop where
  inv : st.Inv
  cleared : Cleared st st₁ s
  distinct : ((savedCells m).map (·.sourceCell)).Nodup
  lt : ∀ k ∈ savedCells m, k.sourceCell < (st.clearedCells s).size
  ok : RemapOk st.cfg (st.clearedCells s) (savedCells m)
    (stageOwner st.cfg (st.clearedCells s))
    (sourceGroups st.cfg (st.clearedCells s) (savedCells m)) r
  dest : Destinations st.cfg (st.clearedCells s) (savedCells m) r.groups
  installed : InstalledAt st₁ st' (st.cfg.seqToStream s) s (decide (m.nPosPerEmbd > 1))
    (fun q => r.cell st.cfg q.sourceCell) (savedCells m)

theorem Remapped.of_ok (h : st.Inv) (e : installSequence s m st = .ok (st', r)) :
    ∃ st₁, Remapped st st₁ st' s m r := by
  obtain ⟨st₁, e1, hok, e2, e3⟩ := installSequence_ok e
  have hc := seqRm_cleared h e1
  rw [hc.cfg, hc.cells] at hok e2
  unfold sourceCellsOk at hok
  rw [Bool.and_eq_true, all_eq_true, decide_eq_true_eq] at hok
  obtain ⟨hlt, hnd⟩ := hok
  have hlt : ∀ k ∈ savedCells m, k.sourceCell < (st.clearedCells s).size :=
    fun k hk => of_decide_eq_true (hlt k hk)
  have hrok := remapGroups_spec _ e2
  have hi := installCells_at (by
    rw [hc.cfg]
    exact hrok.cells_nodup hnd hlt) e3
  rw [hc.cfg] at hi
  exact ⟨st₁, h, hc, hnd, hlt, hrok, .of_assigns ((remapGroups_assigns ownersOk_start).1 r e2), hi⟩

/-! ### The cells after the restore -/

section Cells

variable (R : Remapped st st₁ st' s m r)

include R

/-- A destination cell was free, and another one is as after the removal. -/
theorem Remapped.free {k : SavedCell} (hk : k ∈ savedCells m) :
    (st.clearedCells s).pos (r.cell st.cfg k.sourceCell) = -1 := by
  rw [← R.cleared.cells]
  exact R.installed.free k hk

variable {i : Nat}

theorem Remapped.old (hi : ∀ k ∈ savedCells m, i ≠ r.cell st.cfg k.sourceCell) :
    (st'.cells (st.cfg.seqToStream s)).cell i = (st.clearedCells s).cell i := by
  rw [R.installed.old i hi, R.cleared.cells]

/-- A cell with a sequence after the removal is no destination. -/
theorem Remapped.ne_dest {i t : Nat} (ht : t ∈ (st.clearedCells s).seq i) :
    ∀ k ∈ savedCells m, i ≠ r.cell st.cfg k.sourceCell := by
  rintro k hk rfl
  exact R.cleared.ok.toInv.pos_ne_of_mem ht (R.free hk)

theorem Remapped.new_seq {k : SavedCell} (hk : k ∈ savedCells m) :
    (st'.cells (st.cfg.seqToStream s)).seq (r.cell st.cfg k.sourceCell) = {s} := by
  rw [R.installed.seq k hk, R.cleared.cells, R.cleared.ok.toInv.empty _ (R.free hk)]
  rfl

theorem Remapped.mem_cleared {i t : Nat} (hne : t ≠ s) :
    t ∈ (st.clearedCells s).seq i ↔ t ∈ (st.cells (st.cfg.seqToStream s)).seq i := by
  rw [← cell_seq, R.cleared.cell]
  exact ⟨fun h => rmSeq_seq_subset _ _ _ _ h, fun h => mem_rmSeq_of_ne hne h⟩

theorem Remapped.others {i t : Nat} (hne : t ≠ s) : t ∈ (st'.cells (st.cfg.seqToStream s)).seq i ↔
      t ∈ (st.cells (st.cfg.seqToStream s)).seq i := by
  rw [← R.mem_cleared hne]
  by_cases hi : ∀ k ∈ savedCells m, i ≠ r.cell st.cfg k.sourceCell
  · rw [← cell_seq, R.old hi, cell_seq]
  · push Not at hi
    obtain ⟨k, hk, rfl⟩ := hi
    rw [R.new_seq hk, R.cleared.ok.toInv.empty _ (R.free hk), Finset.mem_singleton]
    exact ⟨fun h => absurd h hne, fun h => absurd h (Finset.notMem_empty t)⟩

theorem Remapped.kept {i t : Nat} (hne : t ≠ s) (ht : t ∈ (st.cells (st.cfg.seqToStream s)).seq i) :
    (st'.cells (st.cfg.seqToStream s)).pos i = (st.cells (st.cfg.seqToStream s)).pos i ∧
    (st'.cells (st.cfg.seqToStream s)).ext i = (st.cells (st.cfg.seqToStream s)).ext i ∧
    (st'.cells (st.cfg.seqToStream s)).shift i = (st.cells (st.cfg.seqToStream s)).shift i := by
  have hold := R.old (R.ne_dest ((R.mem_cleared hne).mpr ht))
  rw [R.cleared.cell] at hold
  rw [← cell_pos, ← cell_ext, ← cell_shift, hold]
  exact rmSeq_kept 0 INT32_MAX hne ht

/-- A cell of the sequence that the removal left. -/
theorem Remapped.mem_self : s ∈ (st.clearedCells s).seq i ↔
    s ∈ (st.cells (st.cfg.seqToStream s)).seq i ∧
      (INT32_MAX : Int) ≤ (st.cells (st.cfg.seqToStream s)).pos i := by
  have hx := (R.inv.cells (st.cfg.seqToStream s)).toCellsOk
  rw [← cell_seq, R.cleared.cell]
  unfold rmSeq
  split
  · next hh =>
    refine ⟨fun h => ?_, fun h => absurd hh.2.1 (not_lt.mpr h.2)⟩
    unfold erase at h
    split at h
    · exact absurd h (Finset.notMem_empty s)
    · exact absurd rfl (Finset.mem_erase.mp h).1
  · next hh =>
    refine ⟨fun h => ⟨h, not_lt.mp fun hlt => hh ⟨?_, hlt, h⟩⟩, fun h => h.1⟩
    exact (hx.ok i).nonneg (hx.toInv.pos_ne_of_mem h)

/-- The cells of the sequence after the restore: the destinations, and what the removal left. -/
theorem Remapped.mem_seq : s ∈ (st'.cells (st.cfg.seqToStream s)).seq i ↔
    i ∈ ((savedCells m).map fun k => r.cell st.cfg k.sourceCell) ∨
      s ∈ (st.clearedCells s).seq i := by
  rw [mem_map]
  by_cases hi : ∀ k ∈ savedCells m, i ≠ r.cell st.cfg k.sourceCell
  · rw [← cell_seq, R.old hi, cell_seq, or_iff_right]
    rintro ⟨k, hk, rfl⟩
    exact hi k hk rfl
  · push Not at hi
    obtain ⟨k, hk, rfl⟩ := hi
    rw [R.new_seq hk]
    exact ⟨fun _ => .inl ⟨k, hk, rfl⟩, fun _ => Finset.mem_singleton.mpr rfl⟩

/-! ### The positions -/

/-- The sequence has exactly the saved positions if the removal left none of its cells. -/
theorem Remapped.positions (hm : ∀ i, s ∈ (st.cells (st.cfg.seqToStream s)).seq i →
      (st.cells (st.cfg.seqToStream s)).pos i < INT32_MAX) :
    (((List.range (st'.cells (st.cfg.seqToStream s)).size).filter fun i =>
      (st'.cells (st.cfg.seqToStream s)).seqHas i s).map
        (st'.cells (st.cfg.seqToStream s)).pos).Perm ((savedCells m).map (·.pos)) := by
  have hsize : (st'.cells (st.cfg.seqToStream s)).size = (st.clearedCells s).size := by
    rw [R.installed.size, R.cleared.cells]
  have hcells : ((List.range (st'.cells (st.cfg.seqToStream s)).size).filter fun i =>
      (st'.cells (st.cfg.seqToStream s)).seqHas i s).Perm
        ((savedCells m).map fun k => r.cell st.cfg k.sourceCell) := by
    rw [perm_ext_iff_of_nodup (nodup_range.filter _) (R.ok.cells_nodup R.distinct R.lt)]
    intro i
    rw [mem_filter, mem_range, hsize]
    have hseq : (st'.cells (st.cfg.seqToStream s)).seqHas i s = true ↔
        i ∈ (savedCells m).map fun k => r.cell st.cfg k.sourceCell := by
      rw [seqHas, decide_eq_true_eq, R.mem_seq, or_iff_left]
      intro hs
      obtain ⟨hs, hp⟩ := R.mem_self.mp hs
      exact absurd (hm i hs) (not_lt.mpr hp)
    rw [hseq, and_iff_right_of_imp]
    intro hi
    obtain ⟨k, hk, rfl⟩ := mem_map.mp hi
    exact R.ok.cell_lt (R.ok.group_pos hk (R.lt k hk)) hk (R.lt k hk)
  refine (hcells.map _).trans (List.Perm.of_eq ?_)
  rw [map_map]
  exact map_congr_left fun k hk => R.installed.pos k hk

/-- A cell at `INT32_MAX` is one too many. -/
theorem Remapped.lt_of_positions
    (hp : (((List.range (st'.cells (st.cfg.seqToStream s)).size).filter fun i =>
      (st'.cells (st.cfg.seqToStream s)).seqHas i s).map
        (st'.cells (st.cfg.seqToStream s)).pos).Perm ((savedCells m).map
    (·.pos))) (hs : s ∈ (st.cells (st.cfg.seqToStream s)).seq i) :
    (st.cells (st.cfg.seqToStream s)).pos i < INT32_MAX := by
  by_contra hn
  have hleft := R.mem_self.mpr ⟨hs, not_lt.mp hn⟩
  have hsize : (st'.cells (st.cfg.seqToStream s)).size = (st.clearedCells s).size := by
    rw [R.installed.size, R.cleared.cells]
  set dsts := (savedCells m).map fun k => r.cell st.cfg k.sourceCell with hdsts
  set cells := (List.range (st'.cells (st.cfg.seqToStream s)).size).filter fun i =>
    (st'.cells (st.cfg.seqToStream s)).seqHas i s with hcells
  have hnot : i ∉ dsts := by
    intro hi
    obtain ⟨k, hk, rfl⟩ := mem_map.mp hi
    exact R.ne_dest hleft k hk rfl
  have hsub : i :: dsts ⊆ cells := by
    intro j hj
    rw [hcells, mem_filter, mem_range, hsize, KvCells.seqHas, decide_eq_true_eq, R.mem_seq]
    rcases mem_cons.mp hj with rfl | hj
    · exact ⟨R.cleared.ok.size ▸ R.cleared.ok.lt_of_mem hleft, .inr hleft⟩
    · obtain ⟨k, hk, rfl⟩ := mem_map.mp hj
      exact ⟨R.ok.cell_lt (R.ok.group_pos hk (R.lt k hk)) hk (R.lt k hk), .inl hj⟩
  have hle := ((nodup_cons.mpr ⟨hnot, R.ok.cells_nodup R.distinct R.lt⟩).subperm hsub).length_le
  have hlen := hp.length_eq
  rw [length_cons, hdsts, length_map] at hle
  rw [length_map, length_map] at hlen
  omega

/-! ### The stage slots -/

/-- The used cells after the restore: the destinations, and those after the removal. -/
theorem Remapped.mem_used : i ∈ (st'.cells (st.cfg.seqToStream s)).used ↔
    (st.clearedCells s).pos i ≠ -1 ∨ ∃ k ∈ savedCells m, i = r.cell st.cfg k.sourceCell := by
  rw [R.installed.used, R.cleared.cells, R.cleared.ok.toInv.used]
  refine or_congr_left (and_iff_right_of_imp fun hp => ?_)
  by_contra hlt
  exact hp (R.cleared.ok.out i (R.cleared.ok.size ▸ not_lt.mp hlt))

/-- A partly filled group is a destination that needs a stage slot, or it was partly filled after
the removal. -/
theorem Remapped.partlyUsed (ha : stageAware st.cfg = true) {g : Nat}
    (hg : PartlyUsed st.cfg (st'.cells (st.cfg.seqToStream s)) g) :
    (∃ p ∈ r.groups, p.2 = g ∧ NeedsStage st.cfg (savedCells m) p.1) ∨
      (0 < groupUsed st.cfg (st.clearedCells s) g ∧
        groupUsed st.cfg (st.clearedCells s) g < st.cfg.allocationGroupSize) := by
  obtain ⟨hstr, hsize, -⟩ := stageAware_iff.mp ha
  have hgs : 1 < st.cfg.allocationGroupSize := (of_decide_eq_true hstr).1
  by_cases hd : ∃ p ∈ r.groups, p.2 = g
  · obtain ⟨p, hp, rfl⟩ := hd
    refine .inl ⟨p, hp, rfl, ha, ?_⟩
    by_contra hfill
    -- A group that was saved complete is full.
    have hall : usedCells st.cfg (st'.cells (st.cfg.seqToStream s)) p.2 =
        (groupCells st.cfg p.2).length := by
      refine countP_eq_length.mpr fun i hi => decide_eq_true ?_
      exact R.mem_used.mpr (.inr (R.ok.full_cells (by omega) hsize R.lt R.distinct hp
        (by omega) hi))
    have hlen : (groupCells st.cfg p.2).length = st.cfg.allocationGroupSize := groupCells_length p.2
    have := hg.part
    omega
  · right
    have hused : usedCells st.cfg (st'.cells (st.cfg.seqToStream s)) g =
        groupUsed st.cfg (st.clearedCells s) g := by
      refine countP_congr fun i hi => ?_
      rw [decide_eq_true_eq, R.mem_used, or_iff_left]
      · simp [KvCells.isEmpty]
      · rintro ⟨k, hk, rfl⟩
        have hoff := (R.ok.offset hk (R.lt k hk)).1
        rw [hsize, (mem_groupCells (by omega)).mp hi] at hoff
        have hm := R.ok.mem_at hk (R.lt k hk)
        rw [hsize] at hm
        exact hd ⟨_, hm, hoff.symm⟩
    rw [← hused]
    exact ⟨hg.pos, hg.part⟩

theorem Remapped.slots (ha : stageAware st.cfg = true) {p : Nat × Nat} (hp : p ∈ r.groups)
    {g : Nat} (hpu : PartlyUsed st.cfg (st'.cells (st.cfg.seqToStream s)) p.2)
    (hgu : PartlyUsed st.cfg (st'.cells (st.cfg.seqToStream s)) g)
    (hslot : st.cfg.stageSlot p.2 = st.cfg.stageSlot g) : p.2 = g := by
  have hneeds : NeedsStage st.cfg (savedCells m) p.1 := by
    rcases R.partlyUsed ha hpu with ⟨q, hq, hqp, hn⟩ | ⟨hpos, -⟩
    · rwa [R.ok.source_unique hq hp hqp] at hn
    · -- A destination was empty.
      obtain ⟨i, hi, hio⟩ := countP_pos_iff.mp hpos
      obtain ⟨k, hk, rfl⟩ := mem_map.mp hi
      have hsize := (stageAware_iff.mp ha).2.1
      have he := R.dest.empty p hp k (hsize ▸ mem_range.mp hk)
      rw [hsize] at he
      rw [he] at hio
      cases hio
  rcases R.partlyUsed ha hgu with ⟨q, hq, rfl, hn⟩ | ⟨hpos, hpart⟩
  · exact R.dest.apart p hp q hq hneeds hn hslot
  · by_cases h0 : g = 0
    · subst h0
      by_contra hne
      exact stageSlot_pos (one_le_iff_ne_zero.mpr hne) hslot
    · refine absurd (.inl ⟨g, ⟨one_le_iff_ne_zero.mpr h0, hgu.lt, hpos, hpart⟩, hslot.symm⟩)
        (R.dest.slot p hp hneeds)

end Cells

/-- A restore that returns is sound if and only if the sequence had no cell at `INT32_MAX`, and one
that throws for want of a group had no assignment. -/
theorem installSequence_sound_iff (h : st.Inv) :
    (∀ st' r, installSequence s m st = .ok (st', r) → (RemapSound st st' s m r ↔
      ∀ i, s ∈ (st.cells (st.cfg.seqToStream s)).seq i →
        (st.cells (st.cfg.seqToStream s)).pos i < INT32_MAX)) ∧
    (installSequence s m st = .error .noGroup → NoRoom st s m) := by
  refine ⟨fun st' r e => ?_, fun e => ?_⟩
  · obtain ⟨st₁, R⟩ := Remapped.of_ok h e
    refine ⟨fun hs i hi => R.lt_of_positions hs.positions hi, fun hm => ⟨fun k hk =>
      R.ok.mem_at hk (R.lt k hk), ?_, R.ok.nodup, R.dest.empty, fun k hk =>
      R.ok.offset hk (R.lt k hk), fun k hk => ⟨?_, R.installed.pos k hk, fun h2 =>
      R.installed.ext (decide_eq_true h2) k hk⟩, R.positions hm, fun y hy =>
      (R.installed.other y hy).trans (R.cleared.other y hy), fun i t => R.others, fun i t => R.kept,
      fun ha p hp g => R.slots ha hp⟩⟩
    · rw [R.ok.sources]
      exact sourceGroups_nodup
    · rw [R.new_seq hk]
      exact Finset.mem_singleton.mpr rfl
  · obtain ⟨st₁, e1, e2⟩ := installSequence_noGroup e
    have hc := seqRm_cleared h e1
    rw [hc.cfg, hc.cells] at e2
    obtain ⟨-, hstuck⟩ := (remapGroups_assigns ownersOk_start).2 _ e2
    exact ⟨hstuck, fun out => hstuck.not_assigns⟩

end Sound

/-! ## Two saved cells -/

/-- The restore of two cells into an empty cache. -/
theorem nineGroups_installSequence : ∃ st' r,
    installSequence 0 savedPair nineGroups = .ok (st', r) ∧
      RemapSound nineGroups st' 0 savedPair r := by
  have hok : (installSequence 0 savedPair nineGroups).toOption.isSome = true := by decide +kernel
  cases e : installSequence 0 savedPair nineGroups with
  | error e' =>
    rw [e] at hok
    cases hok
  | ok out =>
    have hinv : nineGroups.Inv := ((nineGroups_reach _).inv stageInv_inductive).inv
    exact ⟨out.1, out.2, rfl, ((installSequence_sound_iff hinv).1 out.1 out.2 e).mpr
      fun i hi => absurd hi (Finset.notMem_empty 0)⟩

/-- Sequence `0` with a token at the last position. -/
def lastPosition : KvCache := decoded nineGroups (oneToken 0 INT32_MAX) ⟨0, 0, [0], [[0]]⟩

/-- The cell at the last position stays beside the two restored ones. -/
theorem not_installSequence_sound : ¬ ∀ (st st' : KvCache) (s : Nat) (m : Manifest) (r : Remap),
    stageSys.Reach (fun st op => op.Keeps st) st → installSequence s m st = .ok (st', r) →
      RemapSound st st' s m r := by
  intro h
  have hreach : stageSys.Reach (fun st op => op.Keeps st) lastPosition :=
    Reach.decoded (nineGroups_reach _) (oneToken_ok (by decide) (by decide)) (by decide +kernel)
      (by decide +kernel) trivial
  have hcount : ((installSequence 0 savedPair lastPosition).toOption.map fun o =>
      ((List.range (o.1.cells (lastPosition.cfg.seqToStream 0)).size).filter fun i =>
        (o.1.cells (lastPosition.cfg.seqToStream 0)).seqHas i 0).length) = some 3 := by
    decide +kernel
  cases e : installSequence 0 savedPair lastPosition with
  | error e' =>
    rw [e] at hcount
    cases hcount
  | ok out =>
    rw [e] at hcount
    have hlen := (h lastPosition out.1 0 savedPair out.2 hreach e).positions.length_eq
    rw [length_map, length_map] at hlen
    exact absurd ((Option.some.inj hcount).symm.trans hlen) (by decide)

end BeeLlama.KvCache
