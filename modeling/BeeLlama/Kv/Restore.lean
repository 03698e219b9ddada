import BeeLlama.Kv.Manifest
import BeeLlama.Kv.Stage
import BeeLlama.Lib.Fallible

/-!
# The self-contained restore of a sequence

`llama_kv_cache_kvarn::state_read` restores one sequence into a clone of the metadata cache and
swaps the clone in when the whole state was accepted, so that a restore that throws changes nothing.
The saved cells of a group go to one empty group (`remapGroup`), their own if it is free. A group
that was saved partly filled needs a stage slot, and takes no group whose slot a partly filled group
holds. Then the head of the sequence and the flags of all sealed groups are rebuilt.

Here the manifest is one that `state_v2_read_manifest` accepted, of version 4 or later. The payload
of the rows is not modelled.

* `remapGroups_spec`: the saved groups go to distinct empty groups, and a partly filled one to a
  group whose stage slot is free.
* `installCells_spec`: what the cells hold after the restore.
* `restoreSelfContained_spec`: the whole restore.
-/

namespace BeeLlama

open List Function Nat TailStore KvCache KvCells

/-- What the restore throws. -/
inductive RestoreError where
  | kv (e : KvError)
  | transaction
  | outOfRange
  | clearFailed
  | sourceCell
  | noGroup
  | occupied
  | configuration
  | identity
  | noSlot
  deriving DecidableEq, Repr

/-- The text of the exception. -/
def RestoreError.what : RestoreError → String
  | .kv e => e.what
  | .transaction => "cannot clone KV cache logical state during a transaction"
  | .outOfRange => "vector::_M_range_check"
  | .clearFailed => "failed to clear KV state destination sequence"
  | .sourceCell => "invalid self-contained KV state source cell"
  | .noGroup => "failed to allocate a complete KV state destination group"
  | .occupied => "self-contained KV state destination cell is occupied"
  | .configuration => "KV tail state configuration does not match the context"
  | .identity => "KV tail state destination identity is out of range"
  | .noSlot => "KV tail state could not reserve an exact payload slot"

/-- The positions of the saved cells are ones of tokens. -/
def Manifest.Positions (m : Manifest) : Prop := ∀ k ∈ m.streams.flatMap (·.cells), 0 ≤ k.pos

namespace KvCache

open KvCells

/-- The result of a call of the cache, as an exception of the restore. -/
def lift {α : Type} (o : COut α) : Except RestoreError (KvCache × α) :=
  match o with
  | (_, .error e) => .error (.kv e)
  | (st, .ok a) => .ok (st, a)

/-- `make_metadata_cache()->clone_logical_state_from(*metadata)`. -/
def cloneLogicalState (st : KvCache) : Except RestoreError KvCache :=
  if st.tailPreparing then .error .transaction
  else
    let cells := fun x =>
      if x < st.cfg.nStream then
        (KvCells.empty.resize st.cfg.kvSize).set 0 ((st.cells x).cp 0 (st.cells x).size)
      else KvCells.empty.resize st.cfg.kvSize
    let clone (tail : Option TailStore) : KvCache :=
      { cfg := st.cfg
        cells := cells
        heads := st.heads
        allocationSeqHeads := st.allocationSeqHeads
        allocationGroupSealed := st.allocationGroupSealed
        tail := tail
        tailGenerations := st.tailGenerations
        tailGenerationsBeforeBatch := st.tailGenerationsBeforeBatch
        tailOrdinal := st.tailOrdinal }
    match st.tail with
    | none => .ok (clone none)
    | some t =>
      match TailStore.cloneLogicalStateFrom { cfg := t.cfg } t with
      | (_, .error e) => .error (.kv (.tail e))
      | (t, .ok ()) => .ok (clone (some t))

/-! ## The groups -/

/-- The variables of the search for destination groups. -/
structure Remap where
  /-- `stage_owner`. -/
  stageOwner : Nat → Option Nat := fun _ => none
  /-- `destination_groups`; its values are `reserved_groups`. -/
  groups : List (Nat × Nat) := []

section Groups

variable (cfg : CacheCfg) (c : KvCells)

/-- The source cells are cells of the stream, each one once. -/
def sourceCellsOk (saved : List SavedCell) : Bool :=
  (saved.all fun k => decide (k.sourceCell < c.size)) && decide (saved.map (·.sourceCell)).Nodup

/-- `source_group_fill`. -/
def sourceGroupFill (saved : List SavedCell) (group : Nat) : Nat :=
  saved.countP fun k => k.sourceCell / cfg.stateRemapGroupSize == group

/-- `source_groups`, a set in ascending order. -/
def sourceGroups (saved : List SavedCell) : List Nat :=
  (List.range c.size).filter fun g => saved.any fun k => k.sourceCell / cfg.stateRemapGroupSize == g

/-- `stage_aware`. -/
def stageAware : Bool :=
  cfg.structured && decide (cfg.stateRemapGroupSize = cfg.allocationGroupSize) &&
    decide (cfg.allocationStageGroups > 0)

/-- The stage slots of the partly filled groups, and of group `0` if its first cell is used. -/
def stageOwner : Nat → Option Nat :=
  if stageAware cfg then
    let owner := (List.range cfg.nGroups).tail.foldl
      (fun owner g =>
        if groupUsed cfg c g = 0 ∨ groupUsed cfg c g ≥ cfg.allocationGroupSize then owner
        else Function.update owner (cfg.stageSlot g) (some g)) fun _ => none
    if c.isEmpty 0 then owner else Function.update owner 0 (some 0)
  else fun _ => none

/-- The group can be the destination. -/
def destinationOk (r : Remap) (needsStage : Bool) (group : Nat) : Bool :=
  !(r.groups.any fun p => p.2 == group) &&
    !(needsStage && (r.stageOwner (cfg.stageSlot group)).isSome) &&
    (List.range cfg.stateRemapGroupSize).all fun k =>
      c.isEmpty (group * cfg.stateRemapGroupSize + k)

/-- The destination of one source group: the group itself, or the first other one. -/
def remapGroup (saved : List SavedCell) (r : Remap) (source : Nat) : Except RestoreError Remap :=
  let needsStage := stageAware cfg &&
    decide (sourceGroupFill cfg saved source < cfg.stateRemapGroupSize)
  let all := List.range (c.size / cfg.stateRemapGroupSize)
  match (all.filter (· == source) ++ all.filter (· != source)).find?
      (destinationOk cfg c r needsStage) with
  | none => .error .noGroup
  | some d => .ok
    { stageOwner :=
        if needsStage then Function.update r.stageOwner (cfg.stageSlot d) (some d)
        else r.stageOwner
      groups := r.groups ++ [(source, d)] }

/-- The loop over the source groups. -/
def remapGroups (saved : List SavedCell) : List Nat → Remap → Except RestoreError Remap
  | [], r => .ok r
  | g :: gs, r =>
    match remapGroup cfg c saved r g with
    | .error e => .error e
    | .ok r => remapGroups saved gs r

/-- `destination_groups.at(source_group)`. -/
def Remap.at (r : Remap) (source : Nat) : Nat := (r.groups.lookup source).getD 0

/-- The destination of a saved cell. -/
def Remap.cell (r : Remap) (source : Nat) : Nat :=
  r.at (source / cfg.stateRemapGroupSize) * cfg.stateRemapGroupSize +
    source % cfg.stateRemapGroupSize

end Groups

/-! ## The cells -/

/-- The cache with another generation for cell `i` of stream `x`. -/
def setGeneration (st : KvCache) (x i generation : Nat) : KvCache :=
  { st with
    tailGenerations := Function.update st.tailGenerations x
      (Function.update (st.tailGenerations x) i generation) }

/-- A saved cell is installed for sequence `s`. -/
def installCell (s : Nat) (is2d : Bool) (r : Remap) (st : KvCache) (k : SavedCell) :
    Except RestoreError KvCache :=
  let x := st.cfg.seqToStream s
  let dst := r.cell st.cfg k.sourceCell
  if (st.cells x).isEmpty dst then
    let c := (st.cells x).posSet dst k.pos
    let c := if is2d then c.extSet dst k.ext else c
    let st := st.setCells x (c.seqAdd dst s)
    .ok (if st.tail.isSome then st.setGeneration x dst k.generation else st)
  else .error .occupied

/-- The loop over the saved cells. -/
def installCells (s : Nat) (is2d : Bool) (r : Remap) :
    List SavedCell → KvCache → Except RestoreError KvCache
  | [], st => .ok st
  | k :: ks, st =>
    match st.installCell s is2d r k with
    | .error e => .error e
    | .ok st => installCells s is2d r ks st

/-! ## The tail -/

/-- One record of the exact tail. -/
def restoreRecord (s version : Nat) (restored : List (List Nat)) (st : KvCache) (r : TailRecord) :
    Except RestoreError KvCache :=
  let x := st.cfg.seqToStream s
  let dst := (restored.getD r.stream []).getD r.bodyOrdinal 0
  if st.cfg.nStream ≤ x ∨ st.cfg.kvSize ≤ dst then .error .identity
  else
    let st := st.setGeneration x dst r.generation
    match st.tail with
    | none => .error .configuration
    | some t =>
      match (if version ≥ LLAMA_KV_TAIL_STATE_VERSION then
          t.restore s ⟨x, dst, r.generation⟩ r.position r.insertionOrdinal r.localSlot
        else t.commit s ⟨x, dst, r.generation⟩ r.position r.insertionOrdinal UINT32_MAX) with
      | (_, .error e) => .error (.kv (.tail e))
      | (t, .ok slot) => if slot < 0 then .error .noSlot else .ok { st with tail := some t }

/-- The loop over the records. -/
def restoreRecords (s version : Nat) (restored : List (List Nat)) :
    List TailRecord → KvCache → Except RestoreError KvCache
  | [], st => .ok st
  | r :: rs, st =>
    match st.restoreRecord s version restored r with
    | .error e => .error e
    | .ok st => restoreRecords s version restored rs st

/-- The loop over the write cursors. -/
def restoreCursors (s : Nat) : List Nat → KvCache → Except RestoreError KvCache
  | [], st => .ok st
  | c :: cs, st =>
    match lift (st.onTail fun t => t.restoreWriteCursor s c) with
    | .error e => .error e
    | .ok (st, _) => restoreCursors s cs st

/-- The tail of a body-only state: none of the sequence is exact. -/
def degradeTail (s : Nat) (st : KvCache) : Except RestoreError KvCache :=
  match lift (st.onTail fun t => t.seqRm s (-1) (-1)) with
  | .error e => .error e
  | .ok (st, _) => .ok { st with
      tail := st.tail.map fun t => t.markDegraded s LLAMA_KV_TAIL_DEGRADED_BODY_ONLY_STATE }

/-- The exact tail of the sequence. -/
def restoreTail (s version : Nat) (m : Manifest) (restored : List (List Nat)) (st : KvCache) :
    Except RestoreError KvCache :=
  if st.tail.isNone then .error .configuration
  else do
    let r ← lift (st.onTail fun t => t.seqRm s (-1) (-1))
    let st ← restoreRecords s version restored m.tailRecords r.1
    let st := { st with tailOrdinal := max st.tailOrdinal m.tailOrdinal }
    let r ← lift (st.onTail fun t => t.restoreProvenance m.provenance s)
    if version ≥ LLAMA_KV_TAIL_STATE_VERSION then restoreCursors s m.tailWriteCursors r.1
    else .ok r.1

/-! ## The restore -/

/-- The cells of the sequence are replaced by the saved ones. -/
def installSequence (s : Nat) (m : Manifest) (st : KvCache) :
    Except RestoreError (KvCache × Remap) := do
  let r ← lift (st.seqRm s (-1) (-1))
  if !r.2 then .error .clearFailed
  else
    let st := r.1
    let c := st.cells (st.cfg.seqToStream s)
    let saved : List SavedCell := m.streams.flatMap (·.cells)
    if !sourceCellsOk c saved then .error .sourceCell
    else
      let r ← remapGroups st.cfg c saved (sourceGroups st.cfg c saved)
        { stageOwner := stageOwner st.cfg c }
      let st ← installCells s (decide (m.nPosPerEmbd > 1)) r saved st
      .ok (st, r)

/-- `state_read` of one sequence with `LLAMA_STATE_SEQ_FLAGS_SELF_CONTAINED`. -/
def restoreSelfContained (st : KvCache) (s version : Nat) (m : Manifest) :
    Except RestoreError KvCache := do
  let st ← st.cloneLogicalState
  if st.cfg.seqToStreamSize ≤ s then .error .outOfRange
  else
    let r ← installSequence s m st
    let restored := m.streams.map fun x => x.cells.map fun k => r.2.cell st.cfg k.sourceCell
    let st ← (if m.bodyOnly then degradeTail s r.1
      else restoreTail s version m restored r.1 : Except RestoreError KvCache)
    .ok (st.rebuildAllocationHead s).rebuildAllocationGroupSealed

/-! ## Calls in sequence -/

section Sequence

variable {α β ε : Type}

theorem lift_ok {o : COut α} {r : KvCache × α} (e : lift o = .ok r) : o = (r.1, .ok r.2) := by
  obtain ⟨st, a⟩ := o
  cases a with
  | error e' => cases e
  | ok a => rw [← Except.ok.inj e]

end Sequence

/-! ## The tail -/

/-- Only the tail, its generations and its ordinal are other ones. -/
structure TailStep (st st' : KvCache) : Prop where
  eq : ∃ tail gens ord, st' = { st with tail := tail, tailGenerations := gens, tailOrdinal := ord }
  tail : TailOk st.tail → TailOk st'.tail

section Tail

variable {st st₁ st' : KvCache} {s version : Nat} {restored : List (List Nat)}

theorem TailStep.refl (st : KvCache) : TailStep st st := ⟨⟨_, _, _, rfl⟩, id⟩

theorem TailStep.trans (h : TailStep st st₁) (h' : TailStep st₁ st') : TailStep st st' := by
  obtain ⟨⟨_, _, _, rfl⟩, ht⟩ := h
  obtain ⟨⟨_, _, _, rfl⟩, ht'⟩ := h'
  exact ⟨⟨_, _, _, rfl⟩, ht' ∘ ht⟩

theorem TailStep.ordinal (st : KvCache) (ord : Nat) : TailStep st { st with tailOrdinal := ord } :=
  ⟨⟨_, _, _, rfl⟩, id⟩

theorem TailStep.inv (h : TailStep st st') (hi : st.Inv) : st'.Inv := by
  obtain ⟨⟨_, _, _, rfl⟩, ht⟩ := h
  exact ⟨hi.cells, ht hi.tail⟩

theorem TailStep.onTail {α : Type} {f : TailStore → TailStore × Except TailError α}
    (hf : ∀ t t' a, t.Inv → f t = (t', .ok a) → t'.Inv) (e : st.onTail f = (st', .ok ())) :
    TailStep st st' := by
  rcases onTail_ok e with ⟨-, rfl⟩ | ⟨t, t', a, ht, ha, rfl⟩
  · exact TailStep.refl st'
  · refine ⟨⟨_, _, _, rfl⟩, fun hi t1 h1 => ?_⟩
    cases h1
    exact hf t t' a (hi t ht) ha

theorem TailStep.seqRm (e : (st.onTail fun t => t.seqRm s (-1) (-1)) = (st', .ok ())) :
    TailStep st st' :=
  TailStep.onTail (fun t t' a ht et => by
    have : (t.seqRm s (-1) (-1)).1.Inv := (ht.seqRm s (-1) (-1)).2
    rwa [et] at this) e

theorem degradeTail_step (e : degradeTail s st = .ok st') : TailStep st st' := by
  unfold degradeTail at e
  split at e
  · cases e
  · next st₁ _ e1 =>
    cases e
    refine (TailStep.seqRm (lift_ok e1)).trans ⟨⟨_, _, _, rfl⟩, fun hi t ht => ?_⟩
    obtain ⟨t0, h0, rfl⟩ := Option.map_eq_some_iff.mp ht
    exact (hi t0 h0).markDegraded

theorem restoreRecord_step {r : TailRecord} (e : st.restoreRecord s version restored r = .ok st') :
    TailStep st st' := by
  unfold restoreRecord at e
  dsimp only at e
  split at e
  · cases e
  split at e
  · cases e
  · next t ht =>
    split at e
    · cases e
    · next t' slot et =>
      split at e
      · cases e
      · cases e
        refine ⟨⟨_, _, _, rfl⟩, fun hi t1 h1 => ?_⟩
        cases h1
        split at et
        · exact (hi t ht).restore et
        · have := (hi t ht).commit s ⟨st.cfg.seqToStream s,
            (restored.getD r.stream []).getD r.bodyOrdinal 0, r.generation⟩ r.position
            r.insertionOrdinal UINT32_MAX
          rwa [et] at this

theorem restoreRecords_step {rs : List TailRecord} :
    ∀ {st : KvCache}, restoreRecords s version restored rs st = .ok st' → TailStep st st' := by
  induction rs with
  | nil =>
    intro st e
    obtain rfl := Except.ok.inj e
    exact TailStep.refl st
  | cons r rs ih =>
    intro st e
    unfold restoreRecords at e
    split at e
    · cases e
    · next st₁ e1 => exact (restoreRecord_step e1).trans (ih e)

theorem restoreCursors_step {cs : List Nat} :
    ∀ {st : KvCache}, restoreCursors s cs st = .ok st' → TailStep st st' := by
  induction cs with
  | nil =>
    intro st e
    obtain rfl := Except.ok.inj e
    exact TailStep.refl st
  | cons c cs ih =>
    intro st e
    unfold restoreCursors at e
    split at e
    · cases e
    · next st₁ _ e1 =>
      refine (TailStep.onTail (fun t t' a ht et => ?_) (lift_ok e1)).trans (ih e)
      have : (t.restoreWriteCursor s c).1.Inv := ht.restoreWriteCursor
      rwa [et] at this

theorem TailStep.restoreProvenance {rs : List TailStore.Provenance}
    (e : (st.onTail fun t => t.restoreProvenance rs s) = (st', .ok ())) : TailStep st st' := by
  refine TailStep.onTail (fun t t' a ht et => ?_) e
  unfold TailStore.restoreProvenance at et
  split at et
  · cases et
  rw [if_pos (by omega)] at et
  split at et
  · split at et
    · next hv =>
      cases et
      have hs := (validSeq_iff.mp hv).2
      exact ht.setSeq (SeqTail.entryInv_congr (ht.seq _ hs) rfl rfl) fun hc => ht.bound hc _ hs
    · cases et
  · cases et

theorem restoreTail_step {m : Manifest} (e : restoreTail s version m restored st = .ok st') :
    TailStep st st' := by
  unfold restoreTail at e
  split at e
  · cases e
  obtain ⟨r1, e1, e⟩ := bind_ok e
  obtain ⟨st2, e2, e⟩ := bind_ok e
  obtain ⟨r3, e3, e⟩ := bind_ok e
  have h2 := (TailStep.seqRm (lift_ok e1)).trans (restoreRecords_step e2)
  have h3 := (h2.trans (TailStep.ordinal st2 _)).trans (TailStep.restoreProvenance (lift_ok e3))
  split at e
  · exact h3.trans (restoreCursors_step e)
  · cases e
    exact h3

end Tail

/-! ## The groups -/

section Groups

variable {cfg : CacheCfg} {c : KvCells} {saved : List SavedCell}

theorem stageAware_iff : stageAware cfg = true ↔ cfg.structured = true ∧
    cfg.stateRemapGroupSize = cfg.allocationGroupSize ∧ 0 < cfg.allocationStageGroups := by
  unfold stageAware
  rw [Bool.and_eq_true, Bool.and_eq_true, decide_eq_true_iff, decide_eq_true_iff, and_assoc]

/-- A partly filled group owns its slot before the search. -/
theorem stageOwner_isSome (ha : stageAware cfg = true) {g : Nat} (hg : 1 ≤ g)
    (hlt : g < cfg.nGroups)
    (hpos : 0 < groupUsed cfg c g) (hpart : groupUsed cfg c g < cfg.allocationGroupSize) :
    (stageOwner cfg c (cfg.stageSlot g)).isSome = true := by
  have key : ∀ (gs : List Nat) (owner : Nat → Option Nat),
      g ∈ gs ∨ (owner (cfg.stageSlot g)).isSome = true →
      ((gs.foldl (fun owner g =>
        if groupUsed cfg c g = 0 ∨ groupUsed cfg c g ≥ cfg.allocationGroupSize then owner
        else Function.update owner (cfg.stageSlot g) (some g)) owner)
          (cfg.stageSlot g)).isSome = true := by
    intro gs
    induction gs with
    | nil => exact fun _ h => h.resolve_left not_mem_nil
    | cons h gs ih =>
      intro owner hm
      refine ih _ ?_
      rcases hm with hm | hm
      · rcases mem_cons.mp hm with rfl | hm
        · right
          dsimp only
          rw [if_neg (by omega), update_self]
          rfl
        · exact .inl hm
      · right
        dsimp only
        split
        · exact hm
        · rw [update_apply]
          split
          · rfl
          · exact hm
  unfold stageOwner
  rw [if_pos ha]
  have hm := key (List.range cfg.nGroups).tail (fun _ => none)
    (.inl (mem_range_tail.mpr ⟨hg, hlt⟩))
  split
  · exact hm
  · rw [update_of_ne (stageSlot_pos hg)]
    exact hm

/-- What holds of the destinations of the source groups `sources`. -/
structure RemapOk (cfg : CacheCfg) (c : KvCells) (saved : List SavedCell)
    (owner : Nat → Option Nat) (sources : List Nat) (r : Remap) : Prop where
  sources : r.groups.map (·.1) = sources
  nodup : (r.groups.map (·.2)).Nodup
  lt : ∀ p ∈ r.groups, p.2 < c.size / cfg.stateRemapGroupSize
  empty : ∀ p ∈ r.groups, ∀ k < cfg.stateRemapGroupSize,
    c.isEmpty (p.2 * cfg.stateRemapGroupSize + k) = true
  /-- A partly filled group went to a group whose slot was free. -/
  slot : ∀ p ∈ r.groups, stageAware cfg = true →
    sourceGroupFill cfg saved p.1 < cfg.stateRemapGroupSize → owner (cfg.stageSlot p.2) = none
  grows : ∀ x, (owner x).isSome = true → (r.stageOwner x).isSome = true

variable {owner : Nat → Option Nat} {sources : List Nat} {r r' : Remap}

theorem RemapOk.remapGroup {source : Nat} (h : RemapOk cfg c saved owner sources r)
    (e : remapGroup cfg c saved r source = .ok r') :
    RemapOk cfg c saved owner (sources ++ [source]) r' := by
  unfold KvCache.remapGroup at e
  dsimp only at e
  split at e
  · cases e
  next d hd =>
  cases e
  have hm := mem_of_find?_eq_some hd
  have hok := find?_some hd
  unfold destinationOk at hok
  simp only [Bool.and_eq_true, Bool.not_eq_true', any_eq_false, beq_iff_eq] at hok
  obtain ⟨⟨hfresh, hslot⟩, hempty⟩ := hok
  have hlt : d < c.size / cfg.stateRemapGroupSize := by
    rcases mem_append.mp hm with hm | hm
    · exact mem_range.mp (mem_filter.mp hm).1
    · exact mem_range.mp (mem_filter.mp hm).1
  refine ⟨?_, ?_, fun p hp => ?_, fun p hp => ?_, fun p hp ha hfill => ?_, fun x hx => ?_⟩
  · rw [map_append, h.sources, map_singleton]
  · rw [map_append, map_singleton, nodup_append]
    refine ⟨h.nodup, nodup_singleton d, fun a hma b hmb => ?_⟩
    obtain ⟨p, hp, rfl⟩ := mem_map.mp hma
    rw [mem_singleton.mp hmb]
    exact hfresh p hp
  · rcases mem_append.mp hp with hp | hp
    · exact h.lt p hp
    · rw [mem_singleton.mp hp]
      exact hlt
  · rcases mem_append.mp hp with hp | hp
    · exact h.empty p hp
    · rw [mem_singleton.mp hp]
      exact fun k hk => all_eq_true.mp hempty k (mem_range.mpr hk)
  · rcases mem_append.mp hp with hp | hp
    · exact h.slot p hp ha hfill
    · rw [mem_singleton.mp hp] at hfill ⊢
      rw [ha, Bool.true_and, decide_eq_true hfill, Bool.true_and] at hslot
      cases ho : owner (cfg.stageSlot d) with
      | none => rfl
      | some g =>
        have := h.grows (cfg.stageSlot d) (by rw [ho]; rfl)
        rw [hslot] at this
        cases this
  · have hx := h.grows x hx
    dsimp only
    split
    · rw [update_apply]
      split
      · rfl
      · exact hx
    · exact hx

theorem RemapOk.remapGroups : ∀ {gs sources : List Nat} {r : Remap},
    RemapOk cfg c saved owner sources r → remapGroups cfg c saved gs r = .ok r' →
      RemapOk cfg c saved owner (sources ++ gs) r' := by
  intro gs
  induction gs with
  | nil =>
    intro sources r h e
    cases e
    rwa [append_nil]
  | cons g gs ih =>
    intro sources r h e
    unfold KvCache.remapGroups at e
    split at e
    · cases e
    · next r1 e1 =>
      have := ih (h.remapGroup e1) e
      rwa [append_assoc] at this

/-- The saved groups go to distinct empty groups, a partly filled one to a free slot. -/
theorem remapGroups_spec (owner : Nat → Option Nat)
    (e : remapGroups cfg c saved (sourceGroups cfg c saved) { stageOwner := owner } = .ok r) :
    RemapOk cfg c saved owner (sourceGroups cfg c saved) r := by
  have h0 : RemapOk cfg c saved owner [] { stageOwner := owner } :=
    ⟨rfl, nodup_nil, fun _ h => absurd h not_mem_nil,
      fun _ h => absurd h not_mem_nil, fun _ h => absurd h not_mem_nil, fun _ h => h⟩
  exact h0.remapGroups e

theorem sourceGroups_nodup : (sourceGroups cfg c saved).Nodup :=
  nodup_range.sublist filter_sublist

/-- The destination of a source group. -/
theorem RemapOk.mem_at (h : RemapOk cfg c saved owner (sourceGroups cfg c saved) r)
    {k : SavedCell} (hk : k ∈ saved) (hlt : k.sourceCell < c.size) :
    (k.sourceCell / cfg.stateRemapGroupSize,
      r.at (k.sourceCell / cfg.stateRemapGroupSize)) ∈ r.groups := by
  have hm : k.sourceCell / cfg.stateRemapGroupSize ∈ r.groups.map (·.1) := by
    rw [h.sources]
    refine mem_filter.mpr ⟨mem_range.mpr ?_, any_eq_true.mpr ⟨k, hk, ?_⟩⟩
    · exact lt_of_le_of_lt (Nat.div_le_self _ _) hlt
    · exact beq_self_eq_true _
  have key : ∀ (l : List (Nat × Nat)) (g : Nat), g ∈ l.map (·.1) →
      (g, (l.lookup g).getD 0) ∈ l := by
    intro l g
    induction l with
    | nil => exact fun h => absurd h not_mem_nil
    | cons p l ih =>
      intro hg
      rw [lookup_cons]
      by_cases he : g = p.1
      · rw [beq_iff_eq.mpr he]
        exact mem_cons.mpr (.inl (Prod.ext he rfl))
      · rw [beq_eq_false_iff_ne.mpr he]
        refine mem_cons_of_mem p (ih ?_)
        rw [map_cons, mem_cons] at hg
        exact hg.resolve_left he
  exact key r.groups _ hm

/-- The cells of a destination are those of a source group that was saved complete. -/
theorem RemapOk.full_cells (h : RemapOk cfg c saved owner (sourceGroups cfg c saved) r)
    (hg : 0 < cfg.allocationGroupSize) (hsize : cfg.stateRemapGroupSize = cfg.allocationGroupSize)
    (hlt : ∀ k ∈ saved, k.sourceCell < c.size) (hdist : (saved.map (·.sourceCell)).Nodup)
    {p : Nat × Nat} (hp : p ∈ r.groups)
    (hfill : cfg.allocationGroupSize ≤ sourceGroupFill cfg saved p.1) {i : Nat}
    (hi : i ∈ groupCells cfg p.2) : ∃ k ∈ saved, i = r.cell cfg k.sourceCell := by
  -- The saved cells of the source group are all its cells.
  set L := (saved.map (·.sourceCell)).filter fun i => i / cfg.allocationGroupSize == p.1 with hL
  have hlen : L.length = sourceGroupFill cfg saved p.1 := by
    rw [hL, ← countP_eq_length_filter, countP_map]
    unfold sourceGroupFill
    rw [hsize]
    rfl
  have hsub : L ⊆ groupCells cfg p.1 := by
    intro i hi
    exact (mem_groupCells hg).mpr (beq_iff_eq.mp (mem_filter.mp hi).2)
  have hgl : (groupCells cfg p.1).length = cfg.allocationGroupSize := groupCells_length p.1
  have hperm := ((hdist.filter _).subperm hsub).perm_of_length_le (by rw [hgl, hlen]; exact hfill)
  obtain ⟨j, hj, rfl⟩ := mem_map.mp hi
  have hj := mem_range.mp hj
  have hsrc : p.1 * cfg.allocationGroupSize + j ∈ L :=
    hperm.mem_iff.mpr (mem_map.mpr ⟨j, mem_range.mpr hj, rfl⟩)
  obtain ⟨k, hk, hkj⟩ := mem_map.mp (mem_filter.mp hsrc).1
  have hdiv : k.sourceCell / cfg.allocationGroupSize = p.1 := by
    rw [hkj, Nat.mul_comm, mul_add_div hg, div_eq_of_lt hj, Nat.add_zero]
  have hmod : k.sourceCell % cfg.allocationGroupSize = j := by
    rw [hkj, Nat.mul_comm, mul_add_mod, mod_eq_of_lt hj]
  have hat : r.at p.1 = p.2 := by
    have hm := h.mem_at hk (hlt k hk)
    rw [hsize, hdiv] at hm
    have hnd : (r.groups.map (·.1)).Nodup := by
      rw [h.sources]
      exact sourceGroups_nodup
    exact congrArg Prod.snd (inj_on_of_nodup_map hnd hm hp rfl)
  refine ⟨k, hk, ?_⟩
  unfold Remap.cell
  rw [hsize, hdiv, hmod, hat]

/-- The destination is a cell of the stream. -/
theorem RemapOk.cell_lt (h : RemapOk cfg c saved owner (sourceGroups cfg c saved) r)
    (hg : 0 < cfg.stateRemapGroupSize) {k : SavedCell} (hk : k ∈ saved)
    (hlt : k.sourceCell < c.size) :
    r.cell cfg k.sourceCell < c.size := by
  have hd := h.lt _ (h.mem_at hk hlt)
  have hmod := mod_lt k.sourceCell hg
  have hle := div_mul_le_self c.size cfg.stateRemapGroupSize
  have hmul : (r.at (k.sourceCell / cfg.stateRemapGroupSize) + 1) * cfg.stateRemapGroupSize ≤
      c.size / cfg.stateRemapGroupSize * cfg.stateRemapGroupSize := Nat.mul_le_mul_right _ hd
  rw [Nat.add_mul, Nat.one_mul] at hmul
  unfold Remap.cell
  omega

end Groups

/-! ## The cells -/

/-- The cells of `D` in stream `x` were free and hold sequence `s` now; the others are the same. -/
structure Installed (st st' : KvCache) (x s : Nat) (D : Nat → Prop) : Prop where
  eq : ∃ cells gens, st' = { st with cells := cells, tailGenerations := gens }
  inv : st'.Inv
  free : ∀ i, D i → (st.cells x).pos i = -1
  new : ∀ i, D i → (st'.cells x).pos i ≠ -1 ∧ (st'.cells x).seq i = {s}
  old : ∀ i, ¬ D i → (st'.cells x).cell i = (st.cells x).cell i

section Cells

variable {st st₁ st' : KvCache} {x s : Nat} {is2d : Bool} {r : Remap}

theorem Installed.trans {D D' : Nat → Prop} (h : Installed st st₁ x s D)
    (h' : Installed st₁ st' x s D') : Installed st st' x s fun i => D i ∨ D' i := by
  have hfree : ∀ i, D' i → ¬ D i := fun i hi' hi => (h.new i hi).1 (h'.free i hi')
  refine ⟨?_, h'.inv, fun i hi => ?_, fun i hi => ?_, fun i hi => ?_⟩
  · obtain ⟨_, _, rfl⟩ := h.eq
    obtain ⟨_, _, e⟩ := h'.eq
    exact ⟨_, _, e⟩
  · rcases hi with hi | hi
    · exact h.free i hi
    · rw [← cell_pos, ← h.old i (hfree i hi)]
      exact h'.free i hi
  · rcases hi with hi | hi
    · have hold := h'.old i fun hi' => hfree i hi' hi
      rw [← cell_pos, ← cell_seq, hold]
      exact h.new i hi
    · exact h'.new i hi
  · rw [not_or] at hi
    rw [h'.old i hi.2, h.old i hi.1]

theorem installCell_spec {k : SavedCell} (h : st.Inv) (hs : s < LLAMA_MAX_SEQ)
    (hdst : r.cell st.cfg k.sourceCell < st.cfg.kvSize) (hpos : 0 ≤ k.pos)
    (e : st.installCell s is2d r k = .ok st') :
    Installed st st' (st.cfg.seqToStream s) s fun i => i = r.cell st.cfg k.sourceCell := by
  unfold installCell at e
  dsimp only at e
  split at e
  · next he =>
    have e := Except.ok.inj e
    set p : Placement :=
      ⟨st.cfg.seqToStream s, r.cell st.cfg k.sourceCell, ⟨k.pos, k.ext, [s]⟩, 0⟩ with hp
    have hok : p.Ok st.cfg := ⟨hdst, hpos, nodup_singleton s,
      fun q hq => by rw [mem_singleton.mp hq]; exact hs,
      fun q hq => by rw [mem_singleton.mp hq]⟩
    obtain ⟨hc, -, hcell⟩ := placeCell_spec hok (h.cells p.stream).toCellsOk is2d
    have hplace : ((if is2d then ((st.cells p.stream).posSet p.cell k.pos).extSet p.cell k.ext
        else (st.cells p.stream).posSet p.cell k.pos).seqAdd p.cell s) =
        placeCell is2d p (st.cells p.stream) := by
      unfold placeCell fillCell
      rw [if_pos he]
      rfl
    have hinv : (st.setCells p.stream (placeCell is2d p (st.cells p.stream))).Inv := by
      refine h.setCells ⟨hc, fun i q hq => ?_⟩
      rw [← cell_seq, hcell i] at hq
      split at hq
      · rw [mem_singleton.mp (mem_toFinset.mp hq)]
      · exact (h.cells p.stream).stream i q hq
    obtain ⟨gens, rfl⟩ : ∃ gens, st' =
        { st.setCells p.stream (placeCell is2d p (st.cells p.stream)) with
          tailGenerations := gens } := by
      rw [← e, hplace]
      split
      · exact ⟨_, rfl⟩
      · exact ⟨_, rfl⟩
    refine ⟨⟨_, _, rfl⟩, ⟨hinv.cells, hinv.tail⟩, fun i hi => ?_, fun i hi => ?_, fun i hi => ?_⟩
    · rw [hi]
      simpa [KvCells.isEmpty] using he
    all_goals
      have hx : ({ st.setCells p.stream (placeCell is2d p (st.cells p.stream)) with
          tailGenerations := gens } : KvCache).cells p.stream =
          placeCell is2d p (st.cells p.stream) := update_self _ _ _
      have hi' := hcell i
    · rw [hx, ← cell_pos, ← cell_seq, hi', if_pos hi]
      refine ⟨?_, ?_⟩
      · show k.pos ≠ -1
        omega
      · rfl
    · rw [hx, hi', if_neg hi]
  · cases e

theorem installCells_spec (hs : s < LLAMA_MAX_SEQ) : ∀ {ks : List SavedCell} {st : KvCache},
    st.Inv → (∀ k ∈ ks, r.cell st.cfg k.sourceCell < st.cfg.kvSize) → (∀ k ∈ ks, 0 ≤ k.pos) →
    installCells s is2d r ks st = .ok st' →
    Installed st st' (st.cfg.seqToStream s) s fun i =>
      ∃ k ∈ ks, i = r.cell st.cfg k.sourceCell := by
  intro ks
  induction ks with
  | nil =>
    intro st h _ _ e
    obtain rfl := Except.ok.inj e
    have hn : ∀ i, ¬ ∃ k ∈ ([] : List SavedCell), i = r.cell st.cfg k.sourceCell :=
      fun i ⟨k, hk, _⟩ => absurd hk not_mem_nil
    exact ⟨⟨_, _, rfl⟩, h, fun i hi => absurd hi (hn i), fun i hi => absurd hi (hn i),
      fun _ _ => rfl⟩
  | cons k ks ih =>
    intro st h hdst hpos e
    unfold installCells at e
    split at e
    · cases e
    next st₁ e1 =>
    have h1 := installCell_spec h hs (hdst k mem_cons_self) (hpos k mem_cons_self) e1
    have hcfg : st₁.cfg = st.cfg := by
      obtain ⟨_, _, rfl⟩ := h1.eq
      rfl
    have h2 := ih h1.inv (fun q hq => by rw [hcfg]; exact hdst q (mem_cons_of_mem k hq))
      (fun q hq => hpos q (mem_cons_of_mem k hq)) e
    rw [hcfg] at h2
    have := h1.trans h2
    have hD : (fun i => i = r.cell st.cfg k.sourceCell ∨
        ∃ q ∈ ks, i = r.cell st.cfg q.sourceCell) =
        fun i => ∃ q ∈ k :: ks, i = r.cell st.cfg q.sourceCell := by
      funext i
      simp only [mem_cons, exists_eq_or_imp]
    rwa [hD] at this

end Cells

/-! ## Allocation heads -/

/-- The allocation head of a sequence with these cells. -/
def headOf (c : KvCells) (s : Nat) : Nat := ((newestCell c s).map (· + 1)).getD 0

section Heads

variable {st st' : KvCache} {c c' : KvCells} {s : Nat}

theorem rebuildAllocationHead_alloc (st : KvCache) (s : Nat) :
    (st.rebuildAllocationHead s).allocationSeqHeads =
      if s < st.cfg.nSeqMax ∧ st.cfg.structured = true then
        Function.update st.allocationSeqHeads s (headOf (st.cells 0) s)
      else st.allocationSeqHeads := by
  unfold rebuildAllocationHead
  split <;> rfl

theorem newestCell_mem {i : Nat} (h : newestCell c s = some i) : s ∈ c.seq i ∧ i < c.size := by
  have key : ∀ (l : List Nat) (a : Int × Option Nat), (∀ j ∈ l, j < c.size) →
      (∀ j, a.2 = some j → s ∈ c.seq j ∧ j < c.size) →
      ∀ j, (l.foldl (fun (a : Int × Option Nat) i =>
        if c.seqHas i s && decide (c.pos i > a.1) then (c.pos i, some i) else a) a).2 = some j →
          s ∈ c.seq j ∧ j < c.size := by
    intro l
    induction l with
    | nil => exact fun _ _ h => h
    | cons k l ih =>
      intro a hl ha
      refine ih _ (fun j hj => hl j (mem_cons_of_mem k hj)) fun j hj => ?_
      dsimp only at hj
      split at hj
      · next hc =>
        cases hj
        exact ⟨of_decide_eq_true (Bool.and_eq_true_iff.mp hc).1, hl k mem_cons_self⟩
      · exact ha j hj
  exact key (List.range c.size) (-1, none) (fun j hj => mem_range.mp hj)
    (fun j hj => absurd hj (by simp)) i h

/-- The head points behind a cell of the sequence. -/
theorem headOf_mem (h : headOf c s ≠ 0) : s ∈ c.seq (headOf c s - 1) ∧ headOf c s - 1 < c.size := by
  unfold headOf at h ⊢
  cases hn : newestCell c s with
  | none => rw [hn] at h; exact absurd rfl h
  | some i => exact newestCell_mem hn

/-- The two have the same positions and sequences. -/
structure Agree (c c' : KvCells) : Prop where
  size : c'.size = c.size
  pos : c'.pos = c.pos
  seq : c'.seq = c.seq

theorem Agree.groupUsed (h : Agree c c') (cfg : CacheCfg) :
    groupUsed cfg c' = KvCache.groupUsed cfg c := by
  funext g
  unfold KvCache.groupUsed KvCells.isEmpty
  rw [h.pos]

theorem Agree.headOf (h : Agree c c') (s : Nat) : headOf c' s = KvCache.headOf c s := by
  unfold KvCache.headOf newestCell seqHas
  rw [h.pos, h.seq, h.size]

/-- What `seq_rm` of a sequence leaves to the allocator. -/
theorem seqRmUnchecked_alloc {p0 p1 : Int} (e : st.seqRmUnchecked s p0 p1 = (st', .ok ())) :
    st'.cells = Function.update st.cells (st.cfg.seqToStream s)
      (sweep (rmCell s (rangeBegin p0) (rangeEnd p1)) (st.cells (st.cfg.seqToStream s))).1 ∧
    st'.allocationGroupSealed = st.allocationGroupSealed ∧ st'.cfg = st.cfg ∧
    st'.allocationSeqHeads = if s < st.cfg.nSeqMax ∧ st.cfg.structured = true then
        Function.update st.allocationSeqHeads s (headOf (st'.cells 0) s)
      else st.allocationSeqHeads := by
  obtain ⟨st₁, u1, e1, e⟩ := andThen_ok e
  obtain ⟨_, _, _, rfl, -⟩ := materializePendingCopies_eq e1
  split at e
  · obtain ⟨st2, u2, e2, e⟩ := andThen_ok e
    obtain ⟨_, rfl, -⟩ := tailSeqRm_eq e2
    cases e
    refine ⟨?_, ?_, ?_, ?_⟩
    · obtain ⟨_, eh⟩ := rebuildAllocationHead_eq (markIfIncomplete _ s) s
      rw [eh]
      rcases markIfIncomplete_eq _ s with em | ⟨t, -, em⟩ <;> rw [em] <;> rfl
    · obtain ⟨_, eh⟩ := rebuildAllocationHead_eq (markIfIncomplete _ s) s
      rw [eh]
      rcases markIfIncomplete_eq _ s with em | ⟨t, -, em⟩ <;> rw [em] <;> rfl
    · obtain ⟨_, eh⟩ := rebuildAllocationHead_eq (markIfIncomplete _ s) s
      rw [eh]
      rcases markIfIncomplete_eq _ s with em | ⟨t, -, em⟩ <;> rw [em] <;> rfl
    · rw [rebuildAllocationHead_alloc]
      obtain ⟨_, eh⟩ := rebuildAllocationHead_eq (markIfIncomplete _ s) s
      rw [eh]
      rcases markIfIncomplete_eq _ s with em | ⟨t, -, em⟩ <;> rw [em] <;> rfl
  · cases e

end Heads

/-! ## The whole restore -/

section Whole

variable {st st' : KvCache} {s version : Nat} {m : Manifest}

theorem cloneLogicalState_spec (h : st.Inv) (e : st.cloneLogicalState = .ok st') :
    st'.Inv ∧ st'.cfg = st.cfg ∧ st'.allocationSeqHeads = st.allocationSeqHeads ∧
      st'.allocationGroupSealed = st.allocationGroupSealed ∧
      ∀ x, x < st.cfg.nStream → Agree (st.cells x) (st'.cells x) := by
  have hsize := fun x => (h.cells x).size
  -- The clone, whatever its tail is.
  have key : ∀ tail : Option TailStore, TailOk tail → ∀ st₁ : KvCache, st₁ =
      { cfg := st.cfg
        cells := fun x =>
          if x < st.cfg.nStream then
            (empty.resize st.cfg.kvSize).set 0 ((st.cells x).cp 0 (st.cells x).size)
          else empty.resize st.cfg.kvSize
        heads := st.heads
        allocationSeqHeads := st.allocationSeqHeads
        allocationGroupSealed := st.allocationGroupSealed
        tail := tail
        tailGenerations := st.tailGenerations
        tailGenerationsBeforeBatch := st.tailGenerationsBeforeBatch
        tailOrdinal := st.tailOrdinal } →
      st₁.Inv ∧ st₁.cfg = st.cfg ∧ st₁.allocationSeqHeads = st.allocationSeqHeads ∧
        st₁.allocationGroupSealed = st.allocationGroupSealed ∧
        ∀ x, x < st.cfg.nStream → Agree (st.cells x) (st₁.cells x) := by
    rintro tail ht _ rfl
    refine ⟨⟨fun x => ?_, ht⟩, rfl, rfl, rfl, fun x hx => ?_⟩
    · dsimp only
      split
      · rw [hsize x]
        refine (h.cells x).of_subset (h.cells x).toCellsOk.set_cp fun i => ?_
        rw [set_cp_cell]
        split
        · exact Finset.Subset.refl _
        · exact Finset.empty_subset _
      · exact ⟨KvCells.CellsOk.reset rfl, fun _ s hs => absurd hs (Finset.notMem_empty s)⟩
    · -- Behind the last cell both are free.
      have hcell : ∀ i, (((empty.resize st.cfg.kvSize).set 0
          ((st.cells x).cp 0 st.cfg.kvSize)).cell i).pos = (st.cells x).pos i ∧
          (((empty.resize st.cfg.kvSize).set 0
            ((st.cells x).cp 0 st.cfg.kvSize)).cell i).seq = (st.cells x).seq i := by
        intro i
        rw [set_cp_cell]
        split
        · exact ⟨rfl, rfl⟩
        · next hi =>
          have hp := (h.cells x).out i (by omega)
          exact ⟨hp.symm, ((h.cells x).toInv.empty i hp).symm⟩
      dsimp only
      rw [if_pos hx, hsize x]
      exact ⟨(h.cells x).toCellsOk.set_cp.size.trans (hsize x).symm, funext fun i => (hcell i).1,
        funext fun i => (hcell i).2⟩
  unfold cloneLogicalState at e
  split at e
  · cases e
  split at e
  · exact key none (fun t ht => by cases ht) st' (Except.ok.inj e).symm
  · next t ht =>
    split at e
    · cases e
    · next t' et =>
      refine key (some t') (fun t1 h1 => ?_) st' (Except.ok.inj e).symm
      cases h1
      have hnew : TailStore.Inv { cfg := t.cfg } := inv_of_new (h.tail t ht).cfg rfl
      exact hnew.clone (h.tail t ht) et

/-- What the restore of sequence `s` leaves to the structured allocator: `c` are the cells without
the old ones of the sequence, and `r` tells where the saved cells went. -/
structure Restored (st st' : KvCache) (s : Nat) (saved : List SavedCell) (c : KvCells) (r : Remap) :
    Prop where
  inv : st'.Inv
  cfg : st'.cfg = st.cfg
  without : Agree (sweep (rmCell s (rangeBegin (-1)) (rangeEnd (-1))) (st.cells 0)).1 c
  sources : ∀ k ∈ saved, k.sourceCell < c.size
  distinct : (saved.map (·.sourceCell)).Nodup
  groups : RemapOk st.cfg c saved (stageOwner st.cfg c) (sourceGroups st.cfg c saved) r
  free : ∀ k ∈ saved, c.pos (r.cell st.cfg k.sourceCell) = -1
  new : ∀ k ∈ saved, (st'.cells 0).pos (r.cell st.cfg k.sourceCell) ≠ -1 ∧
    (st'.cells 0).seq (r.cell st.cfg k.sourceCell) = {s}
  old : ∀ i, (∀ k ∈ saved, i ≠ r.cell st.cfg k.sourceCell) → (st'.cells 0).cell i = c.cell i
  head : s < st.cfg.nSeqMax → st'.allocationSeqHeads s = headOf (st'.cells 0) s
  heads : ∀ t, t ≠ s → st'.allocationSeqHeads t = st.allocationSeqHeads t
  sealed : st'.allocationGroupSealed = st'.rebuildAllocationGroupSealed.allocationGroupSealed

theorem Agree.sweep {c c' : KvCells} {n : Nat} (h : c.CellsOk n) (h' : c'.CellsOk n)
    (ha : Agree c c') (p0 p1 : Int) :
    Agree (sweep (rmCell s p0 p1) c).1 (sweep (rmCell s p0 p1) c').1 := by
  obtain ⟨hc, hcell⟩ := rmSeq_sweep h s p0 p1
  obtain ⟨hc', hcell'⟩ := rmSeq_sweep h' s p0 p1
  have hsame : ∀ k k' : Cell, k'.pos = k.pos → k'.seq = k.seq →
      (k'.rmSeq s p0 p1).pos = (k.rmSeq s p0 p1).pos ∧
        (k'.rmSeq s p0 p1).seq = (k.rmSeq s p0 p1).seq := by
    intro k k' hp hq
    have hh : k'.Holds s p0 p1 ↔ k.Holds s p0 p1 := by
      unfold Cell.Holds
      rw [hp, hq]
    unfold Cell.rmSeq
    by_cases hk : k.Holds s p0 p1
    · rw [if_pos hk, if_pos (hh.mpr hk)]
      unfold Cell.erase
      rw [hq]
      split
      · exact ⟨rfl, rfl⟩
      · exact ⟨hp, rfl⟩
    · rw [if_neg hk, if_neg fun hk' => hk (hh.mp hk')]
      exact ⟨hp, hq⟩
  have hpq : ∀ i, ((KvCache.sweep (rmCell s p0 p1) c').1.cell i).pos =
      ((KvCache.sweep (rmCell s p0 p1) c).1.cell i).pos ∧
      ((KvCache.sweep (rmCell s p0 p1) c').1.cell i).seq =
      ((KvCache.sweep (rmCell s p0 p1) c).1.cell i).seq := by
    intro i
    rw [hcell, hcell', ha.size]
    split
    · exact hsame _ _ (congrFun ha.pos i) (congrFun ha.seq i)
    · exact ⟨congrFun ha.pos i, congrFun ha.seq i⟩
  exact ⟨hc'.size.trans hc.size.symm, funext fun i => (hpq i).1, funext fun i => (hpq i).2⟩

/-- The cells of the sequence are replaced. -/
structure Replaced (st st' : KvCache) (s : Nat) (saved : List SavedCell) (c : KvCells) (r : Remap) :
    Prop where
  cfg : st'.cfg = st.cfg
  sealed : st'.allocationGroupSealed = st.allocationGroupSealed
  without : Agree (sweep (rmCell s (rangeBegin (-1)) (rangeEnd (-1))) (st.cells 0)).1 c
  size : c.size = st.cfg.kvSize
  sources : ∀ k ∈ saved, k.sourceCell < c.size
  distinct : (saved.map (·.sourceCell)).Nodup
  groups : RemapOk st.cfg c saved (stageOwner st.cfg c) (sourceGroups st.cfg c saved) r
  heads : ∀ t, t ≠ s → st'.allocationSeqHeads t = st.allocationSeqHeads t
  installed : ∃ st₁ : KvCache, st₁.cells 0 = c ∧
    Installed st₁ st' 0 s fun i => ∃ k ∈ saved, i = r.cell st.cfg k.sourceCell

/-- The removal of a whole sequence. -/
theorem seqRm_whole (e : st.seqRm s (-1) (-1) = (st₁, .ok true)) :
    st.seqRmUnchecked s (-1) (-1) = (st₁, .ok ()) := by
  unfold KvCache.seqRm at e
  split at e
  · cases e
  · obtain ⟨st2, u2, e2, e⟩ := andThen_ok e
    rw [← (Prod.mk.inj e).1]
    exact e2

theorem installSequence_spec {out : KvCache × Remap} (h : st.Inv) (hs : st.cfg.structured = true)
    (hg : 0 < st.cfg.stateRemapGroupSize) (hm : m.Positions) (hlt : s < LLAMA_MAX_SEQ)
    (e : installSequence s m st = .ok out) :
    ∃ c, Replaced st out.1 s (m.streams.flatMap (·.cells)) c out.2 := by
  obtain ⟨r, e1, e⟩ := bind_ok e
  have e1 := lift_ok e1
  split at e
  · cases e
  next hr =>
  have hstream : st.cfg.seqToStream s = 0 := by
    have := of_decide_eq_true hs
    unfold CacheCfg.seqToStream
    rw [if_neg (by omega)]
  have e1 : st.seqRmUnchecked s (-1) (-1) = (r.1, .ok ()) := seqRm_whole (by
    rw [e1]
    exact congrArg _ (congrArg Except.ok (by simpa using hr)))
  generalize r.1 = st₁ at e e1
  obtain ⟨hcells, hsealed, hcfg, halloc⟩ := seqRmUnchecked_alloc e1
  obtain ⟨h1, -⟩ := h.seqRmUnchecked e1
  have hc : st₁.cells 0 =
      (sweep (rmCell s (rangeBegin (-1)) (rangeEnd (-1))) (st.cells 0)).1 := by
    rw [hcells, hstream, update_self]
  have hsize := (h1.cells 0).size
  rw [hcfg] at hsize
  dsimp only at e
  rw [hcfg, hstream] at e
  split at e
  · cases e
  next hok =>
  rw [Bool.not_eq_true', Bool.not_eq_false] at hok
  unfold sourceCellsOk at hok
  rw [Bool.and_eq_true, all_eq_true, decide_eq_true_eq] at hok
  obtain ⟨hsrc, hnd⟩ := hok
  have hsrc : ∀ k ∈ m.streams.flatMap (·.cells), k.sourceCell < (st₁.cells 0).size :=
    fun k hk => of_decide_eq_true (hsrc k hk)
  obtain ⟨r', e2, e⟩ := bind_ok e
  obtain ⟨st2, e3, e⟩ := bind_ok e
  cases e
  have hrok := remapGroups_spec _ e2
  have hi := installCells_spec hlt h1 (fun k hk => by
    rw [hcfg, ← hsize]
    exact hrok.cell_lt hg hk (hsrc k hk)) hm e3
  rw [hcfg, hstream] at hi
  obtain ⟨cells, gens, e4⟩ := hi.eq
  refine ⟨st₁.cells 0, ?_, ?_, ?_, hsize, hsrc, hnd, hrok, fun t ht => ?_, st₁, rfl, hi⟩
  · rw [e4]
    exact hcfg
  · rw [e4]
    exact hsealed
  · rw [hc]
    exact ⟨rfl, rfl, rfl⟩
  · rw [e4]
    rw [halloc]
    split
    · exact update_of_ne ht _ _
    · rfl

/-- The whole restore. -/
theorem restoreSelfContained_spec (h : st.Inv) (hs : st.cfg.structured = true)
    (hg : 0 < st.cfg.stateRemapGroupSize) (hm : m.Positions)
    (e : st.restoreSelfContained s version m = .ok st') :
    ∃ c r, Restored st st' s (m.streams.flatMap (·.cells)) c r := by
  have hstruct := of_decide_eq_true hs
  obtain ⟨st0, e0, e⟩ := bind_ok e
  obtain ⟨h0, hcfg0, halloc₀, -, hagree⟩ := cloneLogicalState_spec h e0
  have hagree := hagree 0 (by omega)
  rw [hcfg0] at e
  split at e
  · cases e
  next hlt =>
  have hlt : s < LLAMA_MAX_SEQ := by
    unfold CacheCfg.seqToStreamSize at hlt
    rw [if_neg (by omega)] at hlt
    omega
  obtain ⟨⟨st₁, r⟩, e1, e⟩ := bind_ok e
  obtain ⟨c, hrep⟩ := installSequence_spec h0 (by rw [hcfg0]; exact hs) (by rw [hcfg0]; exact hg) hm
    hlt e1
  obtain ⟨st2, e2, e⟩ := bind_ok e
  have hst := Except.ok.inj e
  obtain ⟨stc, hstc, hinst⟩ := hrep.installed
  have hstep : TailStep st₁ st2 := by
    split at e2
    · exact degradeTail_step e2
    · exact restoreTail_step e2
  have hcfg1 := hrep.cfg.trans hcfg0
  have hinv2 := hstep.inv hinst.inv
  obtain ⟨_, _, _, e3⟩ := hstep.eq
  have hcells₂ : st2.cells = st₁.cells := by rw [e3]
  have halloc₂ : st2.allocationSeqHeads = st₁.allocationSeqHeads := by rw [e3]
  have hcfg2 : st2.cfg = st.cfg := by
    rw [e3]
    exact hcfg1
  -- Only the head of the sequence and the flags are rebuilt.
  have hflags : ∀ st3 : KvCache, ∃ l, st3.rebuildAllocationGroupSealed =
      { st3 with allocationGroupSealed := l } ∧
        l = st3.rebuildAllocationGroupSealed.allocationGroupSealed := by
    intro st3
    refine ⟨st3.rebuildAllocationGroupSealed.allocationGroupSealed, ?_, rfl⟩
    unfold rebuildAllocationGroupSealed
    split <;> rfl
  have hhead := rebuildAllocationHead_alloc st2 s
  obtain ⟨heads, eh⟩ := rebuildAllocationHead_eq st2 s
  rw [eh] at hst hhead
  obtain ⟨l, el, el'⟩ := hflags { st2 with allocationSeqHeads := heads }
  rw [el] at hst
  subst hst
  rw [hcfg0] at hinst
  refine ⟨c, r, ⟨hinv2.cells, hinv2.tail⟩, hcfg2, ?_, hrep.sources, hrep.distinct, ?_,
    fun k hk => ?_, fun k hk => ?_, fun i hi => ?_, fun hn => ?_, fun t ht => ?_, ?_⟩
  · have := Agree.sweep (s := s) (h.cells 0).toCellsOk
      (hcfg0 ▸ (h0.cells 0).toCellsOk) hagree (rangeBegin (-1)) (rangeEnd (-1))
    exact ⟨hrep.without.size.trans this.size, hrep.without.pos.trans this.pos,
      hrep.without.seq.trans this.seq⟩
  · rw [← hcfg0]
    exact hrep.groups
  · rw [← hstc]
    exact hinst.free _ ⟨k, hk, rfl⟩
  · dsimp only
    rw [hcells₂]
    exact hinst.new _ ⟨k, hk, rfl⟩
  · dsimp only
    rw [hcells₂, ← hstc]
    exact hinst.old i fun ⟨k, hk, hik⟩ => hi k hk hik
  · dsimp only at hhead ⊢
    rw [hhead, if_pos (by rw [hcfg2]; exact ⟨hn, hs⟩), update_self]
  · dsimp only at hhead ⊢
    rw [hhead]
    split
    · rw [update_of_ne ht, halloc₂, hrep.heads t ht, halloc₀]
    · rw [halloc₂, hrep.heads t ht, halloc₀]
  · dsimp only
    rw [el']
    unfold rebuildAllocationGroupSealed
    rw [if_pos (by dsimp only; rw [hcfg2]; exact hs), if_pos (by dsimp only; rw [hcfg2]; exact hs)]
    rfl

end Whole

end KvCache
end BeeLlama
