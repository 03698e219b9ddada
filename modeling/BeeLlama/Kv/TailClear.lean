import BeeLlama.Kv.KvarnRun

/-!
# The rows that `clear_tail_storage` zeroes

Before a sequence starts again, and after it was removed, the rows of its exact tail and of the
stage are zeroed. The arena of the tail is cut by sequence, but the block that is zeroed is cut by
stream; and the stage is cut by the second dimension of its tensor, the heads, in place of the
tokens.

* `zeroesTail`, `zeroesStage`: the rows that are zeroed (`clearTailStorage_layers`).
* `SparesOthers`: none of them belongs to another sequence.
* `AloneIn`: the state in which this is so, exactly (`sparesOthers_iff`).
-/

namespace BeeLlama.KvarnCache

open List Nat KvCache

/-! ## Rows -/

/-- The largest position of a cell of the stream, `-1` if there is none. -/
def livePos (c : KvCells) : Int := (List.range c.size).foldl (fun m i => max m (c.pos i)) (-1)

/-- The content of the cell is read from the stage: the records of its group are not written. In
the ring of a sliding window this is the group of the last position while it is not complete. -/
def usesStage (k : KvarnCache) (x i : Nat) : Bool :=
  let c := k.metadata.cells x
  if k.swa then
    decide (c.pos i / KVAR_N_GROUP = livePos c / KVAR_N_GROUP) &&
      decide (livePos c % KVAR_N_GROUP < KVAR_N_GROUP - 1)
  else if k.metadata.cfg.nStream = 1 then k.metadata.allocationCellUsesStage i
  else
    decide (i / KVAR_N_GROUP = 0) ||
      (List.range KVAR_N_GROUP).any fun j => c.isEmpty (i / KVAR_N_GROUP * KVAR_N_GROUP + j)

/-- The token of the stage tensors with the row of a cell (`stage_pos`): the ring of a sliding
window goes by positions and has no group that stays. -/
def stageToken (k : KvarnCache) (x i : Nat) : Nat :=
  let cell := if k.swa then ((k.metadata.cells x).pos i).toNat else i
  let group := cell / KVAR_N_GROUP
  let slot := if k.swa then group % k.stageGroups
    else if group = 0 then 0 else 1 + (group - 1) % (k.stageGroups - 1)
  x * (KVAR_N_GROUP * k.stageGroups) + slot * KVAR_N_GROUP + cell % KVAR_N_GROUP

/-- The row is in the block. -/
def inBlock (b : Option (Nat × Nat)) (i : Nat) : Bool :=
  b.any fun b => decide (b.1 ≤ i ∧ i < b.1 + b.2)

/-- The call zeroes the slot `i` of the tail. -/
def zeroesTail (k : KvarnCache) (seqId : Int) (i : Nat) : Bool := inBlock (k.tailBlock seqId) i

/-- The call zeroes the row `i` of a stage tensor with this number of heads. -/
def zeroesStage (k : KvarnCache) (seqId : Int) (heads i : Nat) : Bool :=
  (k.tailBlock seqId).isSome && inBlock (k.stageBlock seqId heads) i

/-- The rows of a layer that are not zeroed are kept. -/
def zeroLayer (k : KvarnCache) (seqId : Int) (l : KvarnLayer) : KvarnLayer :=
  { l with
    kTail := fun i => if k.zeroesTail seqId i then 0 else l.kTail i
    vTail := fun i => if k.zeroesTail seqId i then 0 else l.vTail i
    kStage := fun i => if k.zeroesStage seqId l.nHeadK i then 0 else l.kStage i
    vStage := fun i => if k.zeroesStage seqId l.nHeadV i then 0 else l.vStage i }

/-- The call zeroes no tail slot of an entry of another sequence, and no row of the stage that has
the content of a cell of another sequence. -/
structure SparesOthers (k : KvarnCache) (s : Nat) : Prop where
  tail : ∀ t, k.metadata.tail = some t → ∀ other < k.metadata.cfg.nSeqMax, other ≠ s →
    ∀ n ∈ (t.seqs other).entries, k.zeroesTail s n.slot.toNat = false
  stage : ∀ l ∈ k.layers, ∀ heads ∈ [l.nHeadK, l.nHeadV], ∀ x < k.metadata.cfg.nStream,
    ∀ i other, other ≠ s → other ∈ (k.metadata.cells x).seq i → k.usesStage x i = true →
      ∀ head < heads, k.zeroesStage s heads (k.stageToken x i * heads + head) = false

/-- No other sequence of a unified cache has an entry in the tail, and, unless no number of heads is
a multiple of the number of streams, the first token of the stage has no cell of another
sequence. -/
structure AloneIn (k : KvarnCache) (s : Nat) : Prop where
  tail : k.metadata.cfg.nStream = 1 → ∀ t, k.metadata.tail = some t →
    ∀ other < k.metadata.cfg.nSeqMax, other ≠ s → (t.seqs other).entries = []
  stage : ∀ l ∈ k.layers, ∀ heads ∈ [l.nHeadK, l.nHeadV], heads ≠ 0 →
    heads % k.metadata.cfg.nStream = 0 → ∀ i other, other ≠ s →
      other ∈ (k.metadata.cells 0).seq i → k.usesStage 0 i = true → k.stageToken 0 i ≠ 0

/-- What the constructor asserts: the streams, a tail with an arena for each sequence, and a stage
of two groups at least. -/
structure Configured (k : KvarnCache) : Prop where
  wf : k.metadata.cfg.WF
  tail : ∀ t, k.metadata.tail = some t → t.cfg.nSeqMax = k.metadata.cfg.nSeqMax ∧
    t.cfg.arenaStride * t.cfg.nSeqMax ≤ t.cfg.nSlots
  stageGroups : 2 ≤ k.stageGroups
  swa : k.swa = true → k.metadata.cfg.nStream = 1

section Blocks

variable {k k' : KvarnCache} {s : Nat}

theorem inBlock_iff {b : Option (Nat × Nat)} {i : Nat} :
    inBlock b i = true ↔ ∃ q, b = some q ∧ q.1 ≤ i ∧ i < q.1 + q.2 := by
  unfold inBlock
  cases b with
  | none => simp
  | some q => simp

theorem zeroBlock_eq (b : Option (Nat × Nat)) (r : Nat → Nat) :
    zeroBlock b r = fun i => if inBlock b i then 0 else r i := by
  cases b with
  | none => rfl
  | some q =>
    funext i
    simp [zeroBlock, zeroRows, inBlock]

/-- The call does not throw, and zeroes these rows. -/
theorem clearTailStorage_layers (h : k.metadata.Inv) (seqId : Int) : ∃ k',
    k.clearTailStorage seqId = (k', .ok ()) ∧ k'.layers = k.layers.map (k.zeroLayer seqId) := by
  unfold clearTailStorage
  split
  · next hb =>
    refine ⟨k, rfl, ?_⟩
    have hid : k.zeroLayer seqId = id := by
      funext l
      simp [zeroLayer, zeroesTail, zeroesStage, hb, inBlock]
    rw [hid, map_id]
  · next b hb =>
    obtain ⟨tail, e, -⟩ := resetTailWriteCursor_spec h seqId
    rw [e]
    refine ⟨_, rfl, map_congr_left fun l _ => ?_⟩
    have hz : ∀ r : Nat → Nat, zeroRows b.1 b.2 r =
        fun i => if k.zeroesTail seqId i then 0 else r i := fun r => by
      have := zeroBlock_eq (some b) r
      unfold zeroesTail
      rw [hb]
      exact this
    unfold clearLayer zeroLayer
    simp only [hz, zeroBlock_eq, zeroesStage, hb, Option.isSome_some, Bool.true_and]
    rfl

theorem seqToStream_lt (hc : k.Configured) (hs : s < k.metadata.cfg.nSeqMax) :
    k.metadata.cfg.seqToStream s < k.metadata.cfg.nStream := by
  unfold CacheCfg.seqToStream
  rcases hc.wf.streams with h | h
  · rw [h, if_neg (by omega)]
    omega
  · split <;> omega

/-- The block of the tail, where the cache has one. -/
theorem tailBlock_eq_some {b : Nat × Nat} (e : k.tailBlock s = some b) : ∃ t,
    k.metadata.tail = some t ∧ 0 < t.cfg.arenaStride ∧
      b.1 = k.metadata.cfg.seqToStream s * t.cfg.arenaStride ∧
      b.2 = if k.metadata.cfg.nStream * t.cfg.arenaStride < t.cfg.nSlots ∧
          b.1 + min t.cfg.arenaStride (t.cfg.nSlots - b.1) =
            k.metadata.cfg.nStream * t.cfg.arenaStride
        then t.cfg.nSlots - b.1 else min t.cfg.arenaStride (t.cfg.nSlots - b.1) := by
  unfold tailBlock at e
  dsimp only at e
  split at e
  · cases e
  next h0 =>
  rw [if_neg (by omega)] at e
  split at e
  · cases e
  next h1 =>
  split at e
  · cases e
  next h2 =>
  cases e
  cases ht : k.metadata.tail with
  | none =>
    simp [getTailSlots, ht] at h0
  | some t =>
    have hstride : k.metadata.getTailArenaStride = t.cfg.arenaStride := by
      simp [getTailArenaStride, ht]
    have hslots : k.metadata.getTailSlots = t.cfg.nSlots := by simp [getTailSlots, ht]
    refine ⟨t, rfl, by omega, ?_, ?_⟩
    · simp only [Int.toNat_natCast, hstride]
    · simp only [hstride, hslots]

/-- The rows of a stage tensor that are zeroed are rows of its first token. -/
theorem stageBlock_eq_some {heads : Nat} {b : Nat × Nat} (hc : k.Configured)
    (hs : s < k.metadata.cfg.nSeqMax) : k.stageBlock s heads = some b ↔
      heads ≠ 0 ∧ heads % k.metadata.cfg.nStream = 0 ∧
        b = (k.metadata.cfg.seqToStream s * (heads / k.metadata.cfg.nStream),
          heads / k.metadata.cfg.nStream) := by
  have hx := seqToStream_lt hc hs
  have hmax : max 1 k.metadata.cfg.nStream = k.metadata.cfg.nStream := by omega
  unfold stageBlock
  rw [hmax, if_neg (show ¬ (s : Int) < 0 by omega), Int.toNat_natCast]
  by_cases h0 : heads = 0
  · simp [h0]
  rw [if_neg h0]
  by_cases hm : heads % k.metadata.cfg.nStream = 0
  · -- the block of a stream ends with the rows at the latest
    have hheads : k.metadata.cfg.nStream * (heads / k.metadata.cfg.nStream) = heads :=
      Nat.mul_div_cancel' (dvd_of_mod_eq_zero hm)
    have hend : (k.metadata.cfg.seqToStream s + 1) * (heads / k.metadata.cfg.nStream) ≤ heads :=
      (Nat.mul_le_mul_right _ hx).trans hheads.le
    rw [Nat.add_mul, Nat.one_mul] at hend
    have hper : 0 < heads / k.metadata.cfg.nStream := by
      refine Nat.pos_of_ne_zero fun hz => h0 ?_
      rw [← hheads, hz, Nat.mul_zero]
    rw [if_neg (not_not.mpr hm), if_neg (by omega), min_eq_left (by omega), Option.some_inj]
    exact ⟨fun e => ⟨h0, hm, e.symm⟩, fun e => e.2.2.symm⟩
  · rw [if_pos hm]
    exact ⟨fun e => (by cases e), fun e => absurd e.2.1 hm⟩

/-- The first token of the stage is one of stream `0`. -/
theorem stream_of_stageToken (hc : k.Configured) {x i : Nat} (h : k.stageToken x i = 0) :
    x = 0 := by
  unfold stageToken at h
  dsimp only at h
  have hx : x * (KVAR_N_GROUP * k.stageGroups) = 0 := by omega
  refine (Nat.mul_eq_zero.mp hx).resolve_right fun hz => ?_
  have := hc.stageGroups
  rcases Nat.mul_eq_zero.mp hz with hz | hz
  · cases hz
  · omega

end Blocks

section Spares

variable {k : KvarnCache} {s : Nat}

/-- The slots of an arena and the slots of a store with that many arenas. -/
theorem slot_bounds {cfg : TailCfg} {other n : Nat} {x : Int} (h : InArena cfg other x)
    (hn : other < n) (hslots : cfg.arenaStride * n ≤ cfg.nSlots) :
    other * cfg.arenaStride ≤ x.toNat ∧ x.toNat < (other + 1) * cfg.arenaStride ∧
      (other + 1) * cfg.arenaStride ≤ cfg.nSlots := by
  obtain ⟨h1, h2⟩ := inArena_iff.mp h
  refine ⟨by omega, by omega, ?_⟩
  rw [Nat.mul_comm]
  exact (Nat.mul_le_mul_left _ hn).trans hslots

/-- With a stream for each sequence the block is the arena of the sequence, and behind the last
arena what no sequence has. -/
theorem zeroesTail_streams (h : k.Inv) (hc : k.Configured) (hs : s < k.metadata.cfg.nSeqMax)
    (hn : k.metadata.cfg.nStream ≠ 1) {t : TailStore} (ht : k.metadata.tail = some t) {other : Nat}
    (ho : other < k.metadata.cfg.nSeqMax) (hne : other ≠ s) {n : TailNode}
    (hm : n ∈ (t.seqs other).entries) : k.zeroesTail s n.slot.toNat = false := by
  rw [← Bool.not_eq_true]
  intro hz
  obtain ⟨b, hb, h1, h2⟩ := inBlock_iff.mp hz
  obtain ⟨t', ht', hstride, hb1, hb2⟩ := tailBlock_eq_some hb
  obtain rfl := Option.some.inj (ht.symm.trans ht')
  obtain ⟨hseqs, hslots⟩ := hc.tail t ht
  have harena := ((h.metadata.tail t ht).seq other (hseqs ▸ ho)).arena n hm
  obtain ⟨hlo, hhi, hend⟩ := slot_bounds harena (hseqs ▸ ho) hslots
  have hx : k.metadata.cfg.seqToStream s = s := by
    unfold CacheCfg.seqToStream
    exact if_pos (by have := hc.wf.streams; omega)
  rw [hx] at hb1
  have hstreams : k.metadata.cfg.nStream = k.metadata.cfg.nSeqMax := hc.wf.streams.resolve_left hn
  rcases Nat.lt_or_gt_of_ne hne with hlt | hgt
  · have := Nat.mul_le_mul_right t.cfg.arenaStride (show other + 1 ≤ s from hlt)
    omega
  · -- the sequence is not the last one, so the block ends with its arena
    have hle := Nat.mul_le_mul_right t.cfg.arenaStride (show s + 1 ≤ other from hgt)
    have hlast := Nat.mul_lt_mul_of_pos_right (show s + 1 < k.metadata.cfg.nStream by omega) hstride
    rw [succ_mul] at hle hlast
    rw [hb2, if_neg (by omega)] at h2
    omega

variable {b : Nat × Nat}

/-- In a unified cache with another sequence all slots are zeroed. -/
theorem zeroesTail_unified (hc : k.Configured) (hn : k.metadata.cfg.nStream = 1)
    (hb : k.tailBlock s = some b) {t : TailStore} (ht : k.metadata.tail = some t)
    (htwo : 1 < k.metadata.cfg.nSeqMax) {i : Nat} (hi : i < t.cfg.nSlots) :
    k.zeroesTail s i = true := by
  obtain ⟨t', ht', hstride, hb1, hb2⟩ := tailBlock_eq_some hb
  obtain rfl := Option.some.inj (ht.symm.trans ht')
  obtain ⟨hseqs, hslots⟩ := hc.tail t ht
  have hx : k.metadata.cfg.seqToStream s = 0 := by
    unfold CacheCfg.seqToStream
    exact if_neg (by omega)
  have htwo : t.cfg.arenaStride * 2 ≤ t.cfg.nSlots :=
    (Nat.mul_le_mul_left _ (hseqs ▸ htwo)).trans hslots
  rw [hx, Nat.zero_mul] at hb1
  rw [hb1, hn, Nat.one_mul, if_pos (by omega)] at hb2
  exact inBlock_iff.mpr ⟨b, hb, by omega, by omega⟩

theorem spares_tail_iff (h : k.Inv) (hc : k.Configured) (hs : s < k.metadata.cfg.nSeqMax)
    (hb : k.tailBlock s = some b) :
    (∀ t, k.metadata.tail = some t → ∀ other < k.metadata.cfg.nSeqMax, other ≠ s →
      ∀ n ∈ (t.seqs other).entries, k.zeroesTail s n.slot.toNat = false) ↔
    (k.metadata.cfg.nStream = 1 → ∀ t, k.metadata.tail = some t →
      ∀ other < k.metadata.cfg.nSeqMax, other ≠ s → (t.seqs other).entries = []) := by
  constructor
  · intro hsp hn t ht other ho hne
    refine eq_nil_iff_forall_not_mem.mpr fun n hm => ?_
    obtain ⟨hseqs, hslots⟩ := hc.tail t ht
    have harena := ((h.metadata.tail t ht).seq other (hseqs ▸ ho)).arena n hm
    obtain ⟨-, hhi, hend⟩ := slot_bounds harena (hseqs ▸ ho) hslots
    have hz := zeroesTail_unified hc hn hb ht (by omega) (lt_of_lt_of_le hhi hend)
    rw [hsp t ht other ho hne n hm] at hz
    cases hz
  · intro hal t ht other ho hne n hm
    by_cases hn : k.metadata.cfg.nStream = 1
    · rw [hal hn t ht other ho hne] at hm
      cases hm
    · exact zeroesTail_streams h hc hs hn ht ho hne hm

/-- A row of a token of the stage is zeroed exactly if the token is the first one and the row is in
the block. -/
theorem zeroesStage_iff (hc : k.Configured) (hs : s < k.metadata.cfg.nSeqMax)
    (hb : k.tailBlock s = some b) {heads token head : Nat} (hh : head < heads) :
    k.zeroesStage s heads (token * heads + head) = true ↔
      heads % k.metadata.cfg.nStream = 0 ∧ token = 0 ∧
        k.metadata.cfg.seqToStream s * (heads / k.metadata.cfg.nStream) ≤ head ∧
        head < (k.metadata.cfg.seqToStream s + 1) * (heads / k.metadata.cfg.nStream) := by
  unfold zeroesStage
  rw [hb, Option.isSome_some, Bool.true_and, inBlock_iff, succ_mul]
  constructor
  · rintro ⟨q, hq, h1, h2⟩
    obtain ⟨-, hm, rfl⟩ := (stageBlock_eq_some hc hs).mp hq
    have hend : (k.metadata.cfg.seqToStream s + 1) * (heads / k.metadata.cfg.nStream) ≤ heads :=
      (Nat.mul_le_mul_right _ (seqToStream_lt hc hs)).trans (mul_div_le _ _)
    rw [succ_mul] at hend
    obtain rfl : token = 0 := by
      by_contra h0
      have := Nat.mul_le_mul_right heads (one_le_iff_ne_zero.mpr h0)
      omega
    rw [Nat.zero_mul, Nat.zero_add] at h1 h2
    exact ⟨hm, rfl, h1, h2⟩
  · rintro ⟨hm, rfl, h1, h2⟩
    refine ⟨_, (stageBlock_eq_some hc hs).mpr ⟨by omega, hm, rfl⟩, ?_, ?_⟩
    · rw [Nat.zero_mul, Nat.zero_add]
      exact h1
    · rw [Nat.zero_mul, Nat.zero_add]
      exact h2

theorem spares_stage_iff (hc : k.Configured) (hs : s < k.metadata.cfg.nSeqMax)
    (hb : k.tailBlock s = some b) {heads : Nat} :
    (∀ x < k.metadata.cfg.nStream, ∀ i other, other ≠ s → other ∈ (k.metadata.cells x).seq i →
      k.usesStage x i = true → ∀ head < heads,
        k.zeroesStage s heads (k.stageToken x i * heads + head) = false) ↔
    (heads ≠ 0 → heads % k.metadata.cfg.nStream = 0 → ∀ i other, other ≠ s →
      other ∈ (k.metadata.cells 0).seq i → k.usesStage 0 i = true → k.stageToken 0 i ≠ 0) := by
  have hx := seqToStream_lt hc hs
  constructor
  · intro hsp h0 hm i other hne hmem hu htok
    -- the first row of the block is one of the first token
    have hheads : k.metadata.cfg.nStream * (heads / k.metadata.cfg.nStream) = heads :=
      Nat.mul_div_cancel' (dvd_of_mod_eq_zero hm)
    have hper : 0 < heads / k.metadata.cfg.nStream := by
      refine Nat.pos_of_ne_zero fun hz => h0 ?_
      rw [← hheads, hz, Nat.mul_zero]
    have hlt : k.metadata.cfg.seqToStream s * (heads / k.metadata.cfg.nStream) < heads :=
      (Nat.mul_lt_mul_of_pos_right hx hper).trans_eq hheads
    have hz := hsp 0 (by omega) i other hne hmem hu _ hlt
    rw [← Bool.not_eq_true] at hz
    refine hz ((zeroesStage_iff hc hs hb hlt).mpr ⟨hm, htok, le_rfl, ?_⟩)
    rw [succ_mul]
    omega
  · intro hal x hxn i other hne hmem hu head hh
    rw [← Bool.not_eq_true]
    intro hz
    obtain ⟨hm, htok, -, -⟩ := (zeroesStage_iff hc hs hb hh).mp hz
    obtain rfl := stream_of_stageToken hc htok
    exact hal (by omega) hm i other hne hmem hu htok

theorem Inv.spares_iff (h : k.Inv) (hc : k.Configured) (hs : s < k.metadata.cfg.nSeqMax) :
    k.SparesOthers s ↔ k.tailBlock s = none ∨ k.AloneIn s := by
  cases hb : k.tailBlock s with
  | none =>
    refine iff_of_true ⟨fun _ _ _ _ _ _ _ => ?_, fun _ _ _ _ _ _ _ _ _ _ _ _ _ => ?_⟩ (.inl rfl)
    · rw [zeroesTail, hb]
      rfl
    · rw [zeroesStage, hb]
      rfl
  | some b =>
    rw [or_iff_right (Option.some_ne_none b)]
    constructor
    · intro hsp
      exact ⟨(spares_tail_iff h hc hs hb).mp hsp.tail, fun l hl heads hh =>
        (spares_stage_iff hc hs hb).mp (hsp.stage l hl heads hh)⟩
    · intro hal
      exact ⟨(spares_tail_iff h hc hs hb).mpr hal.tail, fun l hl heads hh =>
        (spares_stage_iff hc hs hb).mpr (hal.stage l hl heads hh)⟩

end Spares

/-! ## Runs -/

/-- A call of the cache, or the part of one up to a call of `clear_tail_storage` inside it: `apply`
clears one sequence after the other, `seq_rm` clears after the removal from the metadata. -/
inductive ClearOp where
  | call (op : Op)
  | clearTailStorage (s : Nat)
  | removed (seqId p0 p1 : Int)

/-- The step. -/
def ClearOp.step (k : KvarnCache) : ClearOp → KvarnCache → Prop
  | .call op, k' => op.Asserts k ∧ op.call k = (k', .ok ())
  | .clearTailStorage s, k' => k.clearTailStorage s = (k', .ok ())
  | .removed seqId p0 p1, k' => ∃ k₁ r, k.applyPendingStreamCopies = (k₁, .ok ()) ∧
      k₁.canSeqRm seqId p0 p1 = true ∧
      k₁.onMetadata (k₁.metadata.seqRm seqId p0 p1) = (k', .ok r)

/-- The cache with the states in which it clears rows. -/
def clearSys : Sys KvarnCache ClearOp where
  init := New
  step k op k' := op.step k k'

theorem clear_inductive : clearSys.Inductive (fun _ _ => True) Inv where
  init _ := New.inv
  step k op k' h _ hstep _ := by
    cases op with
    | call op => exact h.call hstep.1 hstep.2
    | clearTailStorage s => exact h.clearTailStorage hstep
    | removed seqId p0 p1 =>
      obtain ⟨k1, r, e1, -, e⟩ := hstep
      have h1 := h.applyPendingStreamCopies e1
      obtain ⟨e, -⟩ := onMetadata_ok e
      exact h1.of_metadata (h1.metadata.seqRm e) (h1.plain.seqRm e)

/-- Wherever a run clears the rows of a sequence: these rows are zeroed, and they are rows of no
other sequence if and only if nothing is cleared or the sequence is alone. -/
theorem sparesOthers_iff {k : KvarnCache} (h : clearSys.Reach (fun _ _ => True) k)
    (hc : k.Configured) {s : Nat} (hs : s < k.metadata.cfg.nSeqMax) :
    (∃ k', k.clearTailStorage s = (k', .ok ()) ∧ k'.layers = k.layers.map (k.zeroLayer s)) ∧
      (k.SparesOthers s ↔ k.tailBlock s = none ∨ k.AloneIn s) := by
  have hi := h.inv clear_inductive
  exact ⟨clearTailStorage_layers hi.metadata s, hi.spares_iff hc hs⟩

/-! ## Two sequences in one stream -/

/-- A unified cache of two groups for two sequences. -/
def pairCfg : CacheCfg where
  nSeqMax := 2
  nStream := 1
  kvSize := 256
  allocationGroupSize := 128
  tailMetadataOnly := true

/-- A tail of two rows for each of them. -/
def pairTail : TailStore := { cfg := ⟨2, 0, 2, 2, 5, false, 2⟩ }

/-- A KVarN cache with one layer of two heads. -/
def pair : KvarnCache where
  metadata := KvCache.create pairCfg (some pairTail)
  layers := [{ nHeadK := 2, nHeadV := 2 }]
  stageGroups := 2
  nGroupsPerStream := 2

theorem pair_new : pair.New := by
  refine ⟨⟨pairCfg, some pairTail, ⟨by decide, .inl rfl, fun _ => by decide⟩, fun t ht => ?_,
    rfl⟩, rfl, rfl⟩
  cases ht
  exact ⟨.inl ⟨2, 2, 2, 1, rfl⟩, rfl⟩

/-- The cache with the first token of sequence `0`. -/
def firstToken : KvarnCache := (pair.apply ⟨0, 0, [0], [[0]]⟩ (KvCache.oneToken 0 0)).1

theorem firstToken_reach : clearSys.Reach (fun _ _ => True) firstToken := by
  have ha : (Op.apply ⟨0, 0, [0], [[0]]⟩ (oneToken 0 0)).Asserts pair := by
    intro q hq
    have hq' : q = ⟨0, 0, ⟨0, {}, [0]⟩, 0⟩ := by simpa [SlotInfo.placements, SlotInfo.cells,
      oneToken] using hq
    subst hq'
    refine ⟨?_, le_refl 0, nodup_singleton 0, ?_, fun _ _ => rfl⟩
    · show 0 < 256
      decide
    · intro s hs
      rw [mem_singleton.mp hs]
      decide
  have e : (pair.apply ⟨0, 0, [0], [[0]]⟩ (oneToken 0 0)).2 = .ok () := by decide +kernel
  have hstep : clearSys.step pair (.call (.apply ⟨0, 0, [0], [[0]]⟩ (oneToken 0 0)))
    firstToken := ⟨ha, Prod.ext rfl e⟩
  exact Sys.Reach.step (.init pair_new) (fun _ ho => absurd ho (Set.notMem_empty _)) hstep trivial

theorem firstToken_configured : firstToken.Configured := by
  have hcfg : firstToken.metadata.cfg = pairCfg := by decide +kernel
  have htail : firstToken.metadata.tail.map (·.cfg) = some pairTail.cfg := by decide +kernel
  refine ⟨hcfg ▸ ⟨by decide, .inl rfl, fun _ => by decide⟩, fun t ht => ?_, by decide +kernel,
    fun _ => by decide +kernel⟩
  rw [ht] at htail
  have hc : t.cfg = pairTail.cfg := Option.some.inj htail
  rw [hc, hcfg]
  exact ⟨rfl, by decide⟩

set_option maxRecDepth 20000 in
/-- The rows of sequence `0` can be zeroed: sequence `1` has none. -/
theorem firstToken_sparesOthers : firstToken.SparesOthers 0 := by
  refine ((sparesOthers_iff firstToken_reach firstToken_configured
    (by decide +kernel)).2).mpr (.inr ⟨fun _ t ht other ho hne => ?_,
      fun l _ heads _ _ _ i other hne hmem _ => ?_⟩)
  · have hn : firstToken.metadata.cfg.nSeqMax = 2 := by decide +kernel
    obtain rfl : other = 1 := by omega
    have he : (firstToken.metadata.tail.map fun t => (t.seqs 1).entries) = some [] := by
      decide +kernel
    rw [ht] at he
    exact Option.some.inj he
  · exfalso
    have hi := firstToken_reach.inv clear_inductive
    by_cases h256 : i < 256
    · have key : ∀ i < 256, (firstToken.metadata.cells 0).seq i ⊆ {0} := by decide +kernel
      exact hne (Finset.mem_singleton.mp (key i h256 hmem))
    · have hk : firstToken.metadata.cfg.kvSize = 256 := by decide +kernel
      have hp := (hi.metadata.cells 0).out i (by omega)
      exact (hi.metadata.cells 0).pos_ne_of_mem hmem hp

/-- The rows of sequence `1` cannot: the tail slot of sequence `0` is zeroed with them. -/
theorem not_sparesOthers : ¬ ∀ (k : KvarnCache) (s : Nat),
    clearSys.Reach (fun _ _ => True) k → k.Configured → s < k.metadata.cfg.nSeqMax →
      k.SparesOthers s := by
  intro h
  have hsp := h firstToken 1 firstToken_reach firstToken_configured (by decide +kernel)
  have he : (firstToken.metadata.tail.map fun t => (t.seqs 0).entries.map (·.slot)) =
      some [0] := by decide +kernel
  obtain ⟨t, ht, he⟩ := Option.map_eq_some_iff.mp he
  obtain ⟨n, hn, hslot⟩ := mem_map.mp (he ▸ mem_singleton_self (0 : Int))
  have hz := hsp.tail t ht 0 (by decide +kernel) (by decide) n hn
  rw [hslot] at hz
  exact absurd hz (by decide +kernel)

end BeeLlama.KvarnCache
