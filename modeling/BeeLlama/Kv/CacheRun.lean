import BeeLlama.Kv.PrepareInv
import BeeLlama.Kv.TailRun

/-!
# Runs of the KV cache

`KvCache.Op` is a call of one function of the cache, `Op.Asserts` what the function asserts or its
callers promise, and `KvCache.sys` the cache with these calls, from the constructor on. A call
that throws ends the run.

* `inv_inductive`: if every call meets `Op.KeepsUsed`, `KvCache.Inv` is an inductive invariant.
* `reach_prepare_restores`: then a trial of harmless steps is a dry run.
-/

namespace BeeLlama

/-- What the constructor checks: a stream for each sequence or one for all, and groups that divide
the cells (`set_allocation_group_size`). -/
structure CacheCfg.WF (cfg : CacheCfg) : Prop where
  seqs : cfg.nSeqMax ≤ LLAMA_MAX_SEQ
  streams : cfg.nStream = 1 ∨ cfg.nStream = cfg.nSeqMax
  groups : cfg.allocationGroupSize > 1 → cfg.kvSize % cfg.allocationGroupSize = 0 ∧
    0 < cfg.allocationStageGroups ∧ cfg.allocationStageGroups ≤ cfg.nGroups

namespace KvCache

/-- A call of the cache. -/
inductive Op where
  | findSlot (u : Ubatch)
  | prepare (us : List Ubatch)
  | applyUbatch (i : SlotInfo) (u : Ubatch)
  | finishTailBatch (success payloadMayBeModified : Bool)
  | seqRm (seqId p0 p1 : Int)
  | seqRmCell (s cellIdx : Nat)
  | seqCp (src dst : Nat) (p0 p1 : Int)
  | seqKeep (s : Nat)
  | seqAdd (s : Nat) (p0 p1 shift : Int)
  | seqDiv (s : Nat) (p0 p1 d : Int)
  | update
  | clear (data : Bool)

/-- The call, without the value that it returns. -/
def Op.call (st : KvCache) : Op → COut Unit
  | .findSlot u => andThen (st.findSlot u) fun st _ => (st, .ok ())
  | .prepare us => andThen (st.prepare us) fun st _ => (st, .ok ())
  | .applyUbatch i u => st.applyUbatch i u
  | .finishTailBatch success payload => st.finishTailBatch success payload
  | .seqRm seqId p0 p1 => andThen (st.seqRm seqId p0 p1) fun st _ => (st, .ok ())
  | .seqRmCell s cellIdx => st.seqRmCell s cellIdx
  | .seqCp src dst p0 p1 => st.seqCp src dst p0 p1
  | .seqKeep s => st.seqKeep s
  | .seqAdd s p0 p1 shift => st.seqAdd s p0 p1 shift
  | .seqDiv s p0 p1 d => st.seqDiv s p0 p1 d
  | .update => st.update
  | .clear data => (st.clear data, .ok ())

/-- What the call asserts, or its callers promise. -/
def Op.Asserts (st : KvCache) : Op → Prop
  | .prepare us => ∀ u ∈ us, u.Ok st.cfg
  | .applyUbatch i u => SlotOk st.cfg i u
  | .seqRmCell _ cellIdx => cellIdx < st.cfg.kvSize
  | .seqCp src dst p0 p1 => dst < LLAMA_MAX_SEQ ∧
      (src ≠ dst → st.cfg.seqToStream src = st.cfg.seqToStream dst → ∀ i,
        ((st.cells (st.cfg.seqToStream src)).cell i).Holds src (rangeBegin p0) (rangeEnd p1) →
          dst ∉ (st.cells (st.cfg.seqToStream src)).seq i)
  | _ => True

/-- The call gives no cell the position `-1`: a divisor is positive, and a copy to another stream
meets no cell that was at `-1` before its pending shift. -/
def Op.KeepsUsed (st : KvCache) : Op → Prop
  | .seqCp src dst _ _ => st.cfg.seqToStream src ≠ st.cfg.seqToStream dst → ∀ i,
      src ∈ (st.cells (st.cfg.seqToStream src)).seq i →
        (st.cells (st.cfg.seqToStream src)).pos i - (st.cells (st.cfg.seqToStream src)).shift i ≠ -1
  | .seqDiv _ _ _ d => 0 < d
  | _ => True

/-- The cache with its calls, from the constructor on. -/
def sys : Sys KvCache Op where
  init st := ∃ cfg tail, cfg.WF ∧
    (∀ t, tail = some t → TailStore.sys.init t ∧ t.cfg.nSeqMax = cfg.nSeqMax) ∧
    st = create cfg tail
  step st op st' := op.Asserts st ∧ op.call st = (st', .ok ())

theorem sys_call {ok : KvCache → Op → Prop} {st st' : KvCache} (h : sys.Reach ok st) (op : Op)
    (ha : op.Asserts st) (hk : ok st op) (e : op.call st = (st', .ok ())) : sys.Reach ok st' :=
  h.step (fun _ ho => absurd ho (Set.notMem_empty _)) ⟨ha, e⟩ hk

theorem create_inv {cfg : CacheCfg} {tail : Option TailStore}
    (ht : ∀ t, tail = some t → TailStore.sys.init t) : (create cfg tail).Inv where
  cells _ := ⟨KvCells.CellsOk.reset rfl, fun _ s hs => absurd hs (Finset.notMem_empty s)⟩
  tail t h := TailStore.inv_of_new (TailStore.sys_init (ht t h)).1 (TailStore.sys_init (ht t h)).2

/-- The step lemma: a call keeps the invariant and the configuration. -/
theorem Inv.call {st st' : KvCache} {op : Op} (h : st.Inv) (ha : op.Asserts st)
    (hk : op.KeepsUsed st) (e : op.call st = (st', .ok ())) : st'.Inv ∧ st'.cfg = st.cfg := by
  cases op with
  | findSlot u =>
    obtain ⟨st1, r, e1, e⟩ := andThen_ok e
    cases e
    obtain ⟨sealed, rfl⟩ := findSlot_eq e1
    exact ⟨⟨h.cells, h.tail⟩, rfl⟩
  | prepare us =>
    obtain ⟨st1, r, e1, e⟩ := andThen_ok e
    cases e
    exact h.prepare ha e1
  | applyUbatch i u => exact h.applyUbatch ha e
  | finishTailBatch success payload => exact h.finishTailBatch e
  | seqRm seqId p0 p1 =>
    obtain ⟨st1, r, e1, e⟩ := andThen_ok e
    cases e
    exact h.seqRm e1
  | seqRmCell s cellIdx => exact h.seqRmCell ha e
  | seqCp src dst p0 p1 => exact h.seqCp ⟨ha.1, ha.2, hk⟩ e
  | seqKeep s => exact h.seqKeep e
  | seqAdd s p0 p1 shift => exact h.seqAdd e
  | seqDiv s p0 p1 d => exact h.seqDiv hk e
  | update => exact h.update e
  | clear data =>
    cases e
    exact ⟨h.clear data, rfl⟩

theorem inv_inductive : sys.Inductive (fun st op => op.KeepsUsed st) Inv where
  init _ := by
    rintro ⟨cfg, tail, -, ht, rfl⟩
    exact create_inv fun t h => (ht t h).1
  step _ _ _ h _ hstep hk := (h.call hstep.1 hk hstep.2).1

theorem COut.eq_of_snd {α : Type} {o : COut α} {r : Except KvError α} (h : o.2 = r) :
    o = (o.1, r) :=
  Prod.ext rfl h

/-- A ubatch with the token of sequence `s` at position `p`. -/
def oneToken (s : Nat) (p : Int) : Ubatch := ⟨[⟨p, {}, [s]⟩], [s], false⟩

theorem oneToken_ok {cfg : CacheCfg} {s : Nat} {p : Int} (hs : s < LLAMA_MAX_SEQ) (hp : 0 ≤ p) :
    (oneToken s p).Ok cfg where
  pos := by simpa [oneToken] using hp
  nodup := by simp [oneToken]
  lt := by simpa [oneToken] using hs
  unq := by simp [oneToken]
  ne := by simp [oneToken]
  equal _ k t e := by
    cases k with
    | zero => simp [oneToken] at e; subst e; simp [oneToken]
    | succ k => simp [oneToken] at e

/-- A unified cache of two cells for one sequence. -/
def twoCells : KvCache := create { nSeqMax := 1, nStream := 1, kvSize := 2 } none

theorem twoCells_reach (ok : KvCache → Op → Prop) : sys.Reach ok twoCells :=
  .init ⟨{ nSeqMax := 1, nStream := 1, kvSize := 2 }, none,
    ⟨by decide, .inl rfl, fun h => absurd h (by decide)⟩, by simp, rfl⟩

/-- A cache of two streams of two cells. -/
def twoStreams : KvCache := create { nSeqMax := 2, nStream := 2, kvSize := 2 } none

/-- The two streams with a token of sequence `0`. -/
def twoStreamsOne : KvCache := (twoStreams.applyUbatch ⟨0, 0, [0], [[0]]⟩ (oneToken 0 0)).1

theorem twoStreamsOne_reach : sys.Reach (fun st op => op.KeepsUsed st) twoStreamsOne := by
  have h0 : sys.Reach (fun st op => op.KeepsUsed st) twoStreams :=
    .init ⟨{ nSeqMax := 2, nStream := 2, kvSize := 2 }, none,
      ⟨by decide, .inr rfl, fun h => absurd h (by decide)⟩, by simp, rfl⟩
  refine sys_call h0 (.applyUbatch ⟨0, 0, [0], [[0]]⟩ (oneToken 0 0)) (fun p hp => ?_) trivial
    (COut.eq_of_snd (by decide +kernel))
  have hp' : p = ⟨0, 0, ⟨0, {}, [0]⟩, 0⟩ := by simpa [SlotInfo.placements, SlotInfo.cells,
    oneToken] using hp
  subst hp'
  exact ⟨by decide, by decide, by decide, by decide, by decide⟩

end KvCache
end BeeLlama
