import BeeLlama.Kv.TailOwned
import BeeLlama.Lib.Run
import Mathlib.Tactic.IntervalCases

/-!
# Runs of the tail store

`TailStore.Op` is a call of a public operation and `TailStore.sys` the store with these calls, from
either constructor; a call that throws is not a step.

* `inv_inductive`: `Inv` (order, index, arenas, size) holds along every run.
* `owned_inductive`: `Owned` (which slots are taken) holds along the runs whose steps meet
  `Op.KeepsSlots`: a copy is committed while its slots are taken, a batch is rolled back while its
  slots are held.
* `reach_rep`: so the store represents what `Rep` says.
-/

namespace BeeLlama.TailStore

/-- A call of a public operation. -/
inductive Op where
  | beginBatch
  | commit (seqId : Int) (identity : TailIdentity) (position : Int) (ordinal row : Nat)
  | recycle (stream cell generation : Nat)
  | finishBatch (success payload : Bool)
  | prepareSeqCp (src dst : Int) (srcStream dstStream : Nat) (p0 p1 : Int)
  | commitSeqCp
  | cancelSeqCp
  | seqRm (seqId p0 p1 : Int)
  | seqRmCell (seqId : Int) (stream cell : Nat)
  | seqKeep (seqId : Int)
  | seqAdd (seqId p0 p1 shift : Int)
  | seqDiv (seqId p0 p1 divisor : Int)
  | invalidateSlots (slots : List Int) (flags : Nat)
  | markDegraded (seqId : Int) (flags : Nat)
  | resetWriteCursor (seqId : Int)
  | restoreWriteCursor (seqId : Int) (cursor : Nat)
  | restore (seqId : Int) (identity : TailIdentity) (position : Int) (ordinal localSlot : Nat)
  | clear
  | clone (source : TailStore)

/-- The outcome without the returned value. -/
def Out.void {α : Type} (o : Out α) : Out Unit := (o.1, o.2.map fun _ => ())

/-- The outcome of the call. -/
def Op.apply (st : TailStore) : Op → Out Unit
  | .beginBatch => st.beginBatch
  | .commit seqId identity position ordinal row =>
    Out.void (st.commit seqId identity position ordinal row)
  | .recycle stream cell generation => (st.recycle stream cell generation, .ok ())
  | .finishBatch success payload => st.finishBatch success payload
  | .prepareSeqCp src dst srcStream dstStream p0 p1 =>
    Out.void (st.prepareSeqCp src dst srcStream dstStream p0 p1)
  | .commitSeqCp => st.commitSeqCp
  | .cancelSeqCp => (st.cancelSeqCp, .ok ())
  | .seqRm seqId p0 p1 => st.seqRm seqId p0 p1
  | .seqRmCell seqId stream cell => st.seqRmCell seqId stream cell
  | .seqKeep seqId => st.seqKeep seqId
  | .seqAdd seqId p0 p1 shift => st.seqAdd seqId p0 p1 shift
  | .seqDiv seqId p0 p1 divisor => st.seqDiv seqId p0 p1 divisor
  | .invalidateSlots slots flags => st.invalidateSlots slots flags
  | .markDegraded seqId flags => (st.markDegraded seqId flags, .ok ())
  | .resetWriteCursor seqId => st.resetWriteCursor seqId
  | .restoreWriteCursor seqId cursor => st.restoreWriteCursor seqId cursor
  | .restore seqId identity position ordinal localSlot =>
    Out.void (st.restore seqId identity position ordinal localSlot)
  | .clear => (st.clear, .ok ())
  | .clone source => st.cloneLogicalStateFrom source

/-- The store that a call reads. -/
def Op.source : Op → Option TailStore
  | .clone source => some source
  | _ => none

/-- The store with its calls, from either constructor. -/
def sys : Sys TailStore Op where
  init st := (∃ nTokens nSeqMax arenaStride sinkSlots,
      create nTokens nSeqMax arenaStride sinkSlots = .ok st) ∨
    ∃ nTokens rollbackTokens nSeqMax historyStride sinkSlots,
      createCompact nTokens rollbackTokens nSeqMax historyStride sinkSlots = .ok st
  step st op st' := op.apply st = (st', .ok ())
  sources op := { o | op.source = some o }

theorem Out.void_ok {α : Type} {o : Out α} {st : TailStore} (h : Out.void o = (st, .ok ())) :
    ∃ a, o = (st, .ok a) := by
  obtain ⟨s, r⟩ := o
  obtain ⟨rfl, hr⟩ := Prod.mk.inj h
  cases r with
  | ok a => exact ⟨a, rfl⟩
  | error e => cases hr

/-! ## The entries -/

/-- Every call that does not throw keeps the entries in order and indexed. -/
theorem Inv.apply {st st' : TailStore} (h : st.Inv) {op : Op}
    (ho : ∀ o, op.source = some o → o.Inv) (e : op.apply st = (st', .ok ())) : st'.Inv := by
  have hfst : ∀ {o : Out Unit}, o = (st', .ok ()) → o.1 = st' := fun h => by rw [h]
  cases op with
  | beginBatch => exact h.beginBatch e
  | commit seqId identity position ordinal row =>
    obtain ⟨a, e⟩ := Out.void_ok e
    have := h.commit seqId identity position ordinal row
    rwa [e] at this
  | recycle stream cell generation => rw [← hfst e]; exact h.recycle
  | finishBatch success payload => exact h.finishBatch e
  | prepareSeqCp src dst srcStream dstStream p0 p1 =>
    obtain ⟨a, e⟩ := Out.void_ok e
    exact h.prepareSeqCp e
  | commitSeqCp => exact h.commitSeqCp e
  | cancelSeqCp => rw [← hfst e]; exact h.cancelSeqCp
  | seqRm seqId p0 p1 => rw [← hfst e]; exact (h.seqRm seqId p0 p1).2
  | seqRmCell seqId stream cell => rw [← hfst e]; exact h.seqRmCell.2
  | seqKeep seqId => rw [← hfst e]; exact h.seqKeep.2
  | seqAdd seqId p0 p1 shift => rw [← hfst e]; exact h.seqAdd.2
  | seqDiv seqId p0 p1 divisor => rw [← hfst e]; exact h.seqDiv.2
  | invalidateSlots slots flags => rw [← hfst e]; exact h.invalidateSlots.2
  | markDegraded seqId flags => rw [← hfst e]; exact h.markDegraded
  | resetWriteCursor seqId => rw [← hfst e]; exact h.resetWriteCursor.2
  | restoreWriteCursor seqId cursor => rw [← hfst e]; exact h.restoreWriteCursor
  | restore seqId identity position ordinal localSlot =>
    obtain ⟨a, e⟩ := Out.void_ok e
    exact h.restore e
  | clear => rw [← hfst e]; exact h.clear
  | clone source => exact h.clone (ho source rfl) e

theorem sys_init {st : TailStore} (h : sys.init st) : st.cfg.WF ∧ st = { cfg := st.cfg } := by
  rcases h with ⟨_, _, _, _, e⟩ | ⟨_, _, _, _, _, e⟩
  · exact create_eq e
  · exact createCompact_eq e

theorem inv_inductive (ok : TailStore → Op → Prop) : sys.Inductive ok Inv where
  init _ h := inv_of_new (sys_init h).1 (sys_init h).2
  step _ _ _ h ho e _ := h.apply ho e

/-! ## The slots -/

/-- No copy is prepared in a batch, and divisors are positive. -/
def Op.Allowed (st : TailStore) : Op → Prop
  | .prepareSeqCp .. => st.inBatch = false
  | .seqDiv _ _ _ divisor => 0 < divisor
  | _ => True

/-- The two calls that bring slots back find them taken. -/
def Op.KeepsSlots (st : TailStore) : Op → Prop
  | .commitSeqCp => st.Committable
  | .finishBatch false _ => st.Restorable
  | _ => True

theorem Owned.apply {st st' : TailStore} (hi : st.Inv) (h : st.Owned) {op : Op}
    (ho : ∀ o, op.source = some o → o.Inv ∧ o.Owned) (ha : op.Allowed st)
    (hk : op.KeepsSlots st) (e : op.apply st = (st', .ok ())) : st'.Owned := by
  have hfst : ∀ {o : Out Unit}, o = (st', .ok ()) → o.1 = st' := fun h => by rw [h]
  cases op with
  | beginBatch => exact h.beginBatch hi e
  | commit seqId identity position ordinal row =>
    obtain ⟨a, e⟩ := Out.void_ok e
    exact h.commit hi e
  | recycle stream cell generation => rw [← hfst e]; exact h.recycle hi stream cell generation
  | finishBatch success payload =>
    refine h.finishBatch hi (fun hs => ?_) e
    subst hs
    exact hk
  | prepareSeqCp src dst srcStream dstStream p0 p1 =>
    obtain ⟨a, e⟩ := Out.void_ok e
    exact (h.prepareSeqCp hi ha e).1
  | commitSeqCp => exact h.commitSeqCp hi hk e
  | cancelSeqCp => rw [← hfst e]; exact h.cancelSeqCp hi
  | seqRm seqId p0 p1 => rw [← hfst e]; exact h.seqRm hi seqId p0 p1
  | seqRmCell seqId stream cell => rw [← hfst e]; exact h.seqRmCell hi seqId stream cell
  | seqKeep seqId => rw [← hfst e]; exact h.seqKeep hi seqId
  | seqAdd seqId p0 p1 shift => rw [← hfst e]; exact h.seqAdd hi seqId p0 p1 shift
  | seqDiv seqId p0 p1 divisor => rw [← hfst e]; exact h.seqDiv hi seqId p0 p1 divisor
  | invalidateSlots slots flags => rw [← hfst e]; exact h.invalidateSlots hi slots flags
  | markDegraded seqId flags => rw [← hfst e]; exact h.markDegraded seqId flags
  | resetWriteCursor seqId => rw [← hfst e]; exact h.resetWriteCursor hi seqId
  | restoreWriteCursor seqId cursor => rw [← hfst e]; exact h.restoreWriteCursor seqId cursor
  | restore seqId identity position ordinal localSlot =>
    obtain ⟨a, e⟩ := Out.void_ok e
    exact h.restore e
  | clear => rw [← hfst e]; exact owned_of_empty (fun _ hs => if_pos hs) rfl rfl
  | clone source => exact Owned.clone (ho source rfl).1 (ho source rfl).2 e

theorem owned_inductive :
    sys.Inductive (fun st op => op.Allowed st ∧ op.KeepsSlots st) fun st => st.Inv ∧ st.Owned where
  init st hst := by
    obtain ⟨hcfg, h⟩ := sys_init hst
    exact ⟨inv_of_new hcfg h, owned_of_empty (fun s _ => by rw [h]) (by rw [h]) (by rw [h])⟩
  step _ _ _ h ho e hk :=
    ⟨h.1.apply (fun o hso => (ho o hso).1) e, h.2.apply h.1 ho hk.1 hk.2 e⟩

/-! ## What the store represents -/

/-- What the store says about sequence `s`. -/
structure Rep (st : TailStore) (s : Nat) : Prop where
  sorted : (st.seqs s).entries.Pairwise fun a b =>
    a.position < b.position ∨ (a.position = b.position ∧ a.ordinal ≤ b.ordinal)
  /-- `entry_by_cell` leads from a cell to the address of the entry with the cell. -/
  index : ∀ k i, (st.seqs s).index k = some i ↔ ∃ n ∈ (st.seqs s).entries, n.key = k ∧ n.id = i
  unique : ∀ n ∈ (st.seqs s).entries, ∀ m ∈ (st.seqs s).entries, n.key = m.key ∨ n.id = m.id → n = m
  arena : ∀ n ∈ (st.seqs s).entries, (s * st.cfg.arenaStride : Nat) ≤ n.slot ∧
    n.slot < ((s + 1) * st.cfg.arenaStride : Nat)
  slots : ((st.seqs s).entries.map (·.slot)).Nodup
  used : ∀ l, l < st.cfg.arenaStride → ((st.seqs s).used l = true ↔
    (∃ n ∈ (st.seqs s).entries, n.slot = (s * st.cfg.arenaStride + l : Nat)) ∨
      ((s * st.cfg.arenaStride + l : Nat) : Int) ∈ st.acquired s)
  bound : st.cfg.compactStorage = true → st.inBatch = false →
    (st.seqs s).entries.length ≤ st.cfg.historyLimit

theorem Owned.rep {st : TailStore} (hi : st.Inv) (h : st.Owned) {s : Nat}
    (hs : s < st.cfg.nSeqMax) : st.Rep s where
  sorted := (hi.seq s hs).sorted.imp fun h => by
    simp only [TailEntry.Le, TailEntry.Before] at h
    omega
  index := (hi.seq s hs).index
  unique n hn m hm := by
    rintro (e | e)
    · exact (hi.seq s hs).eq_of_key hn hm e
    · exact (hi.seq s hs).eq_of_id hn hm e
  arena n hn := inArena_iff.mp ((hi.seq s hs).arena n hn)
  slots := (h.seq s hs).slots
  used l hl := by
    rw [(h.seq s hs).used l hl, List.mem_map]
    rfl
  bound hc _ := hi.bound hc s hs

/-- Every run whose copies are committed and whose batches are rolled back with their slots taken
keeps the representation, and `begin_batch` trims to `n_tokens`. -/
theorem reach_rep {st : TailStore}
    (h : sys.Reach (fun st op => op.Allowed st ∧ op.KeepsSlots st) st) :
    (∀ s, s < st.cfg.nSeqMax → st.Rep s) ∧
    (st.cfg.compactStorage = false → ∀ st', st.beginBatch = (st', .ok ()) →
      ∀ s, s < st.cfg.nSeqMax → (st'.seqs s).entries.length ≤ st.cfg.nTokens) := by
  obtain ⟨hi, ho⟩ := h.inv owned_inductive
  refine ⟨fun s hs => ho.rep hi hs, fun hc st' e s hs => ?_⟩
  have := beginBatch_length e hs
  simpa [TailCfg.limit, hc] using this

/-! ## Runs of a list of calls -/

/-- The calls, one after the other. -/
def runOps (ops : List Op) (st : TailStore) : TailStore :=
  ops.foldl (fun st op => (op.apply st).1) st

/-- The calls all return, read no other store, and meet `ok`. -/
def Runs (ok : TailStore → Op → Prop) : List Op → TailStore → Prop
  | [], _ => True
  | op :: ops, st => op.source = none ∧ (op.apply st).2 = .ok () ∧ ok st op ∧
      Runs ok ops (op.apply st).1

theorem reach_runOps {ok : TailStore → Op → Prop} {ops : List Op} :
    ∀ {st : TailStore}, sys.Reach ok st → Runs ok ops st → sys.Reach ok (runOps ops st) := by
  induction ops with
  | nil => intro st h _; exact h
  | cons op ops ih =>
    rintro st h ⟨hs, hr, hk, hops⟩
    refine ih (h.step (fun o ho => ?_) (Prod.ext rfl hr) hk) hops
    have : op.source = some o := ho
    rw [hs] at this
    cases this

/-- A store with two sequences of two slots each. -/
def twoSeqs : TailStore := { cfg := ⟨2, 0, 2, 2, 4, false, 2⟩ }

theorem twoSeqs_init : sys.init twoSeqs := .inl ⟨2, 2, 2, 0, rfl⟩

/-- One entry for each sequence, then a copy of sequence `0` to sequence `1`. -/
def copyOps : List Op :=
  [.commit 0 ⟨0, 0, 1⟩ 0 0 UINT32_MAX, .commit 1 ⟨0, 1, 1⟩ 5 1 UINT32_MAX,
    .prepareSeqCp 0 1 0 0 0 1]

/-- A copy that is committed at once. -/
theorem reach_rep_copy : sys.Reach (fun st op => op.Allowed st ∧ op.KeepsSlots st)
        (runOps (copyOps ++ [.commitSeqCp]) twoSeqs) ∧
      ∀ s, s < 2 → (runOps (copyOps ++ [.commitSeqCp]) twoSeqs).Rep s := by
  have hc : (runOps copyOps twoSeqs).Committable := by
    intro p hp l hl _
    cases hp
    have hl' : l < 2 := hl
    interval_cases l <;> rfl
  have h : sys.Reach (fun st op => op.Allowed st ∧ op.KeepsSlots st)
      (runOps (copyOps ++ [.commitSeqCp]) twoSeqs) :=
    reach_runOps (.init twoSeqs_init)
      ⟨rfl, rfl, ⟨trivial, trivial⟩, rfl, rfl, ⟨trivial, trivial⟩, rfl, rfl, ⟨rfl, trivial⟩,
        rfl, rfl, ⟨trivial, hc⟩, trivial⟩
  exact ⟨h, (reach_rep h).1⟩

/-- The destination loses an entry between the two calls: its slot is in the list again, but not
marked as used. -/
theorem reach_not_rep : ¬ ∀ st, sys.Reach (fun st op => op.Allowed st) st →
      (∀ s, s < st.cfg.nSeqMax → st.Rep s) ∧
      (st.cfg.compactStorage = false → ∀ st', st.beginBatch = (st', .ok ()) →
        ∀ s, s < st.cfg.nSeqMax → (st'.seqs s).entries.length ≤ st.cfg.nTokens) := by
  intro h
  have hr : sys.Reach (fun st op => op.Allowed st)
      (runOps (copyOps ++ [.seqRm 1 5 6, .commitSeqCp]) twoSeqs) :=
    reach_runOps (.init twoSeqs_init)
      ⟨rfl, rfl, trivial, rfl, rfl, trivial, rfl, rfl, rfl, rfl, rfl, trivial, rfl, rfl, trivial,
        trivial⟩
  have hu := ((h _ hr).1 1 (by decide)).used 0 (by decide)
  have : ((runOps (copyOps ++ [.seqRm 1 5 6, .commitSeqCp]) twoSeqs).seqs 1).used 0 = true :=
    hu.mpr (.inl (by decide))
  exact absurd this (by decide)

end BeeLlama.TailStore
