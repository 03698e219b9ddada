import BeeLlama.Kv.Tail
import Mathlib.Data.List.Chain

/-!
# Runs of slots and of cells

* `slotRuns`: `llama_kv_tail_contiguous_slot_runs`; `sourceRuns`: `source_runs`. The last run of a
  loop is the head of its list.
* `RunsOf`: what both loops keep. `RunsOf.expand` and `RunsOf.separate` are about all such runs.
-/

namespace BeeLlama

open List

/-- `length` elements from `first` on, at the places from `offset` on. -/
structure Run (α : Type) where
  offset : Nat
  first : α
  length : Nat

namespace Run

section General

variable {α : Type} (adv : α → Nat → α)

/-- The elements of a run with their places. -/
def expand (r : Run α) : List (Nat × α) :=
  (List.range r.length).map fun i => (r.offset + i, adv r.first i)

/-- `b` goes on where `a` ends. -/
def Mergeable (a b : Run α) : Prop :=
  a.offset + a.length = b.offset ∧ adv a.first a.length = b.first

/-- The last run with one more element. -/
def grow : List (Run α) → List (Run α)
  | [] => []
  | r :: rs => { r with length := r.length + 1 } :: rs

/-- The runs of a list, the last one first. -/
inductive RunsOf : List (Run α) → List α → Prop
  | nil : RunsOf [] []
  | grow {r : Run α} {rs : List (Run α)} {xs : List α} :
      RunsOf (r :: rs) xs → RunsOf (grow (r :: rs)) (xs ++ [adv r.first r.length])
  | push {rs : List (Run α)} {xs : List α} {x : α} :
      RunsOf rs xs → (∀ r ∈ rs.head?, adv r.first r.length ≠ x) →
      RunsOf (⟨xs.length, x, 1⟩ :: rs) (xs ++ [x])

variable {adv} {rs : List (Run α)} {r : Run α} {xs : List α}

theorem RunsOf.stop (h : RunsOf adv (r :: rs) xs) : r.offset + r.length = xs.length := by
  generalize hl : r :: rs = l at h
  induction h generalizing r rs with
  | nil => cases hl
  | grow _ ih =>
    cases hl
    rw [length_append, ← ih rfl]
    rfl
  | push =>
    cases hl
    simp

theorem RunsOf.expand (h0 : ∀ x, adv x 0 = x) (h : RunsOf adv rs xs) :
    rs.reverse.flatMap (expand adv) = xs.mapIdx Prod.mk := by
  induction h with
  | nil => rfl
  | grow h ih =>
    rw [mapIdx_append, ← ih, Run.grow, reverse_cons, reverse_cons,
      flatMap_append, flatMap_append, append_assoc]
    simp [Run.expand, range_succ, h.stop]
  | push h _ ih =>
    rw [mapIdx_append, ← ih, reverse_cons, flatMap_append]
    simp [Run.expand, h0]

/-- No run goes on where the one before it ends. -/
theorem RunsOf.separate (h : RunsOf adv rs xs) :
    rs.reverse.IsChain fun a b => ¬ Mergeable adv a b := by
  rw [isChain_reverse]
  induction h with
  | nil => exact .nil
  | grow _ ih => exact ih.imp_head fun hm h => hm h
  | push _ hne ih => exact ih.cons fun r hr h => hne r hr h.2

end General

/-- `llama_kv_tail_contiguous_slot_runs`, after the first slot. -/
def slotLoop (runs : List (Run Int)) (payload : Nat) (prev : Int) : List Int → List (Run Int)
  | [] => runs.reverse
  | slot :: slots =>
    slotLoop (if slot = prev + 1 then grow runs else ⟨payload, slot, 1⟩ :: runs) (payload + 1) slot
      slots

/-- `llama_kv_tail_contiguous_slot_runs`. -/
def slotRuns : List Int → List (Run Int)
  | [] => []
  | slot :: slots => slotLoop [⟨0, slot, 1⟩] 1 slot slots

/-- The slots of a run. -/
def nextSlot (slot : Int) (i : Nat) : Int := slot + i

/-- The stream and the cell of an entry, a `uint32_t`. -/
def sourceKey (e : TailNode) : Nat × UInt32 := (e.identity.stream, .ofNat e.identity.cell)

/-- The cells of a run. -/
def nextCell (key : Nat × UInt32) (i : Nat) : Nat × UInt32 := (key.1, key.2 + .ofNat i)

/-- The entry goes on where the last run ends. -/
def sourceJoins (runs : List (Run (Nat × UInt32))) (exactOffset : Nat) (e : TailNode) : Bool :=
  match runs with
  | [] => false
  | last :: _ =>
    last.offset + last.length = exactOffset && last.first.1 = e.identity.stream &&
      last.first.2 + .ofNat last.length = .ofNat e.identity.cell

/-- The loop of `source_runs`. -/
def sourceLoop (runs : List (Run (Nat × UInt32))) (exactOffset : Nat) :
    List TailNode → List (Run (Nat × UInt32))
  | [] => runs.reverse
  | e :: es =>
    sourceLoop (if sourceJoins runs exactOffset e then grow runs
      else ⟨exactOffset, sourceKey e, 1⟩ :: runs) (exactOffset + 1) es

/-- `source_runs(seq_id)`. -/
def sourceRuns (st : TailStore) (seqId : Int) : List (Run (Nat × UInt32)) :=
  if st.validSeq seqId then sourceLoop [] 0 (st.seqs seqId.toNat).entries else []

theorem RunsOf.next {runs : List (Run Int)} {r : Run Int} {xs : List Int} {prev : Int}
    (h : RunsOf nextSlot (r :: runs) (xs ++ [prev])) : r.first + r.length = prev + 1 := by
  generalize hl : xs ++ [prev] = ys at h
  cases h with
  | grow =>
    cases (append_inj' hl rfl).2
    simp [nextSlot, Int.add_assoc]
  | push =>
    cases (append_inj' hl rfl).2
    rfl

theorem slotLoop_runsOf (slots : List Int) {runs : List (Run Int)} {r : Run Int} {xs : List Int}
    {prev : Int} (h : RunsOf nextSlot (r :: runs) (xs ++ [prev])) :
    RunsOf nextSlot (slotLoop (r :: runs) (xs.length + 1) prev slots).reverse
      (xs ++ prev :: slots) := by
  induction slots generalizing runs r xs prev with
  | nil => simpa [slotLoop] using h
  | cons slot slots ih =>
    have hlen : xs.length + 1 = (xs ++ [prev]).length := by simp
    rw [slotLoop, hlen, append_cons xs prev (_ :: _)]
    split
    next hs =>
      have hslot : nextSlot r.first r.length = slot := h.next.trans hs.symm
      exact ih (hslot ▸ h.grow)
    next hs =>
      refine ih (h.push fun r' hr hslot => hs ?_)
      cases hr
      exact hslot.symm.trans h.next

theorem sourceJoins_iff {runs : List (Run (Nat × UInt32))} {xs : List (Nat × UInt32)}
    {e : TailNode} (h : RunsOf nextCell runs xs) :
    sourceJoins runs xs.length e ↔ ∃ r ∈ runs.head?, nextCell r.first r.length = sourceKey e := by
  cases runs with
  | nil => simp [sourceJoins]
  | cons r rs => simp [sourceJoins, h.stop, nextCell, sourceKey]

theorem sourceLoop_runsOf (es : List TailNode) {runs : List (Run (Nat × UInt32))}
    {xs : List (Nat × UInt32)} (h : RunsOf nextCell runs xs) :
    RunsOf nextCell (sourceLoop runs xs.length es).reverse (xs ++ es.map sourceKey) := by
  induction es generalizing runs xs with
  | nil => simpa [sourceLoop] using h
  | cons e es ih =>
    have hlen : xs.length + 1 = (xs ++ [sourceKey e]).length := by simp
    rw [sourceLoop, hlen, map_cons, append_cons xs _ (es.map _)]
    split
    next hs =>
      obtain ⟨r, hr, hk⟩ := (sourceJoins_iff h).mp hs
      cases runs with
      | nil => cases hr
      | cons r' rs =>
        cases hr
        exact ih (hk ▸ h.grow)
    next hs => exact ih (h.push fun r hr hk => hs ((sourceJoins_iff h).mpr ⟨r, hr, hk⟩))

/-- The runs give back the slots and the cells, and are as long as they can be. -/
theorem runs_lossless (slots : List Int) (st : TailStore) (seqId : Int) :
    (slotRuns slots).flatMap (expand nextSlot) = slots.mapIdx Prod.mk ∧
    ((slotRuns slots).IsChain fun a b => ¬ Mergeable nextSlot a b) ∧
    (sourceRuns st seqId).flatMap (expand nextCell) =
      if st.validSeq seqId then
        ((st.seqs seqId.toNat).entries.map sourceKey).mapIdx Prod.mk
      else [] := by
  have hslots : RunsOf nextSlot (slotRuns slots).reverse slots := by
    cases slots with
    | nil => exact .nil
    | cons slot slots =>
      have h : RunsOf nextSlot [⟨0, slot, 1⟩] ([] ++ [slot]) := .push .nil fun _ h => nomatch h
      exact slotLoop_runsOf slots h
  refine ⟨?_, ?_, ?_⟩
  · rw [← hslots.expand Int.add_zero, reverse_reverse]
  · simpa using hslots.separate
  · rw [sourceRuns]
    split
    · have h := (sourceLoop_runsOf (st.seqs seqId.toNat).entries .nil).expand fun x => by
        simp [nextCell]
      rwa [reverse_reverse] at h
    · rfl

end Run

end BeeLlama
