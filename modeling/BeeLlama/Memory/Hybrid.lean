import BeeLlama.Kv.CacheInv
import BeeLlama.Recurrent.Inv

/-!
# Removal from a hybrid memory (`llama_memory_hybrid`)

An attention cache and a recurrent memory, which remove a range together. `seqRmPlanAll` is
`llama_memory_seq_rm_plan_all`, over any children.

* `commonP0_le`: the common range is not smaller than the one that was asked for.
* `seqRm_atomic`: a planned range is not refused, and a refused one is in both memories as before.
-/

namespace BeeLlama

/-- `llama_memory_i`: the members that a plan reads. -/
structure SeqRmChild where
  canSeqRm : Int → Int → Int → Bool
  /-- `seq_rm_plan`: the planned range, or nothing. -/
  seqRmPlan : Int → Int → Int → Option (Int × Int)

/-- `seq_rm_plan` where it is not overridden. -/
def SeqRmChild.ofCan (canSeqRm : Int → Int → Int → Bool) : SeqRmChild where
  canSeqRm
  seqRmPlan s p0 p1 := if canSeqRm s p0 p1 then some (p0, p1) else none

/-- The first loop of `llama_memory_seq_rm_plan_all`, which does not change `common_p1`. -/
def commonP0 (s p0 p1 : Int) : List (Option SeqRmChild) → Int → Option Int
  | [], common => some common
  | child :: children, common => do
    let (q0, q1) ← (← child).seqRmPlan s p0 p1
    if p1 < 0 then
      if q1 ≥ 0 then none else commonP0 s p0 p1 children (if q0 < common then q0 else common)
    else if q0 ≠ p0 ∨ q1 ≠ p1 then none
    else commonP0 s p0 p1 children common

/-- `llama_memory_seq_rm_plan_all`; `none` in the list is a null child. -/
def seqRmPlanAll (s p0 p1 : Int) (children : List (Option SeqRmChild)) : Option (Int × Int) :=
  if children = [] then none
  else do
    let common ← commonP0 s p0 p1 children p0
    if children.all (·.any (·.canSeqRm s common p1)) then some (common, p1) else none

theorem commonP0_le {s p0 p1 : Int} {children : List (Option SeqRmChild)} {common q : Int}
    (e : commonP0 s p0 p1 children common = some q) : q ≤ common ∧ (0 ≤ p1 → q = common) := by
  induction children generalizing common with
  | nil => cases e; exact ⟨le_rfl, fun _ => rfl⟩
  | cons child children ih =>
    obtain ⟨c, -, e⟩ := Option.bind_eq_some_iff.mp e
    obtain ⟨⟨q0, q1⟩, -, e⟩ := Option.bind_eq_some_iff.mp e
    dsimp only at e
    split at e
    · split at e
      · cases e
      · obtain ⟨hle, -⟩ := ih e
        split at hle <;> omega
    · split at e
      · cases e
      · exact ih e

/-- `llama_memory_hybrid`. -/
structure HybridMemory where
  attn : KvCache
  recr : RecurrentMemory

namespace HybridMemory

open RecurrentMemory

variable (h : HybridMemory) (s p0 p1 : Int)

/-- `can_seq_rm`. -/
def canSeqRm : Bool := h.recr.canSeqRm s p0 p1 && h.attn.canSeqRm s p0 p1

/-- `seq_rm_plan`. -/
def seqRmPlan : Option (Int × Int) :=
  seqRmPlanAll s p0 p1 [some (.ofCan h.attn.canSeqRm), some (.ofCan h.recr.canSeqRm)]

/-- `seq_rm`. -/
def seqRm : HybridMemory × Except KvError Bool :=
  if !h.canSeqRm s p0 p1 then (h, .ok false)
  else
    let r := h.recr.seqRm s p0 p1
    if !r.2 then ({ h with recr := r.1 }, .ok false)
    else
      let o := h.attn.seqRm s p0 p1
      (⟨o.1, r.1⟩, o.2)

/-- The recurrent memory removes what it says that it can. -/
theorem recr_seqRm {m : RecurrentMemory} (hc : m.canSeqRm s p0 p1 = true) :
    (m.seqRm s p0 p1).2 = true := by
  unfold RecurrentMemory.seqRm
  simp only [hc, Bool.not_true, Bool.false_eq_true, if_false]
  unfold RecurrentMemory.canSeqRm at hc
  obtain ⟨r, hr⟩ : ∃ r, (if lower p0 = 0 ∧ upper p1 = INT32_MAX then
      if s ≥ 0 then m.setRsIdx s 0 else { m with rsIdx := fun _ => 0 } else m) =
      { m with rsIdx := r } := by
    split_ifs
    exacts [⟨_, setRsIdx_eq ..⟩, ⟨_, rfl⟩, ⟨_, rfl⟩]
  rw [hr]
  dsimp only at hc ⊢
  by_cases hs : s ≥ m.size
  · rw [if_pos hs] at hc
    cases hc
  rw [if_neg hs] at hc ⊢
  by_cases h0 : 0 ≤ s
  · rw [if_neg (by omega)] at hc
    rw [if_pos h0]
    by_cases hb : rollsBack { m with rsIdx := r } s p0 p1
    · have htail : 0 ≤ m.tail s.toNat := hb.1
      rw [if_neg (by omega), if_pos hb.2] at hc
      rw [if_pos hb, if_pos (of_decide_eq_true hc)]
    · rw [if_neg hb]
  · rw [if_pos (by omega)] at hc
    have := of_decide_eq_true hc
    rw [if_neg h0, if_neg (by omega)]

/-- So does the attention cache, if it does not abort. -/
theorem attn_seqRm {st : KvCache} (hc : st.canSeqRm s p0 p1 = true) :
    (st.seqRm s p0 p1).2 ≠ .ok false := by
  intro e
  unfold KvCache.seqRm at e
  rw [hc] at e
  obtain ⟨_, _, -, e⟩ := KvCache.andThen_ok (Prod.ext rfl e)
  cases e

/-- A range that is planned covers the one that was asked for, and `seq_rm` does not refuse it; what
it refuses is in both memories as before, and what it removes both remove. -/
theorem seqRm_atomic : (∀ q, h.seqRmPlan s p0 p1 = some q →
      q.1 ≤ p0 ∧ q.2 = p1 ∧ (0 ≤ p1 → q.1 = p0) ∧ (h.seqRm s q.1 q.2).2 ≠ .ok false) ∧
    ((h.seqRm s p0 p1).2 = .ok false → (h.seqRm s p0 p1).1 = h) ∧
    ((h.seqRm s p0 p1).2 = .ok true → h.recr.seqRm s p0 p1 = ((h.seqRm s p0 p1).1.recr, true) ∧
      h.attn.seqRm s p0 p1 = ((h.seqRm s p0 p1).1.attn, .ok true)) := by
  have hcan : ∀ q0 q1, h.canSeqRm s q0 q1 = true → h.seqRm s q0 q1 =
      (⟨(h.attn.seqRm s q0 q1).1, (h.recr.seqRm s q0 q1).1⟩, (h.attn.seqRm s q0 q1).2) ∧
      (h.recr.seqRm s q0 q1).2 = true ∧ (h.attn.seqRm s q0 q1).2 ≠ .ok false := by
    intro q0 q1 hc
    obtain ⟨hr, ha⟩ := Bool.and_eq_true_iff.mp hc
    have hr := recr_seqRm s q0 q1 hr
    refine ⟨?_, hr, attn_seqRm s q0 q1 ha⟩
    unfold seqRm
    simp [hc, hr]
  have hnot : h.canSeqRm s p0 p1 = false → h.seqRm s p0 p1 = (h, .ok false) := fun hc => by
    unfold seqRm
    simp [hc]
  refine ⟨fun q e => ?_, fun e => ?_, fun e => ?_⟩
  · unfold seqRmPlan seqRmPlanAll at e
    rw [if_neg (List.cons_ne_nil _ _)] at e
    obtain ⟨common, hq, e⟩ := Option.bind_eq_some_iff.mp e
    obtain ⟨hall, e⟩ := Option.ite_none_right_eq_some.mp e
    cases e
    refine ⟨(commonP0_le hq).1, rfl, (commonP0_le hq).2, ?_⟩
    have hc : h.canSeqRm s common p1 = true := by
      simpa [SeqRmChild.ofCan, canSeqRm, and_comm] using hall
    rw [(hcan _ _ hc).1]
    exact (hcan _ _ hc).2.2
  · cases hc : h.canSeqRm s p0 p1 with
    | false => rw [hnot hc]
    | true =>
      rw [(hcan _ _ hc).1] at e
      exact absurd e (hcan _ _ hc).2.2
  · cases hc : h.canSeqRm s p0 p1 with
    | false => rw [hnot hc] at e; cases e
    | true =>
      rw [(hcan _ _ hc).1] at e ⊢
      exact ⟨Prod.ext rfl (hcan _ _ hc).2.1, Prod.ext rfl e⟩

end HybridMemory
end BeeLlama
