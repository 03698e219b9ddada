import BeeLlama.Batch.Limit

/-!
# The kept tails

With `n_keep_tail = k` a call of `split_equal` leaves none of the unused tokens of a sequence set,
or at least `k` of them, or all of them (`TailsWhole`). The last `k` tokens of a set are therefore
in the ubatch that takes its last token.

* `Prefixes.unusedOf_add`: what a call leaves of a set.
* `PickRun.tails`: every run that starts with whole tails keeps them whole.
* `splitEqual_keeps_tails`: the runs after `split_reset`. A sequential split of coupled sequences is
  not supported: it returns the empty ubatch, and the tokens are not emitted.
-/

namespace BeeLlama

/-- The last `k` tokens of a sequence set, or all of them. -/
def FullBatch.tail {E : Type} (b : FullBatch E) (k : Nat) (S : Finset Nat) : List Nat :=
  (b.seqSetMap S).drop ((b.seqSetMap S).length - k)

namespace BatchAllocr

variable {E : Type} {a : BatchAllocr E} {nUbatch k : Nat} {sequential : Bool}

/-- No unused token is left of a set, or the last `k` tokens are unused. -/
def TailsWhole (a : BatchAllocr E) (k : Nat) : Prop :=
  ∀ S, a.unusedOf S = [] ∨ min k (a.batch.seqSetMap S).length ≤ (a.unusedOf S).length

theorem TailsWhole.tail_subset (h : a.TailsWhole k) {S : Finset Nat} (hS : a.unusedOf S ≠ []) :
    a.batch.tail k S ⊆ a.unusedOf S := by
  have hsuffix : a.unusedOf S <:+ a.batch.seqSetMap S := List.dropWhile_suffix _
  have hlen := (h S).resolve_left hS
  have hle := hsuffix.length_le
  rw [List.suffix_iff_eq_drop.mp hsuffix]
  unfold FullBatch.tail
  exact List.drop_subset_drop_left _ (by omega)

theorem tailsWhole_reset : a.splitReset.TailsWhole k := by
  intro S
  have hall : a.splitReset.unusedOf S = a.batch.seqSetMap S := by
    show (a.batch.seqSetMap S).dropWhile (fun _ => false) = _
    cases a.batch.seqSetMap S <;> rfl
  rw [hall]
  exact .inr (Nat.min_le_right _ _)

/-! ## One call -/

section

variable {sets : List (Finset Nat)} {ps : List SeqIdxs} {S : Finset Nat}

theorem Prefixes.exists_of_mem (h : Prefixes a sets ps) (hS : S ∈ sets) :
    ∃ p ∈ ps, p.idxs ++ p.rest = a.unusedOf S := by
  unfold Prefixes at h
  induction h with
  | nil => cases hS
  | cons hp _ ih =>
    rcases List.mem_cons.mp hS with rfl | hS
    · exact ⟨_, List.mem_cons_self, hp.2⟩
    · obtain ⟨p, hp, e⟩ := ih hS
      exact ⟨p, List.mem_cons_of_mem _ hp, e⟩

/-- The tokens that are left of a set are in no other set. -/
theorem not_mem_concat_of_rest {p : SeqIdxs} (hnd : (whole ps).Nodup) (hp : p ∈ ps) {i : Nat}
    (hi : i ∈ p.rest) : i ∉ concat ps := by
  induction ps with
  | nil => cases hp
  | cons q ps ih =>
    have hwhole : whole (q :: ps) = q.idxs ++ q.rest ++ whole ps := rfl
    obtain ⟨hq, hps, hdisj⟩ := List.nodup_append.mp (hwhole ▸ hnd)
    rw [mem_concat_cons, not_or]
    rcases List.mem_cons.mp hp with rfl | hp
    · refine ⟨fun h => (List.nodup_append.mp hq).2.2 i h i hi rfl, fun h => ?_⟩
      exact hdisj i (List.mem_append_right _ hi) i ((concat_sublist ps).subset h) rfl
    · refine ⟨fun h => ?_, ih hps hp⟩
      refine hdisj i (List.mem_append_left _ h) i ?_ rfl
      exact List.mem_flatMap.mpr ⟨p, hp, List.mem_append_right _ hi⟩

/-- What a call leaves of a set: the rest of a chosen one, and all of another one. -/
theorem Prefixes.unusedOf_add (h : Prefixes a sets ps) (hf : a.SetsFirst)
    (hne : ∀ i < a.batch.nTokens, (a.batch.seqSet i).Nonempty) (hps : ps ≠ [])
    (hd : sets.Pairwise Disjoint) (S : Finset Nat) :
    (∃ p ∈ ps, p.idxs ++ p.rest = a.unusedOf S ∧ (a.add (concat ps)).unusedOf S = p.rest) ∨
      (a.add (concat ps)).unusedOf S = a.unusedOf S := by
  have hf' : (a.add (concat ps)).SetsFirst := (h.picked hf hne hps hd).2
  -- the picked tokens are taken from the unused ones
  have hfilter : (a.add (concat ps)).unusedOf S =
      (a.unusedOf S).filter fun i => !decide (i ∈ concat ps) := by
    rw [unusedOf_eq hf', unusedOf_eq hf, List.filter_filter]
    refine List.filter_congr fun i _ => ?_
    show (!(a.used i || decide (i ∈ concat ps))) = _
    rw [Bool.not_or, Bool.and_comm]
  by_cases hS : S ∈ sets
  · obtain ⟨p, hp, e⟩ := h.exists_of_mem hS
    have hnd := nodup_flatMap_unusedOf hne hd
    rw [← h.whole_eq] at hnd
    refine .inl ⟨p, hp, e, ?_⟩
    rw [hfilter, ← e, List.filter_append, List.filter_eq_nil_iff.mpr, List.nil_append,
      List.filter_eq_self]
    · intro i hi
      rw [decide_eq_false (not_mem_concat_of_rest hnd hp hi)]
      rfl
    · intro i hi
      have hc : i ∈ concat ps := List.mem_flatMap.mpr ⟨p, hp, hi⟩
      rw [decide_eq_true hc]
      exact Bool.false_ne_true
  · refine .inr ?_
    rw [hfilter, List.filter_eq_self]
    intro i hi
    have hi' : i ∉ concat ps := fun hc =>
      hS (((mem_unusedOf hf).mp hi).2 ▸ (h.mem_unused hf hc).2)
    rw [decide_eq_false hi']
    rfl

/-- A call keeps the tails whole, and takes the tail of a set of which it leaves nothing. -/
theorem Prefixes.tails (h : Prefixes a sets ps) (hf : a.SetsFirst)
    (hne : ∀ i < a.batch.nTokens, (a.batch.seqSet i).Nonempty) (hps : ps ≠ [])
    (hd : sets.Pairwise Disjoint) (hrest : ∀ p ∈ ps, p.rest = [] ∨ k ≤ p.rest.length)
    (hw : a.TailsWhole k) :
    (a.add (concat ps)).TailsWhole k ∧ ∀ S, a.unusedOf S ≠ [] →
      (a.add (concat ps)).unusedOf S = [] → a.batch.tail k S ⊆ concat ps := by
  constructor
  · intro S
    rcases h.unusedOf_add hf hne hps hd S with ⟨p, hp, -, e⟩ | e
    · rw [e]
      exact (hrest p hp).imp_right fun hle => (Nat.min_le_left _ _).trans hle
    · rw [e]
      exact hw S
  · intro S hS hnil i hi
    have hi' := hw.tail_subset hS hi
    rcases h.unusedOf_add hf hne hps hd S with ⟨p, hp, e, e'⟩ | e
    · rw [hnil] at e'
      rw [← e, ← e', List.append_nil] at hi'
      exact List.mem_flatMap.mpr ⟨p, hp, hi'⟩
    · exact absurd (e.symm.trans hnil) hS

end

theorem ubatchAdd_used {l : List Nat} {nSeqs : Nat} {equalSeqs : Bool}
    {r : Option (LlamaUbatch E)} {a' : BatchAllocr E}
    (h : a.ubatchAdd l nSeqs equalSeqs = .ok (r, a')) : a'.used = a.used := by
  unfold ubatchAdd at h
  split at h
  · rw [← (Prod.mk.inj (Except.ok.inj h)).2]
  · cases h

end BatchAllocr

/-! ## Runs -/

section

open BatchAllocr

variable {E : Type} {a a' : BatchAllocr E} {nUbatch k : Nat} {sequential : Bool}
  {us : List (LlamaUbatch E)} {ls : List (List Nat)}

/-- Each call of a run keeps the tails whole, so that one of them takes the tail of a set. -/
theorem PickRun.tails (h : PickRun (.equal sequential k) nUbatch a us ls a') (hf : a.SetsFirst)
    (hne : ∀ i < a.batch.nTokens, (a.batch.seqSet i).Nonempty) (hk : k = 0 ∨ k < nUbatch)
    (hc : sequential = true → a.hasCpl = false) (hw : a.TailsWhole k) :
    ∀ S, a.unusedOf S ≠ [] → ∃ l ∈ ls, a.batch.tail k S ⊆ l := by
  induction h with
  | done hno =>
    intro S hS
    obtain ⟨i, hi⟩ := List.exists_mem_of_ne_nil _ hS
    exact absurd ((mem_unusedOf hf).mp hi).1 (hno i)
  | @more a a' u l us ls e _ hp _ _ ih =>
    have e' : a.splitEqual nUbatch sequential k = .ok (some u, a.add l) := e
    rcases splitEqual_tails hf hne hk hc with ⟨-, e0⟩ | ⟨sets, ps, hpick, hrest, e1⟩
    · rw [e0] at e'
      cases e'
    have hpre := hpick.prefixes
    have hd := hpick.chosen.disjoint
    obtain ⟨hw', htail⟩ := hpre.tails hf hne hpick.ne hd hrest hw
    have hf' : (a.mark (concat ps)).SetsFirst := (hpre.picked hf hne hpick.ne hd).2
    -- the picked tokens are those of the sets
    have hused : (a.add l).used = (a.mark (concat ps)).used := ubatchAdd_used (e1.symm.trans e')
    have hleft : ∀ S, (a.add l).unusedOf S = (a.add (concat ps)).unusedOf S := fun S => by
      show (a.batch.seqSetMap S).dropWhile (a.add l).used = _
      rw [hused]
      rfl
    have hl : concat ps ⊆ l := fun i hi => by
      have : (a.add l).used i = true := by
        rw [hused]
        show (a.used i || decide (i ∈ concat ps)) = true
        rw [decide_eq_true hi, Bool.or_true]
      have hor : (a.used i || decide (i ∈ l)) = true := this
      rw [(hpre.mem_unused hf hi).1.2, Bool.false_or] at hor
      exact of_decide_eq_true hor
    have hf1 : (a.add l).SetsFirst := fun i j hij hset hu => by
      rw [hused] at hu ⊢
      exact hf' i j hij hset hu
    have hw1 : (a.add l).TailsWhole k := fun S => by
      rw [hleft]
      exact hw' S
    intro S hS
    by_cases hnil : (a.add l).unusedOf S = []
    · exact ⟨l, List.mem_cons_self, List.Subset.trans (htail S hS (hleft S ▸ hnil)) hl⟩
    · obtain ⟨l', hl', hsub⟩ := ih hf1 hne hc hw1 S hnil
      exact ⟨l', List.mem_cons_of_mem l hl', hsub⟩

end

/-! ## Accepted batches -/

section

open BatchAllocr

variable {E : Type} {b : Batch E} {a : BatchAllocr E} {nPosPerEmbd nVocab nEmbd nSeqMax : Nat}
  {memory : Option MemoryPos} {outputAll : Bool}

/-- Without the positions that `ubatch_add` reads no run of `split_equal` ends. -/
theorem not_splits_short (hb : b.Ok nEmbd nPosPerEmbd) (hp : ¬ b.PosGiven nPosPerEmbd)
    (h : b.init nPosPerEmbd nVocab memory nEmbd nSeqMax outputAll = .ok a) {sp : Splitter}
    {nUbatch : Nat} (hn : 1 ≤ nUbatch) (hk : sp.Admits nUbatch) (hr : ¬ sp.Refuses a)
    {us : List (LlamaUbatch E)} {a' : BatchAllocr E} : ¬ Splits sp nUbatch a.splitReset us a' := by
  have hne : ∀ i < a.splitReset.batch.nTokens, (a.splitReset.batch.seqSet i).Nonempty :=
    fun i hi => (init_seqSet h hi).2
  have hr' : ¬ sp.Refuses a.splitReset := by
    cases sp <;> exact hr
  obtain ⟨h0, -, -, ha⟩ := init_ok h
  obtain ⟨ht, h2, hlen⟩ := @fill_short _ b nPosPerEmbd nEmbd memory outputAll hb hp
  rcases split_handed hn hk hne with ⟨hno, -⟩ | ⟨-, a1, l, nSeqs, equalSeqs, hl, e, -⟩
  · refine absurd (hno.resolve_right hr' 0) (not_not.mpr ⟨?_, rfl⟩)
    rw [ha]
    exact h0
  · have hfail : a1.ubatchAdd l nSeqs equalSeqs = .error .outOfBounds := by
      refine ubatchAdd_short hl ?_ ?_ ?_ nSeqs equalSeqs <;> rw [ha]
      · exact ht
      · exact h2
      · exact hlen
    rw [hfail] at e
    intro hs
    cases hs with
    | done e' =>
      rw [e] at e'
      cases e'
    | more e' _ =>
      rw [e] at e'
      cases e'

/-- In a run of `split_equal` over an accepted batch, the last `k` tokens of every sequence set are
in one ubatch. A run ends if the positions that it reads are given. -/
theorem splitEqual_keeps_tails (hb : b.Ok nEmbd nPosPerEmbd)
    (h : b.init nPosPerEmbd nVocab memory nEmbd nSeqMax outputAll = .ok a) {nUbatch k : Nat}
    (hk : k < nUbatch) {sequential : Bool} (hc : sequential = true → a.hasCpl = false) :
    (b.PosGiven nPosPerEmbd → ∃ us a', Splits (.equal sequential k) nUbatch a.splitReset us a') ∧
    ∀ us a', Splits (.equal sequential k) nUbatch a.splitReset us a' →
      ∃ ls, Partition a us ls a' ∧
        ∀ S, a.batch.seqSetMap S ≠ [] → ∃ l ∈ ls, a.batch.tail k S ⊆ l := by
  by_cases hp : b.PosGiven nPosPerEmbd
  · obtain ⟨us, ls, a', hr⟩ := @exists_resetRun _ b a nPosPerEmbd nVocab nEmbd nSeqMax memory
      outputAll hb hp h (.equal sequential k) nUbatch ⟨.inr hk, hc⟩
    refine ⟨fun _ => ⟨us, a', hr.splits⟩, fun us2 a2 hs => ?_⟩
    obtain ⟨rfl, rfl⟩ := hr.splits.unique hs
    refine ⟨ls, hr.partition, fun S hS => ?_⟩
    refine hr.tails (fun i j _ _ hu => absurd hu Bool.false_ne_true)
      (fun i hi => (init_seqSet h hi).2) (.inr hk) hc tailsWhole_reset S ?_
    show (a.batch.seqSetMap S).dropWhile (fun _ => false) ≠ []
    cases e : a.batch.seqSetMap S with
    | nil => exact absurd e hS
    | cons i l => exact List.cons_ne_nil i l
  · refine ⟨fun hp' => absurd hp' hp, fun us a' hs => absurd hs ?_⟩
    refine @not_splits_short _ b a nPosPerEmbd nVocab nEmbd nSeqMax memory outputAll hb hp h
      (.equal sequential k) nUbatch (by omega) (.inr hk) ?_ us a'
    rintro ⟨hs, hcpl⟩
    rw [hc hs] at hcpl
    cases hcpl

/-- The two sequences that take turns, with the last token of each kept. -/
theorem splitEqual_keeps_tails_turns : ∃ a, turns.init 1 4 none 1 2 false = .ok a ∧
    (turns.PosGiven 1 → ∃ us a', Splits (.equal true 1) 2 a.splitReset us a') ∧
    ∀ us a', Splits (.equal true 1) 2 a.splitReset us a' → ∃ ls, Partition a us ls a' ∧
      ∀ S, a.batch.seqSetMap S ≠ [] → ∃ l ∈ ls, a.batch.tail 1 S ⊆ l := by
  have hok : (turns.init 1 4 none 1 2 false).toOption.map BatchAllocr.hasCpl = some false := by
    decide +kernel
  cases e : turns.init 1 4 none 1 2 false with
  | error x =>
    rw [e] at hok
    cases hok
  | ok a =>
    rw [e] at hok
    exact ⟨a, rfl, splitEqual_keeps_tails turns_ok e (by decide) fun _ => Option.some.inj hok⟩

/-- A sequential split of the coupled sequences emits nothing. -/
theorem not_splitEqual_keeps_tails :
    ¬ ∀ (b : Batch Nat) (nPosPerEmbd nVocab nEmbd nSeqMax : Nat) (memory : Option MemoryPos)
      (outputAll : Bool) (a : BatchAllocr Nat), b.Ok nEmbd nPosPerEmbd →
      b.init nPosPerEmbd nVocab memory nEmbd nSeqMax outputAll = .ok a →
      ∀ (nUbatch k : Nat) (sequential : Bool), k < nUbatch →
      ∀ us a', Splits (.equal sequential k) nUbatch a.splitReset us a' →
        ∃ ls, List.Forall₂ (Carries a) us ls ∧
          ∀ S, a.batch.seqSetMap S ≠ [] → ∃ l ∈ ls, a.batch.tail k S ⊆ l := by
  intro h
  have hok : (coupled.init 1 4 none 1 2 false).toOption.map BatchAllocr.hasCpl = some true := by
    decide +kernel
  cases e : coupled.init 1 4 none 1 2 false with
  | error x =>
    rw [e] at hok
    cases hok
  | ok a =>
    rw [e] at hok
    have hcpl : a.hasCpl = true := Option.some.inj hok
    have hdone : a.splitReset.splitEqual 2 true 1 = .ok (none, a.splitReset) := by
      have : a.splitReset.hasCpl = true := hcpl
      rw [splitEqual, this]
      rfl
    obtain ⟨ls, hrows, hS⟩ := h coupled 1 4 1 2 none false a coupled_ok e 2 1 true (by decide)
      [] a.splitReset (.done hdone)
    obtain rfl := List.forall₂_nil_left_iff.mp hrows
    obtain ⟨-, -, -, rfl⟩ := init_ok e
    obtain ⟨l, hl, -⟩ := hS {0} (by decide)
    cases hl

end

end BeeLlama
