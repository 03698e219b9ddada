import BeeLlama.Batch.PickEqual

/-!
# Splitting a whole batch

`split_step` is one call of a splitter, `PickRun` the loop of a caller with the tokens that its
calls pick: it ends (`exists_pickRun`), and the ubatches have every token of the batch once.

* `split_partitions`: the tokens, their rows, `n_used` and `out_ids`, for every accepted batch. The
  order of the tokens of a sequence is kept if every call meets `Splitter.Keeps`.
* `split_disorders`: `init` accepts a batch whose order `split_seq` and `split_equal` do not keep.
-/

namespace BeeLlama

open BatchAllocr List

section

variable {E : Type} {a : BatchAllocr E} {l : List Nat} {nUbatch : Nat} {sp : Splitter}

/-- The allocator after a ubatch of the tokens `l`. -/
def BatchAllocr.add (a : BatchAllocr E) (l : List Nat) : BatchAllocr E :=
  { a.mark l with outIds := a.outIds ++ l.filter a.isOutput }

/-- What the splitters rely on in the batch. -/
structure Ready (a : BatchAllocr E) : Prop where
  ok : a.batch.Ok a.nEmbd a.nPosPerEmbd
  nonempty : ∀ i < a.batch.nTokens, (a.batch.seqSet i).Nonempty
  single : a.hasCpl = false → ∀ i < a.batch.nTokens, ∃ s, a.batch.seqSet i = {s}

/-- What a splitter relies on in the used tokens. -/
def Splitter.Inv : Splitter → BatchAllocr E → Prop
  | .simple, a => a.UsedFirst
  | .seq, _ => True
  | .equal _ _, a => a.SetsFirst

/-- The calls that the splitter supports: `n_keep_tail` as it is asserted, and no coupled sequences
in a sequential split. -/
def Splitter.Valid (nUbatch : Nat) (a : BatchAllocr E) : Splitter → Prop
  | .equal sequential nKeepTail =>
    (nKeepTail = 0 ∨ nKeepTail < nUbatch) ∧ (sequential = true → a.hasCpl = false)
  | _ => True

/-- The call keeps the order of every sequence. -/
def Splitter.Keeps (nUbatch : Nat) (a : BatchAllocr E) : Splitter → Prop
  | .simple => True
  | .seq => a.SeqKeeps nUbatch
  | .equal sequential _ => sequential = false → a.EqualKeeps nUbatch

theorem ubatchAdd_mark (ha : Ready a) (hl : a.Picked l) (nSeqs : Nat) (equalSeqs : Bool) :
    ∃ u, (a.mark l).ubatchAdd l nSeqs equalSeqs = .ok (some u, a.add l) ∧ Carries a u l := by
  obtain ⟨u, e, hc⟩ := ubatchAdd_carries (a := a.mark l) ha.ok (fun i hi => (hl.unused i hi).1)
    nSeqs equalSeqs
  exact ⟨u, e, hc.nTokens, fun hr => ⟨(hc.row hr).token, (hc.row hr).embd, (hc.row hr).pos,
    (hc.row hr).seqId, (hc.row hr).output⟩⟩

/-- One call of a splitter: no token is left, or the next ubatch has unused tokens. -/
theorem split_step (ha : Ready a) (hI : sp.Inv a) (hv : sp.Valid nUbatch a) :
    ((∀ i, ¬ a.Unused i) ∧ sp.split a nUbatch = .ok (none, a)) ∨
    ∃ u l, sp.split a nUbatch = .ok (some u, a.add l) ∧ Carries a u l ∧ a.Picked l ∧
      sp.Inv (a.add l) ∧ (sp.Keeps nUbatch a → a.InOrder l) := by
  cases sp with
  | simple =>
    show _ ∧ a.splitSimple nUbatch = _ ∨ ∃ u l, a.splitSimple nUbatch = _ ∧ _
    unfold splitSimple
    cases hc : a.firstUnused with
    | none => exact .inl ⟨fun i => firstUnused_none hc, rfl⟩
    | some cur =>
      obtain ⟨hp, ho, hI'⟩ := @simple_picked _ a nUbatch hI cur hc
      obtain ⟨u, e, hu⟩ := ubatchAdd_mark ha hp _ false
      exact .inr ⟨u, _, e, hu, hp, hI', fun _ => ho⟩
  | seq =>
    show _ ∧ a.splitSeq nUbatch = _ ∨ ∃ u l, a.splitSeq nUbatch = _ ∧ _
    unfold splitSeq
    cases hc : a.firstUnused with
    | none => exact .inl ⟨fun i => firstUnused_none hc, rfl⟩
    | some cur =>
      obtain ⟨hp, ho⟩ := @seq_picked _ a nUbatch cur hc
      obtain ⟨u, e, hu⟩ := ubatchAdd_mark ha hp 1 true
      exact .inr ⟨u, _, e, hu, hp, trivial, ho⟩
  | equal sequential nKeepTail =>
    show _ ∧ a.splitEqual nUbatch sequential nKeepTail = _ ∨
      ∃ u l, a.splitEqual nUbatch sequential nKeepTail = _ ∧ _
    rcases splitEqual_pick hI ha.nonempty hv.1 hv.2 with ⟨hno, e⟩ | ⟨sets, ps, hpick, e⟩
    · exact .inl ⟨hno, e⟩
    · obtain ⟨hp, hI'⟩ := hpick.prefixes.picked hI ha.nonempty hpick.ne hpick.chosen.disjoint
      obtain ⟨u, e', hu⟩ := ubatchAdd_mark ha hp ps.length true
      exact .inr ⟨u, concat ps, e.trans e', hu, hp, hI', fun hk =>
        hpick.inOrder hI ha.nonempty hk fun hs => ha.single (hv.2 hs)⟩

/-! ## The tokens so far -/

/-- The tokens `es` have been in ubatches, in this order. -/
structure Emitted (a : BatchAllocr E) (es : List Nat) : Prop where
  nodup : es.Nodup
  lt : ∀ i ∈ es, i < a.batch.nTokens
  used : ∀ i < a.batch.nTokens, a.used i = true ↔ i ∈ es
  nUsed : a.nUsed = es.length
  outIds : a.outIds = es.filter a.isOutput

/-- Tokens that share a sequence came in batch order, and those that are left come behind. -/
structure Ordered (a : BatchAllocr E) (es : List Nat) : Prop where
  within : es.Pairwise fun i j => a.Shares i j → i < j
  left : ∀ i ∈ es, ∀ j < a.batch.nTokens, j ∉ es → a.Shares i j → i < j

variable {es : List Nat}

theorem Emitted.unused_iff (h : Emitted a es) {i : Nat} :
    a.Unused i ↔ i < a.batch.nTokens ∧ i ∉ es := by
  constructor
  · rintro ⟨hi, hu⟩
    exact ⟨hi, fun hm => Bool.false_ne_true (hu.symm.trans ((h.used i hi).mpr hm))⟩
  · rintro ⟨hi, hm⟩
    exact ⟨hi, Bool.eq_false_iff.mpr fun hu => hm ((h.used i hi).mp hu)⟩

theorem Emitted.add (h : Emitted a es) (hl : a.Picked l) : Emitted (a.add l) (es ++ l) where
  nodup := nodup_append.mpr ⟨h.nodup, hl.nodup, fun i hi j hj e =>
    (h.unused_iff.mp (hl.unused j hj)).2 (e ▸ hi)⟩
  lt i hi := by
    rcases mem_append.mp hi with hi | hi
    · exact h.lt i hi
    · exact (hl.unused i hi).1
  used i hi := by
    show (a.used i || decide (i ∈ l)) = true ↔ _
    rw [Bool.or_eq_true, decide_eq_true_eq, mem_append, h.used i hi]
  nUsed := by
    show a.nUsed + l.length = _
    rw [h.nUsed, length_append]
  outIds := by
    show a.outIds ++ l.filter a.isOutput = (es ++ l).filter a.isOutput
    rw [h.outIds, filter_append]

theorem Ordered.add (h : Ordered a es) (he : Emitted a es) (hl : a.Picked l)
    (ho : a.InOrder l) : Ordered (a.add l) (es ++ l) where
  within := pairwise_append.mpr ⟨h.within, ho.within, fun i hi j hj hsh =>
    h.left i hi j (hl.unused j hj).1 (he.unused_iff.mp (hl.unused j hj)).2 hsh⟩
  left i hi j hj hjn hsh := by
    obtain ⟨hje, hjl⟩ := not_or.mp (mt mem_append.mpr hjn)
    rcases mem_append.mp hi with hi | hi
    · exact h.left i hi j hj hje hsh
    · exact ho.next i hi j (he.unused_iff.mpr ⟨hj, hje⟩) hjl hsh

/-! ## Runs -/

/-- The allocators that the calls of the splitter go through. -/
def Splitter.Visits (sp : Splitter) (nUbatch : Nat) : BatchAllocr E → BatchAllocr E → Prop :=
  Relation.ReflTransGen fun a a' => ∃ u, sp.split a nUbatch = .ok (some u, a')

/-- The ubatches `us` with tokens `ls` are a partition of the batch. -/
structure Partition (a : BatchAllocr E) (us : List (LlamaUbatch E)) (ls : List (List Nat))
    (a' : BatchAllocr E) : Prop where
  rows : List.Forall₂ (Carries a) us ls
  nonempty : ∀ u ∈ us, 0 < u.nTokens
  perm : ls.flatten.Perm (List.range a.batch.nTokens)
  nUsed : a'.nUsed = a.batch.nTokens
  outIds : a'.outIds = ls.flatten.filter a.isOutput
  outOnce : a'.outIds.Nodup

theorem Carries.of_add {u : LlamaUbatch E} {is : List Nat} (h : Carries (a.add l) u is) :
    Carries a u is :=
  ⟨h.nTokens, fun hr => ⟨(h.row hr).token, (h.row hr).embd, (h.row hr).pos, (h.row hr).seqId,
    (h.row hr).output⟩⟩

theorem Emitted.length_le (h : Emitted a es) : es.length ≤ a.batch.nTokens := by
  have hsub := h.nodup.subperm fun i hi => mem_range.mpr (h.lt i hi)
  have := hsub.length_le
  rwa [length_range] at this

/-- The calls of a run with the tokens that they pick. -/
inductive PickRun (sp : Splitter) (nUbatch : Nat) :
    BatchAllocr E → List (LlamaUbatch E) → List (List Nat) → BatchAllocr E → Prop where
  | done {a : BatchAllocr E} : (∀ i, ¬ a.Unused i) → sp.split a nUbatch = .ok (none, a) →
      PickRun sp nUbatch a [] [] a
  | more {a a' : BatchAllocr E} {u : LlamaUbatch E} {l : List Nat} {us : List (LlamaUbatch E)}
      {ls : List (List Nat)} : sp.split a nUbatch = .ok (some u, a.add l) → Carries a u l →
      a.Picked l → (sp.Keeps nUbatch a → a.InOrder l) →
      PickRun sp nUbatch (a.add l) us ls a' → PickRun sp nUbatch a (u :: us) (l :: ls) a'

/-- The loop ends: every call picks tokens that have not been in a ubatch. -/
theorem exists_pickRun {n : Nat} (hn : a.batch.nTokens ≤ es.length + n)
    (ha : Ready a) (hI : sp.Inv a) (hv : sp.Valid nUbatch a) (he : Emitted a es) :
    ∃ us ls a', PickRun sp nUbatch a us ls a' := by
  induction n generalizing a es with
  | zero =>
    rcases split_step ha hI hv with ⟨hno, e⟩ | ⟨u, l, -, -, hp, -⟩
    · exact ⟨[], [], a, .done hno e⟩
    · -- all tokens are used, so no call picks one
      have hlen : (es ++ l).length ≤ a.batch.nTokens := (he.add hp).length_le
      rw [length_append] at hlen
      have := length_pos_of_ne_nil hp.ne
      omega
  | succ n ih =>
    rcases split_step ha hI hv with ⟨hno, e⟩ | ⟨u, l, e, hu, hp, hI', ho⟩
    · exact ⟨[], [], a, .done hno e⟩
    · have hlen : (a.add l).batch.nTokens ≤ (es ++ l).length + n := by
        have hb : (a.add l).batch.nTokens = a.batch.nTokens := rfl
        have := length_pos_of_ne_nil hp.ne
        rw [length_append]
        omega
      have hv' : sp.Valid nUbatch (a.add l) := by
        cases sp <;> exact hv
      obtain ⟨us, ls, a', hr⟩ := ih hlen ⟨ha.ok, ha.nonempty, ha.single⟩ hI' hv' (he.add hp)
      exact ⟨u :: us, l :: ls, a', .more e hu hp ho hr⟩

section

variable {a' : BatchAllocr E} {us : List (LlamaUbatch E)} {ls : List (List Nat)}

theorem PickRun.splits (h : PickRun sp nUbatch a us ls a') : Splits sp nUbatch a us a' := by
  induction h with
  | done _ e => exact .done e
  | more e _ _ _ _ ih => exact .more e ih

theorem PickRun.batch (h : PickRun sp nUbatch a us ls a') : a'.batch = a.batch := by
  induction h with
  | done => rfl
  | more _ _ _ _ _ ih => exact ih

theorem PickRun.rows (h : PickRun sp nUbatch a us ls a') : List.Forall₂ (Carries a) us ls := by
  induction h with
  | done => exact .nil
  | more _ hu _ _ _ ih => exact .cons hu (ih.imp fun _ _ hc => hc.of_add)

theorem PickRun.nonempty (h : PickRun sp nUbatch a us ls a') : ∀ u ∈ us, 0 < u.nTokens := by
  induction h with
  | done => exact fun u hu => absurd hu not_mem_nil
  | more _ hu hp _ _ ih =>
    refine forall_mem_cons.mpr ⟨?_, ih⟩
    rw [hu.nTokens]
    exact length_pos_of_ne_nil hp.ne

theorem PickRun.emitted (h : PickRun sp nUbatch a us ls a') {es : List Nat} (he : Emitted a es) :
    Emitted a' (es ++ ls.flatten) ∧ ∀ i < a.batch.nTokens, i ∈ es ++ ls.flatten := by
  induction h generalizing es with
  | done hno _ =>
    rw [flatten_nil, append_nil]
    exact ⟨he, fun i hi => by_contra fun hm => hno i (he.unused_iff.mpr ⟨hi, hm⟩)⟩
  | more _ _ hp _ _ ih =>
    rw [flatten_cons, ← append_assoc]
    exact ih (he.add hp)

theorem PickRun.ordered (h : PickRun sp nUbatch a us ls a') {es : List Nat} (he : Emitted a es)
    (hk : ∀ x, sp.Visits nUbatch a x → sp.Keeps nUbatch x) (ho : Ordered a es) :
    Ordered a' (es ++ ls.flatten) := by
  induction h generalizing es with
  | done =>
    rw [flatten_nil, append_nil]
    exact ho
  | more e _ hp hin _ ih =>
    rw [flatten_cons, ← append_assoc]
    exact ih (he.add hp) (fun x hx => hk x (Relation.ReflTransGen.head ⟨_, e⟩ hx))
      (ho.add he hp (hin (hk _ Relation.ReflTransGen.refl)))

/-- The calls determine the run. -/
theorem Splits.unique {a₁ a₂ : BatchAllocr E} {us₁ us₂ : List (LlamaUbatch E)}
    (h₁ : Splits sp nUbatch a us₁ a₁) (h₂ : Splits sp nUbatch a us₂ a₂) :
    us₁ = us₂ ∧ a₁ = a₂ := by
  induction h₁ generalizing us₂ with
  | done e1 =>
    cases h₂ with
    | done e2 =>
      rw [e1] at e2
      cases e2
      exact ⟨rfl, rfl⟩
    | more e2 _ =>
      rw [e1] at e2
      cases e2
  | more e1 _ ih =>
    cases h₂ with
    | done e2 =>
      rw [e1] at e2
      cases e2
    | more e2 h =>
      rw [e1] at e2
      cases e2
      obtain ⟨rfl, rfl⟩ := ih h
      exact ⟨rfl, rfl⟩

end

end

/-! ## Accepted batches -/

section

variable {E : Type} {b : Batch E} {a : BatchAllocr E} {nPosPerEmbd nVocab nEmbd nSeqMax : Nat}
  {memory : Option MemoryPos} {outputAll : Bool}

/-- All positions that `ubatch_add` reads are given: `init` generates one for each token only. -/
def Batch.PosGiven (b : Batch E) (nPosPerEmbd : Nat) : Prop :=
  b.pos.isSome ∨ b.token.isSome ∨ nPosPerEmbd ≤ 1

theorem genPos_length (ids : List (List Int)) (p0 : Nat → Int) :
    (Batch.genPos ids p0).length = ids.length := by
  induction ids generalizing p0 with
  | nil => rfl
  | cons i ids ih => rw [Batch.genPos, length_cons, length_cons, ih]

theorem fill_ok (hb : b.Ok nEmbd nPosPerEmbd) (hp : b.PosGiven nPosPerEmbd) :
    (b.fill memory outputAll).Ok nEmbd nPosPerEmbd where
  token := hb.token
  embd := hb.embd
  seqId := by
    unfold Batch.fill
    cases e : b.seqId with
    | none => simp
    | some l => exact hb.seqId l e
  logits := by
    unfold Batch.fill Batch.genLogits
    dsimp only
    split
    · split <;> simp
    · rename_i l e
      split
      · simp
      · exact hb.logits l e
  pos := by
    unfold Batch.fill
    dsimp only
    cases e : b.pos with
    | some l => exact (hb.pos l e).ge
    | none =>
      rw [Option.getD_none, genPos_length]
      have hlen : (b.seqId.getD (List.replicate b.nTokens [0])).length = b.nTokens := by
        cases es : b.seqId with
        | none => simp
        | some l => exact hb.seqId l es
      rw [hlen]
      rcases hp with hp | hp | hp
      · rw [e] at hp
        cases hp
      · rw [if_pos hp, Nat.mul_one]
      · split
        · rw [Nat.mul_one]
        · calc b.nTokens * nPosPerEmbd ≤ b.nTokens * 1 := Nat.mul_le_mul_left _ hp
            _ = b.nTokens := Nat.mul_one _

theorem init_ready (hb : b.Ok nEmbd nPosPerEmbd) (hp : b.PosGiven nPosPerEmbd)
    (h : b.init nPosPerEmbd nVocab memory nEmbd nSeqMax outputAll = .ok a) : Ready a where
  ok := by
    obtain ⟨-, -, -, rfl⟩ := init_ok h
    exact fill_ok hb hp
  nonempty i hi := (init_seqSet h hi).2
  single hc i hi := init_single h hc hi

theorem emitted_reset : Emitted a.splitReset [] :=
  ⟨nodup_nil, by simp, fun i _ => by simp [splitReset], rfl, rfl⟩

/-- After `split_reset` the loop ends. -/
theorem exists_resetRun (hb : b.Ok nEmbd nPosPerEmbd) (hp : b.PosGiven nPosPerEmbd)
    (h : b.init nPosPerEmbd nVocab memory nEmbd nSeqMax outputAll = .ok a) (sp : Splitter)
    {nUbatch : Nat} (hv : sp.Valid nUbatch a) :
    ∃ us ls a', PickRun sp nUbatch a.splitReset us ls a' := by
  have ha := init_ready hb hp h
  have hr : Ready a.splitReset := ⟨ha.ok, ha.nonempty, ha.single⟩
  have hI : sp.Inv a.splitReset := by
    cases sp with
    | simple => exact fun i j _ hu => absurd hu Bool.false_ne_true
    | seq => trivial
    | equal _ _ => exact fun i j _ _ hu => absurd hu Bool.false_ne_true
  have hv' : sp.Valid nUbatch a.splitReset := by
    cases sp <;> exact hv
  exact exists_pickRun (Nat.le_add_left _ _) hr hI hv' emitted_reset

section

variable {sp : Splitter} {nUbatch : Nat} {us : List (LlamaUbatch E)} {ls : List (List Nat)}
  {a' : BatchAllocr E}

theorem PickRun.partition (h : PickRun sp nUbatch a.splitReset us ls a') :
    Partition a us ls a' := by
  obtain ⟨he, hall⟩ := h.emitted emitted_reset
  rw [nil_append] at he hall
  have hbatch := h.batch
  have hperm : ls.flatten.Perm (List.range a.batch.nTokens) := by
    refine (perm_ext_iff_of_nodup he.nodup nodup_range).mpr fun i => ?_
    rw [mem_range]
    exact ⟨fun hi => by have := he.lt i hi; rwa [hbatch] at this, hall i⟩
  have hout : a'.isOutput = a.isOutput := by
    unfold isOutput
    rw [hbatch]
    rfl
  have hids : a'.outIds = ls.flatten.filter a.isOutput := hout ▸ he.outIds
  refine ⟨h.rows.imp fun _ _ hc => ⟨hc.nTokens, fun hr => ⟨(hc.row hr).token,
    (hc.row hr).embd, (hc.row hr).pos, (hc.row hr).seqId, (hc.row hr).output⟩⟩, h.nonempty, hperm,
    ?_, hids, hids ▸ he.nodup.filter _⟩
  rw [he.nUsed, hperm.length_eq, length_range]

/-- The tokens of a sequence come in batch order. -/
theorem PickRun.sorted (h : PickRun sp nUbatch a.splitReset us ls a')
    (hk : ∀ x, sp.Visits nUbatch a.splitReset x → sp.Keeps nUbatch x) (s : Nat) :
    (ls.flatten.filter fun i => decide (s ∈ a.batch.seqSet i)).Pairwise (· < ·) := by
  have ho := h.ordered emitted_reset hk ⟨List.Pairwise.nil, by simp⟩
  have hsh : ∀ i, a'.batch.seqSet i = a.batch.seqSet i := fun i => by rw [h.batch]; rfl
  refine (ho.within.filter _).imp_of_mem ?_
  intro i j hi hj hij
  have hsi := of_decide_eq_true (mem_filter.mp hi).2
  have hsj := of_decide_eq_true (mem_filter.mp hj).2
  refine hij fun hd => ?_
  rw [hsh, hsh] at hd
  exact Finset.disjoint_left.mp hd hsi hsj

end

/-- Every splitter makes a partition of an accepted batch, with the rows, `n_used` and `out_ids`
that belong to it. The tokens of a sequence come in batch order if every call of the splitter meets
`Splitter.Keeps`. -/
theorem split_partitions (hb : b.Ok nEmbd nPosPerEmbd) (hp : b.PosGiven nPosPerEmbd)
    (h : b.init nPosPerEmbd nVocab memory nEmbd nSeqMax outputAll = .ok a) (sp : Splitter)
    {nUbatch : Nat} (hv : sp.Valid nUbatch a) :
    ∃ us ls a', Splits sp nUbatch a.splitReset us a' ∧ Partition a us ls a' ∧
      ((∀ x, sp.Visits nUbatch a.splitReset x → sp.Keeps nUbatch x) →
        ∀ s, (ls.flatten.filter fun i => decide (s ∈ a.batch.seqSet i)).Pairwise (· < ·)) := by
  obtain ⟨us, ls, a', hr⟩ := exists_resetRun hb hp h sp hv
  exact ⟨us, ls, a', hr.splits, hr.partition, fun hk s => hr.sorted hk s⟩

end

/-! ## Two sequences -/

/-- Two sequences that take turns, with all their outputs. -/
def turns : Batch Nat :=
  { nTokens := 3, token := some [1, 2, 3], pos := some [0, 0, 1], seqId := some [[0], [1], [0]],
    logits := some [1, 1, 1] }

theorem turns_ok : turns.Ok 1 1 := by
  constructor <;> rintro l ⟨⟩ <;> rfl

/-- The sequential split of the two sequences. -/
theorem split_partitions_turns : ∃ a, turns.init 1 4 none 1 2 false = .ok a ∧
    ∃ us ls a', Splits (.equal true 0) 2 a.splitReset us a' ∧ Partition a us ls a' ∧
      ∀ s, (ls.flatten.filter fun i => decide (s ∈ a.batch.seqSet i)).Pairwise (· < ·) := by
  have hok : (turns.init 1 4 none 1 2 false).toOption.map BatchAllocr.hasCpl = some false := by
    decide +kernel
  cases e : turns.init 1 4 none 1 2 false with
  | error x =>
    rw [e] at hok
    cases hok
  | ok a =>
    rw [e] at hok
    obtain ⟨us, ls, a', hs, hp, ho⟩ := split_partitions turns_ok (.inl rfl) e (.equal true 0)
      ⟨.inl rfl, fun _ => Option.some.inj hok⟩
    exact ⟨a, rfl, us, ls, a', hs, hp, ho fun _ _ hf => by cases hf⟩

/-! ## Coupled sequences -/

/-- The allocator after the loop, if `fuel` calls are enough. -/
def splitAll {E : Type} (sp : Splitter) (nUbatch : Nat) : Nat → BatchAllocr E →
    Option (BatchAllocr E)
  | 0, _ => none
  | fuel + 1, a =>
    match sp.split a nUbatch with
    | .ok (none, a') => some a'
    | .ok (some _, a₁) => splitAll sp nUbatch fuel a₁
    | .error _ => none

theorem splits_splitAll {E : Type} {sp : Splitter} {nUbatch : Nat} {a a' r : BatchAllocr E}
    {us : List (LlamaUbatch E)} (h : Splits sp nUbatch a us a') {fuel : Nat}
    (hr : splitAll sp nUbatch fuel a = some r) : r = a' := by
  induction h generalizing fuel with
  | done e =>
    cases fuel with
    | zero => cases hr
    | succ fuel =>
      rw [splitAll, e] at hr
      exact (Option.some.inj hr).symm
  | more e _ ih =>
    cases fuel with
    | zero => cases hr
    | succ fuel =>
      rw [splitAll, e] at hr
      exact ih hr

/-- A token of two sequences between two tokens of one of them. -/
def coupled : Batch Nat :=
  { nTokens := 3, token := some [1, 2, 3], pos := some [0, 1, 2], seqId := some [[0], [0, 1], [0]],
    logits := some [1, 1, 1] }

theorem coupled_ok : coupled.Ok 1 1 := by
  constructor <;> rintro l ⟨⟩ <;> rfl

/-- An embedding with four position sections, and no positions. -/
def bare : Batch Nat := { nTokens := 1, embd := some [7] }

theorem bare_ok : bare.Ok 1 4 := by
  constructor <;> rintro l ⟨⟩
  rfl

/-- The outputs of all tokens, in the order in which the splitter emits them. -/
def emission (b : Batch Nat) (sp : Splitter) (nUbatch : Nat) : Option (List Nat) :=
  ((b.init 1 4 none 1 2 false).toOption.bind fun a =>
    splitAll sp nUbatch (b.nTokens + 1) a.splitReset).map BatchAllocr.outIds

/-- `init` accepts the batch, and the splitter emits token `2` before token `1`. -/
theorem coupled_disorders {sp : Splitter} (he : emission coupled sp 8 = some [0, 2, 1]) :
    ∃ a, coupled.init 1 4 none 1 2 false = .ok a ∧
      ∀ us ls a', Splits sp 8 a.splitReset us a' → Partition a us ls a' →
        ¬ ∀ s, (ls.flatten.filter fun i => decide (s ∈ a.batch.seqSet i)).Pairwise (· < ·) := by
  unfold emission at he
  cases e : coupled.init 1 4 none 1 2 false with
  | error x =>
    rw [e] at he
    cases he
  | ok a =>
    rw [e] at he
    obtain ⟨r, hr, hout⟩ := Option.map_eq_some_iff.mp he
    refine ⟨a, rfl, fun us ls a' hs hp ho => ?_⟩
    obtain rfl := splits_splitAll hs hr
    have hb : a.batch = coupled.fill none false := by
      obtain ⟨-, -, -, rfl⟩ := init_ok e
      rfl
    -- all tokens are outputs, so `out_ids` is the order of the tokens
    have hall : ls.flatten.filter a.isOutput = ls.flatten := by
      rw [filter_eq_self]
      intro i hi
      have hlt := mem_range.mp (hp.perm.subset hi)
      have hone : ∀ i < (coupled.fill none false).nTokens,
          ((coupled.fill none false).logits.getD i 0 != 0) = true := by decide
      unfold isOutput
      rw [hb] at hlt ⊢
      exact hone i hlt
    have hflat : ls.flatten = [0, 2, 1] := hall.symm.trans (hp.outIds.symm.trans hout)
    have := ho 0
    rw [hflat, hb] at this
    exact absurd this (by decide)

/-- `init` accepts batches that the splitters do not emit in order, or read past. -/
theorem split_disorders : (∀ sp, sp = .seq ∨ sp = .equal false 0 →
      ¬ ∀ (b : Batch Nat) (nPosPerEmbd nVocab nEmbd nSeqMax : Nat) (memory : Option MemoryPos)
        (outputAll : Bool) (a : BatchAllocr Nat), b.Ok nEmbd nPosPerEmbd →
        b.init nPosPerEmbd nVocab memory nEmbd nSeqMax outputAll = .ok a →
        ∀ nUbatch ≥ 1, ∃ us ls a', Splits sp nUbatch a.splitReset us a' ∧ Partition a us ls a' ∧
          ∀ s, (ls.flatten.filter fun i => decide (s ∈ a.batch.seqSet i)).Pairwise (· < ·)) ∧
    ¬ ∀ (b : Batch Nat) (nPosPerEmbd nVocab nEmbd nSeqMax : Nat) (memory : Option MemoryPos)
      (outputAll : Bool) (a : BatchAllocr Nat), b.Ok nEmbd nPosPerEmbd →
      b.init nPosPerEmbd nVocab memory nEmbd nSeqMax outputAll = .ok a →
      ∀ nUbatch ≥ 1, ∃ us a', Splits .simple nUbatch a.splitReset us a' := by
  constructor
  · intro sp hsp h
    have he : emission coupled sp 8 = some [0, 2, 1] := by
      rcases hsp with rfl | rfl <;> decide +kernel
    obtain ⟨a, e, hno⟩ := coupled_disorders he
    obtain ⟨us, ls, a', hs, hp, ho⟩ := h coupled 1 4 1 2 none false a coupled_ok e 8 (by decide)
    exact hno us ls a' hs hp ho
  · intro h
    have hbad : (bare.init 4 0 none 1 1 false).toOption.map
        (fun a => (Splitter.simple.split a.splitReset 1).map fun _ => ()) =
        some (.error .outOfBounds) := by decide +kernel
    cases e : bare.init 4 0 none 1 1 false with
    | error x =>
      rw [e] at hbad
      cases hbad
    | ok a =>
      rw [e] at hbad
      have hbad' : (Splitter.simple.split a.splitReset 1).map (fun _ => ()) =
        .error .outOfBounds := Option.some.inj hbad
      obtain ⟨us, a', hs⟩ := h bare 4 0 1 1 none false a bare_ok e 1 (by decide)
      cases hs with
      | done e' =>
        rw [e'] at hbad'
        cases hbad'
      | more e' _ =>
        rw [e'] at hbad'
        cases hbad'

end BeeLlama
