import BeeLlama.Batch.Pick
import Mathlib.Data.List.TakeWhile

/-!
# The tokens that `split_equal` picks

The first loop chooses sequence sets that have no sequence in common (`curSeqSets_spec`); the others
take a prefix of the unused tokens of each set (`expand_spec`, `keepTail_spec`).

* `SetsFirst`: the used tokens of a set are its first ones. The loops rely on it.
* `EqualKeeps`: when the order of a sequence is kept. Between two tokens of a set no token has only
  some of its sequences, and no token overlaps two sets that have no sequence in common, with one of
  them before it and the other behind it.
-/

namespace BeeLlama.BatchAllocr

open Finset
open List hiding Disjoint

variable {E : Type} {a : BatchAllocr E} {nUbatch : Nat}

/-- The used tokens of a sequence set are its first ones. -/
def SetsFirst (a : BatchAllocr E) : Prop :=
  ∀ i j, i < j → a.batch.seqSet i = a.batch.seqSet j → a.used j = true → a.used i = true

/-- `split_equal` keeps the order of every sequence. -/
structure EqualKeeps (a : BatchAllocr E) (nUbatch : Nat) : Prop where
  same : nUbatch ≤ 1 ∨ ∀ c j k, c < j → j < k → a.Unused c → a.Unused j → a.Unused k →
    a.batch.seqSet c = a.batch.seqSet k → a.Shares j k → a.batch.seqSet j = a.batch.seqSet k
  apart : ∀ c j k, c < j → j < k → a.Unused c → a.Unused j → a.Unused k →
    a.Shares c j → a.Shares j k → a.Shares c k

/-! ## The sequence sets -/

/-- The chosen sets after the tokens before `p`: no two share a sequence, and a token that shares
one with a chosen set comes behind it, or overlaps a set that was chosen before. -/
structure Chosen (a : BatchAllocr E) (sequential : Bool) (p : Nat) (sets : List (Finset Nat)) :
    Prop where
  disjoint : sets.Pairwise Disjoint
  first : ∀ S ∈ sets, ∃ f, f < p ∧ a.Unused f ∧ a.batch.seqSet f = S ∧
    (sequential = false → ∀ j < f, a.Unused j → ¬ Disjoint (a.batch.seqSet j) S →
      ∃ t < j, a.Unused t ∧ a.Shares t j ∧ Disjoint (a.batch.seqSet t) S)
  some : sets = [] → ∀ j < p, ¬ a.Unused j

variable {sequential : Bool} {sets : List (Finset Nat)}

theorem Chosen.take {p : Nat} (h : Chosen a sequential p sets) {m : Nat} (hm : sets.take m ≠ []) :
    Chosen a sequential p (sets.take m) where
  disjoint := h.disjoint.sublist (take_sublist m sets)
  first S hS := h.first S (mem_of_mem_take hS)
  some e := absurd e hm

/-- Every token before `p` has an overlap with a chosen set. -/
def Covered (a : BatchAllocr E) (p : Nat) (sets : List (Finset Nat)) : Prop :=
  ∀ j < p, a.Unused j → ∃ t ≤ j, a.Unused t ∧ a.batch.seqSet t ∈ sets ∧ a.Shares t j

theorem curSeqSets_spec (hne : ∀ i < a.batch.nTokens, (a.batch.seqSet i).Nonempty) {n p : Nat}
    (hp : a.batch.nTokens = p + n) {last : Int} (h : Chosen a sequential p sets)
    (hcov : sequential = false → Covered a p sets) :
    Chosen a sequential a.batch.nTokens
      (a.curSeqSets nUbatch sequential (a.tokensFrom p) sets last) := by
  induction n generalizing p sets last with
  | zero =>
    have hnil : a.tokensFrom p = [] := by
      unfold tokensFrom
      rw [show a.batch.nTokens - p = 0 by omega]
      rfl
    rw [hnil, curSeqSets, hp]
    exact h
  | succ n ih =>
    have hplt : p < a.batch.nTokens := by omega
    -- a token that is not chosen
    have hskip : (a.Unused p → sets ≠ []) → Chosen a sequential (p + 1) sets := by
      intro hs
      refine ⟨h.disjoint, fun S hS => ?_, fun he j hj => ?_⟩
      · obtain ⟨f, hf, hrest⟩ := h.first S hS
        exact ⟨f, by omega, hrest⟩
      · rcases Nat.lt_or_ge j p with hlt | hge
        · exact h.some he j hlt
        · obtain rfl : j = p := by omega
          exact fun hu => hs hu he
    have hcover : (a.Unused p → ∃ t ≤ p, a.Unused t ∧ a.batch.seqSet t ∈ sets ∧ a.Shares t p) →
        sequential = false → Covered a (p + 1) sets := by
      intro ht hseq j hj hu
      rcases Nat.lt_or_ge j p with hlt | hge
      · exact hcov hseq j hlt hu
      · obtain rfl : j = p := by omega
        exact ht hu
    rw [tokensFrom_cons hplt, curSeqSets]
    split
    · rename_i hused
      have hnot : ¬ a.Unused p := fun hu => Bool.false_ne_true (hu.2.symm.trans hused)
      exact ih (by omega) (hskip fun hu => absurd hu hnot) (hcover fun hu => absurd hu hnot)
    · rename_i hused
      have hu : a.Unused p := ⟨hplt, Bool.eq_false_iff.mpr hused⟩
      dsimp only
      split
      · rename_i hadd
        have hdisj : ∀ S ∈ sets, Disjoint S (a.batch.seqSet p) := fun S hS =>
          disjoint_iff_inter_eq_empty.mpr (hadd.1 S hS)
        have hself : a.Shares p p := fun hd =>
          (hne p hplt).ne_empty (disjoint_self_iff_empty _ |>.mp hd)
        have hnew : Chosen a sequential (p + 1) (sets ++ [a.batch.seqSet p]) := by
          refine ⟨?_, fun S hS => ?_, fun he => by simp at he⟩
          · rw [pairwise_append]
            refine ⟨h.disjoint, pairwise_singleton _ _, fun S hS T hT => ?_⟩
            rw [List.mem_singleton.mp hT]
            exact hdisj S hS
          · rcases mem_append.mp hS with hS | hS
            · obtain ⟨f, hf, hrest⟩ := h.first S hS
              exact ⟨f, by omega, hrest⟩
            · rw [List.mem_singleton.mp hS]
              refine ⟨p, Nat.lt_succ_self p, hu, rfl, fun hseq j hj huj hsh => ?_⟩
              obtain ⟨t, htj, hut, hts, hst⟩ := hcov hseq j hj huj
              refine ⟨t, Nat.lt_of_le_of_ne htj ?_, hut, hst, hdisj _ hts⟩
              rintro rfl
              exact hsh (hdisj _ hts)
        have hcov' : sequential = false → Covered a (p + 1) (sets ++ [a.batch.seqSet p]) := by
          intro hseq j hj huj
          rcases Nat.lt_or_ge j p with hlt | hge
          · obtain ⟨t, htj, hut, hts, hst⟩ := hcov hseq j hlt huj
            exact ⟨t, htj, hut, mem_append_left _ hts, hst⟩
          · obtain rfl : j = p := by omega
            exact ⟨j, le_refl j, hu, List.mem_append_right _ (List.mem_singleton_self _), hself⟩
        split
        · refine ⟨hnew.disjoint, fun S hS => ?_, fun he => by simp at he⟩
          obtain ⟨f, hf, hrest⟩ := hnew.first S hS
          exact ⟨f, by omega, hrest⟩
        · exact ih (by omega) hnew hcov'
      · rename_i hadd
        refine ih (by omega) (hskip fun _ he => ?_) (fun hseq => hcover (fun _ => ?_) hseq)
        · rw [he] at hadd
          exact hadd ⟨fun S hS => by simp at hS, fun _ => .inl rfl⟩
        · have hover : ∃ S ∈ sets, ¬ S ∩ a.batch.seqSet p = ∅ := by
            by_contra hno
            refine hadd ⟨fun S hS => ?_, fun ht => ?_⟩
            · by_contra hne'
              exact hno ⟨S, hS, hne'⟩
            · rw [hseq] at ht
              cases ht
          obtain ⟨S, hS, hov⟩ := hover
          obtain ⟨f, hf, huf, rfl, -⟩ := h.first S hS
          exact ⟨f, by omega, huf, hS, fun hd => hov (disjoint_iff_inter_eq_empty.mp hd)⟩

/-! ## The tokens of a set -/

/-- `seq_set_map[set]` behind the used tokens. -/
def unusedOf (a : BatchAllocr E) (S : Finset Nat) : List Nat :=
  (a.batch.seqSetMap S).dropWhile a.used

theorem dropWhile_eq_filter {f : Nat → Bool} {l : List Nat}
    (h : l.Pairwise fun i j => f j = true → f i = true) :
    l.dropWhile f = l.filter fun i => !f i := by
  induction l with
  | nil => rfl
  | cons i l ih =>
    obtain ⟨hi, hl⟩ := pairwise_cons.mp h
    rw [List.dropWhile_cons, List.filter_cons]
    cases e : f i with
    | true => simpa [e] using ih hl
    | false =>
      have hall : l.filter (fun i => !f i) = l := by
        rw [filter_eq_self]
        intro j hj
        rw [Bool.not_eq_true', Bool.eq_false_iff]
        exact fun hfj => Bool.false_ne_true (e.symm.trans (hi j hj hfj))
      simp [hall]

theorem unusedOf_sublist {S : Finset Nat} :
    (a.unusedOf S).Sublist (a.batch.seqSetMap S) := dropWhile_sublist _

theorem lt_of_mem_unusedOf {S : Finset Nat} {i : Nat} (h : i ∈ a.unusedOf S) :
    i < a.batch.nTokens ∧ a.batch.seqSet i = S := by
  obtain ⟨hr, hS⟩ := mem_filter.mp (unusedOf_sublist.subset h)
  exact ⟨List.mem_range.mp hr, of_decide_eq_true hS⟩

section

variable (h : a.SetsFirst) {S : Finset Nat}

include h

theorem unusedOf_eq : a.unusedOf S = (a.batch.seqSetMap S).filter fun i => !a.used i := by
  refine dropWhile_eq_filter ?_
  refine (pairwise_lt_range.filter _).imp_of_mem ?_
  intro i j hi hj hij hu
  have hSi := of_decide_eq_true (mem_filter.mp hi).2
  have hSj := of_decide_eq_true (List.mem_filter.mp hj).2
  exact h i j hij (hSi.trans hSj.symm) hu

theorem mem_unusedOf {i : Nat} : i ∈ a.unusedOf S ↔ a.Unused i ∧ a.batch.seqSet i = S := by
  rw [unusedOf_eq h, List.mem_filter, FullBatch.seqSetMap, List.mem_filter, List.mem_range,
    decide_eq_true_eq, Bool.not_eq_true']
  exact ⟨fun ⟨⟨h1, h2⟩, h3⟩ => ⟨⟨h1, h3⟩, h2⟩, fun ⟨⟨h1, h3⟩, h2⟩ => ⟨⟨h1, h2⟩, h3⟩⟩

theorem unusedOf_sorted : (a.unusedOf S).Pairwise (· < ·) := by
  rw [unusedOf_eq h]
  exact (pairwise_lt_range.filter _).filter _

end

/-! ## Rounds -/

/-- The tokens of a set after `r` rounds. -/
def SeqIdxs.moved (p : SeqIdxs) (r : Nat) : SeqIdxs := ⟨p.idxs ++ p.rest.take r, p.rest.drop r⟩

theorem SeqIdxs.push_moved (p : SeqIdxs) (r : Nat) : p.push.moved r = p.moved (r + 1) := by
  unfold SeqIdxs.push SeqIdxs.moved
  cases p.rest with
  | nil => simp
  | cons i rest => simp

/-- The loop makes the same number of rounds for every set. -/
theorem expand_spec (fuel : Nat) (ps : List SeqIdxs) :
    ∃ r, expand nUbatch fuel ps = ps.map (·.moved r) ∧
      (0 < fuel → (∀ p ∈ ps, p.rest ≠ []) → 1 ≤ r) ∧ (nUbatch ≤ 1 → ps ≠ [] → r ≤ 1) := by
  have hzero : ps = ps.map (·.moved 0) := by
    simp [SeqIdxs.moved]
  induction fuel generalizing ps with
  | zero => exact ⟨0, hzero, fun h => absurd h (lt_irrefl 0), fun _ _ => Nat.zero_le 1⟩
  | succ fuel ih =>
    rw [expand]
    split
    · rename_i hall
      have hone : ps.map SeqIdxs.push = ps.map (·.moved 1) := rfl
      dsimp only
      split
      · exact ⟨1, hone, fun _ _ => le_refl 1, fun _ _ => le_refl 1⟩
      · rename_i hroom
        obtain ⟨r, e, -, -⟩ := ih (ps.map SeqIdxs.push) (by simp [SeqIdxs.moved])
        refine ⟨r + 1, ?_, fun _ _ => Nat.succ_pos r, fun hn hps => absurd hn ?_⟩
        · rw [e, List.map_map]
          exact map_congr_left fun p _ => p.push_moved r
        · obtain ⟨p, ps', rfl⟩ := exists_cons_of_ne_nil hps
          have hp : 1 ≤ p.push.idxs.length := by
            have := length_pos_of_ne_nil (hall p mem_cons_self)
            simp only [SeqIdxs.push, List.length_append, List.length_take]
            omega
          simp only [List.map_cons, List.headD_cons, List.length_cons] at hroom
          have : (p.push.idxs.length + 1) * 1 ≤
              (p.push.idxs.length + 1) * ((ps'.map SeqIdxs.push).length + 1) :=
            Nat.mul_le_mul_left _ (by omega)
          omega
    · rename_i hall
      exact ⟨0, hzero, fun _ hno => absurd hno hall, fun _ _ => Nat.zero_le 1⟩

/-! ## The kept tail -/

/-- Marking tokens and taking some of them back. -/
theorem mark_unmark {l kept back : List Nat} (hl : l.Perm (kept ++ back))
    (hback : ∀ i ∈ back, a.used i = false ∧ i ∉ kept) :
    (a.mark l).unmark back = a.mark kept := by
  have hused : (fun i => (a.used i || decide (i ∈ l)) && !decide (i ∈ back)) =
      fun i => a.used i || decide (i ∈ kept) := by
    funext i
    have hmem := hl.mem_iff (a := i)
    by_cases hb : i ∈ back
    · obtain ⟨hu, hk⟩ := hback i hb
      simp [hb, hu, hk]
    · simp [hb, hmem]
  have hn : a.nUsed + l.length - back.length = a.nUsed + kept.length := by
    rw [hl.length_eq, length_append]
    omega
  show ({ a with
    used := fun i => (a.used i || decide (i ∈ l)) && !decide (i ∈ back)
    nUsed := a.nUsed + l.length - back.length } : BatchAllocr E) = _
  rw [hused, hn]
  rfl

theorem mark_mark (l l' : List Nat) : (a.mark l).mark l' = a.mark (l ++ l') := by
  have hused : (fun i => a.used i || decide (i ∈ l) || decide (i ∈ l')) =
      fun i => a.used i || decide (i ∈ l ++ l') := by
    funext i
    simp [Bool.or_assoc]
  show ({ a with
    used := fun i => a.used i || decide (i ∈ l) || decide (i ∈ l')
    nUsed := a.nUsed + l.length + l'.length } : BatchAllocr E) = _
  rw [hused, Nat.add_assoc, ← length_append]
  rfl

/-- All tokens of the sets, also those behind `cur_idx`. -/
def whole (ps : List SeqIdxs) : List Nat := ps.flatMap fun p => p.idxs ++ p.rest

theorem concat_sublist (ps : List SeqIdxs) : (concat ps).Sublist (whole ps) := by
  induction ps with
  | nil => exact List.Sublist.refl _
  | cons p ps ih =>
    show (p.idxs ++ concat ps).Sublist ((p.idxs ++ p.rest) ++ whole ps)
    exact (sublist_append_left ..).append ih

variable {nKeepTail : Nat} {ps : List SeqIdxs}

/-- The tail of a sequence is kept together by leaving out tokens, or whole sets. -/
theorem keepTail_spec (hps : ps ≠ [])
    (hnd : (whole ps).Nodup) (hu : ∀ i ∈ whole ps, a.used i = false)
    (hidx : ∀ p ∈ ps, p.idxs ≠ []) (hk : nKeepTail < nUbatch) :
    let r := (a.mark (concat ps)).keepTail nUbatch nKeepTail ps
    r.1 = a.mark (concat r.2) ∧ r.2 ≠ [] ∧ ∃ m, List.Forall₂ (fun p q : SeqIdxs =>
      q.idxs ≠ [] ∧ q.idxs ++ q.rest = p.idxs ++ p.rest) (ps.take m) r.2 := by
  obtain ⟨p, ps, rfl⟩ := exists_cons_of_ne_nil hps
  have hwhole : whole (p :: ps) = p.idxs ++ p.rest ++ whole ps := rfl
  have hconcat : concat (p :: ps) = p.idxs ++ concat ps := rfl
  rw [hwhole] at hnd hu
  obtain ⟨hndp, -, hdisj⟩ := nodup_append.mp hnd
  have hsub := (concat_sublist ps).subset
  -- the tokens of the other sets go back
  have hback : ∀ kept ⊆ p.idxs ++ p.rest, ∀ i ∈ concat ps, a.used i = false ∧ i ∉ kept :=
    fun kept hkept i hi => ⟨hu i (mem_append_right _ (hsub hi)),
      fun hik => hdisj i (hkept hik) i (hsub hi) rfl⟩
  unfold keepTail
  dsimp only
  split
  · split
    · refine ⟨?_, cons_ne_nil _ _, 1, .cons ⟨?_, by simp⟩ .nil⟩
      · rw [mark_mark]
        refine mark_unmark ?_ (hback _ (by simp [concat]))
        show ((p.idxs ++ concat ps) ++ p.rest).Perm ((p.idxs ++ p.rest) ++ [] ++ concat ps)
        rw [append_nil, append_assoc, append_assoc]
        exact (perm_append_comm).append_left p.idxs
      · exact append_ne_nil_of_left_ne_nil (hidx p mem_cons_self) _
    · rename_i hfull
      set k := p.idxs.length - (nKeepTail - p.rest.length) with hkdef
      have hk0 : 0 < k := by
        have := length_pos_of_ne_nil (hidx p mem_cons_self)
        omega
      have htake : p.idxs.take k ⊆ p.idxs ++ p.rest := fun i hi =>
        mem_append_left _ (mem_of_mem_take hi)
      refine ⟨?_, cons_ne_nil _ _, 1, .cons ⟨?_, ?_⟩ .nil⟩
      · have hone : concat [(⟨p.idxs.take k, p.idxs.drop k ++ p.rest⟩ : SeqIdxs)] =
            p.idxs.take k := by simp [concat]
        have hfirst : (a.mark (concat (p :: ps))).unmark (p.idxs.drop k) =
            a.mark (p.idxs.take k ++ concat ps) := by
          refine mark_unmark ?_ fun i hi => ?_
          · rw [hconcat]
            nth_rewrite 1 [← take_append_drop k p.idxs]
            rw [append_assoc, append_assoc]
            exact (perm_append_comm).append_left _
          · have hip := mem_of_mem_drop hi
            refine ⟨hu i (by simp [hip]), fun hik => ?_⟩
            rcases mem_append.mp hik with hik | hik
            · have hnd' := (nodup_append.mp hndp).1
              rw [← take_append_drop k p.idxs] at hnd'
              exact (nodup_append.mp hnd').2.2 i hik i hi rfl
            · exact hdisj i (mem_append_left _ hip) i (hsub hik) rfl
        rw [hfirst, hone]
        exact mark_unmark (List.Perm.refl _) (hback _ htake)
      · intro e
        have := congrArg List.length e
        rw [length_take, length_nil] at this
        omega
      · rw [← append_assoc, take_append_drop]
  · rename_i hn
    set n := nKeep nKeepTail (p :: ps) with hndef
    refine ⟨?_, ?_, n, ?_⟩
    · refine mark_unmark ?_ fun i hi => ?_
      · show (concat (p :: ps)).Perm (concat ((p :: ps).take n) ++ concat ((p :: ps).drop n))
        rw [concat, concat, concat, ← flatMap_append, take_append_drop]
      · have hsplit : whole ((p :: ps).take n) ++ whole ((p :: ps).drop n) =
            p.idxs ++ p.rest ++ whole ps := by
          rw [← hwhole, whole, whole, whole, ← flatMap_append, take_append_drop]
        have hiw := (concat_sublist _).subset hi
        rw [← hsplit] at hnd hu
        exact ⟨hu i (mem_append_right _ hiw), fun hik =>
          (nodup_append.mp hnd).2.2 i ((concat_sublist _).subset hik) i hiw rfl⟩
    · obtain ⟨k, hk⟩ := Nat.exists_eq_succ_of_ne_zero hn
      rw [hk, take_succ_cons]
      exact cons_ne_nil _ _
    · rw [List.forall₂_same]
      exact fun q hq => ⟨hidx q (mem_of_mem_take hq), rfl⟩

/-- A kept set ends in this ubatch, or has `n_keep_tail` tokens left. -/
theorem keepTail_rest (hk : nKeepTail < nUbatch) :
    ∀ q ∈ (a.keepTail nUbatch nKeepTail ps).2, q.rest = [] ∨ nKeepTail ≤ q.rest.length := by
  have hprefix : ∀ q ∈ ps.take (nKeep nKeepTail ps), q.rest = [] ∨ nKeepTail ≤ q.rest.length := by
    intro q hq
    unfold nKeep at hq
    rw [← prefix_iff_eq_take.mp ( takeWhile_prefix _)] at hq
    have := mem_takeWhile_imp hq
    rw [Bool.or_eq_true, beq_iff_eq, decide_eq_true_iff, length_eq_zero_iff] at this
    exact this
  cases ps with
  | nil => exact fun q hq => absurd hq not_mem_nil
  | cons p ps =>
    unfold keepTail
    dsimp only
    split
    · split
      · intro q hq
        rw [List.mem_singleton.mp hq]
        exact .inl rfl
      · next hfit =>
        intro q hq
        rw [List.mem_singleton.mp hq, List.length_append, List.length_drop]
        right
        omega
    · exact hprefix

/-! ## The pick -/

/-- Each set has given a prefix of its unused tokens. -/
def Prefixes (a : BatchAllocr E) (sets : List (Finset Nat)) (ps : List SeqIdxs) : Prop :=
  List.Forall₂ (fun S p => p.idxs ≠ [] ∧ p.idxs ++ p.rest = a.unusedOf S) sets ps

section

variable {sets : List (Finset Nat)} {ps : List SeqIdxs}

theorem Prefixes.mem (h : Prefixes a sets ps) {i : Nat} (hi : i ∈ concat ps) :
    ∃ S ∈ sets, ∃ p : SeqIdxs, p.idxs ++ p.rest = a.unusedOf S ∧ i ∈ p.idxs ∧
      p.idxs ⊆ concat ps := by
  unfold Prefixes at h
  induction h with
  | nil => simp [concat] at hi
  | @cons S p sets ps hp _ ih =>
    have e : concat (p :: ps) = p.idxs ++ concat ps := rfl
    rw [e] at hi ⊢
    rcases mem_append.mp hi with hi | hi
    · exact ⟨S, mem_cons_self, p, hp.2, hi, subset_append_left ..⟩
    · obtain ⟨T, hT, q, hq, hiq, hsub⟩ := ih hi
      exact ⟨T, mem_cons_of_mem S hT, q, hq, hiq, fun x hx => mem_append_right _ (hsub hx)⟩

theorem Prefixes.ne_nil (h : Prefixes a sets ps) {p : SeqIdxs} (hp : p ∈ ps) : p.idxs ≠ [] := by
  unfold Prefixes at h
  induction h with
  | nil => simp at hp
  | cons hq _ ih =>
    rcases mem_cons.mp hp with rfl | hp
    · exact hq.1
    · exact ih hp

/-- The sets that are kept, with other prefixes. -/
theorem Prefixes.kept (h : Prefixes a sets ps) {qs : List SeqIdxs}
    (hq : List.Forall₂ (fun p q : SeqIdxs => q.idxs ≠ [] ∧ q.idxs ++ q.rest = p.idxs ++ p.rest)
      ps qs) : Prefixes a sets qs := by
  unfold Prefixes at h ⊢
  induction h generalizing qs with
  | nil =>
    cases hq
    exact .nil
  | cons hp _ ih =>
    cases hq with
    | cons hq hqs => exact .cons ⟨hq.1, hq.2.trans hp.2⟩ (ih hqs)

theorem Prefixes.mem_unused (h : Prefixes a sets ps) (hf : a.SetsFirst) {i : Nat}
    (hi : i ∈ concat ps) : a.Unused i ∧ a.batch.seqSet i ∈ sets := by
  obtain ⟨S, hS, p, hp, hip, -⟩ := h.mem hi
  obtain ⟨hu, rfl⟩ := (mem_unusedOf hf).mp (hp ▸ mem_append_left p.rest hip)
  exact ⟨hu, hS⟩

/-- A token of the same set before a picked one is picked too. -/
theorem Prefixes.before (h : Prefixes a sets ps) (hf : a.SetsFirst) {i j : Nat}
    (hi : i ∈ concat ps) (hj : a.Unused j) (hji : j < i)
    (hset : a.batch.seqSet j = a.batch.seqSet i) : j ∈ concat ps := by
  obtain ⟨S, -, p, hp, hip, hsub⟩ := h.mem hi
  obtain ⟨-, rfl⟩ := (mem_unusedOf hf).mp (hp ▸ mem_append_left p.rest hip)
  have hjm : j ∈ p.idxs ++ p.rest := hp ▸ (mem_unusedOf hf).mpr ⟨hj, hset⟩
  have hsorted : (p.idxs ++ p.rest).Pairwise (· < ·) := hp ▸ unusedOf_sorted hf
  rcases mem_append.mp hjm with hjp | hjr
  · exact hsub hjp
  · have := (pairwise_append.mp hsorted).2.2 i hip j hjr
    omega

/-- Tokens of different sets share no sequence, those of one set come in order. -/
theorem Prefixes.pairwise (h : Prefixes a sets ps) (hf : a.SetsFirst)
    (hd : sets.Pairwise Disjoint) : (concat ps).Pairwise fun i j => a.Shares i j → i < j := by
  unfold Prefixes at h
  induction h with
  | nil => exact List.Pairwise.nil
  | @cons S p sets ps hp hps ih =>
    obtain ⟨hS, hd'⟩ := pairwise_cons.mp hd
    show (p.idxs ++ concat ps).Pairwise _
    rw [pairwise_append]
    refine ⟨?_, ih hd', fun i hi j hj hsh => ?_⟩
    · have hsorted : (p.idxs ++ p.rest).Pairwise (· < ·) := hp.2 ▸ unusedOf_sorted hf
      exact within_of_sorted (pairwise_append.mp hsorted).1
    · obtain ⟨-, rfl⟩ := (mem_unusedOf hf).mp (hp.2 ▸ mem_append_left p.rest hi)
      exact absurd (hS _ (Prefixes.mem_unused hps hf hj).2) hsh

/-- All tokens of the sets are different. -/
theorem nodup_flatMap_unusedOf (hne : ∀ i < a.batch.nTokens, (a.batch.seqSet i).Nonempty)
    (hd : sets.Pairwise Disjoint) : (sets.flatMap a.unusedOf).Nodup := by
  refine nodup_flatMap.mpr ⟨fun S _ =>
    (nodup_range.filter _).sublist unusedOf_sublist, hd.imp ?_⟩
  intro S T hST i hi hj
  obtain ⟨hlt, rfl⟩ := lt_of_mem_unusedOf hi
  obtain ⟨-, rfl⟩ := lt_of_mem_unusedOf hj
  exact (hne i hlt).ne_empty ((disjoint_self_iff_empty _).mp hST)

theorem Prefixes.whole_eq (h : Prefixes a sets ps) : whole ps = sets.flatMap a.unusedOf := by
  unfold Prefixes at h
  induction h with
  | nil => rfl
  | @cons S p sets ps hp _ ih =>
    show (p.idxs ++ p.rest) ++ whole ps = _
    rw [ih, hp.2, flatMap_cons]

/-- The picked tokens, with the order of the sequences. -/
theorem Prefixes.picked (h : Prefixes a sets ps) (hf : a.SetsFirst)
    (hne : ∀ i < a.batch.nTokens, (a.batch.seqSet i).Nonempty) (hps : ps ≠ [])
    (hd : sets.Pairwise Disjoint) :
    a.Picked (concat ps) ∧ (a.mark (concat ps)).SetsFirst := by
  refine ⟨⟨?_, ?_, fun i hi => (h.mem_unused hf hi).1⟩, fun i j hij hset hu => ?_⟩
  · cases h with
    | nil => exact absurd rfl hps
    | cons hp _ => exact append_ne_nil_of_left_ne_nil hp.1 _
  · have hnd := nodup_flatMap_unusedOf hne hd
    rw [← h.whole_eq] at hnd
    exact hnd.sublist (concat_sublist ps)
  · show (a.used i || decide (i ∈ concat ps)) = true
    rw [Bool.or_eq_true, decide_eq_true_eq]
    by_cases hui : a.used i = true
    · exact .inl hui
    · refine .inr ?_
      rcases Bool.or_eq_true _ _ ▸ hu with huj | hj
      · exact absurd (hf i j hij hset huj) hui
      · have hj' := of_decide_eq_true hj
        have hlt := (h.mem_unused hf hj').1.1
        exact h.before hf hj' ⟨by omega, Bool.eq_false_iff.mpr hui⟩ hij hset

/-- A picked token has no earlier one of its sequences left behind. -/
theorem Prefixes.inOrder (h : Prefixes a sets ps) (hf : a.SetsFirst) (hd : sets.Pairwise Disjoint)
    (hkeep : ∀ i ∈ concat ps, ∀ j < i, a.Unused j → a.Shares j i →
      a.batch.seqSet j = a.batch.seqSet i) : a.InOrder (concat ps) := by
  refine ⟨h.pairwise hf hd, fun i hi j hj hjl hsh => ?_⟩
  by_contra hle
  have hne : i ≠ j := fun he => hjl (he ▸ hi)
  have hji : j < i := by omega
  exact hjl (h.before hf hi hj hji (hkeep i hi j hji hj hsh.symm))

/-- In a ubatch with one token of each set, a picked token is the first one of its set. -/
theorem Prefixes.first (h : Prefixes a sets ps) (hf : a.SetsFirst)
    (hone : ∀ p ∈ ps, p.idxs.length ≤ 1) (hd : sets.Pairwise Disjoint)
    (hne : ∀ i < a.batch.nTokens, (a.batch.seqSet i).Nonempty) {i j : Nat} (hi : i ∈ concat ps)
    (hj : a.Unused j) (hset : a.batch.seqSet j = a.batch.seqSet i) : i ≤ j := by
  by_contra hlt
  have hjm := h.before hf hi hj (by omega) hset
  unfold Prefixes at h
  induction h with
  | nil => simp [concat] at hi
  | @cons S p sets ps hp hps ih =>
    obtain ⟨hS, hd'⟩ := pairwise_cons.mp hd
    have hsetp : ∀ x ∈ p.idxs, a.batch.seqSet x = S := fun x hx =>
      ((mem_unusedOf hf).mp (hp.2 ▸ mem_append_left p.rest hx)).2
    have hother : ∀ x y, x ∈ p.idxs → y ∈ concat ps → a.batch.seqSet x ≠ a.batch.seqSet y := by
      intro x y hx hy e
      have hdis := hS _ (Prefixes.mem_unused hps hf hy).2
      rw [← hsetp x hx, e] at hdis
      exact (hne y (Prefixes.mem_unused hps hf hy).1.1).ne_empty
        ((disjoint_self_iff_empty _).mp hdis)
    rcases mem_append.mp hi with hi | hi <;> rcases mem_append.mp hjm with hjm | hjm
    · have hlen := hone p mem_cons_self
      obtain ⟨x, hx⟩ := length_eq_one_iff.mp (le_antisymm hlen (length_pos_of_mem hi))
      rw [hx] at hi hjm
      rw [List.mem_singleton.mp hi, List.mem_singleton.mp hjm] at hlt
      exact hlt (le_refl x)
    · exact hother i j hi hjm hset.symm
    · exact hother j i hjm hi hset
    · exact ih (fun q hq => hone q (mem_cons_of_mem p hq)) hd' hi hjm

end

/-- The ubatch of `split_equal`. -/
structure EqualPick (a : BatchAllocr E) (nUbatch : Nat) (sequential : Bool)
    (sets : List (Finset Nat)) (ps : List SeqIdxs) : Prop where
  chosen : Chosen a sequential a.batch.nTokens sets
  prefixes : Prefixes a sets ps
  ne : ps ≠ []
  one : nUbatch ≤ 1 → ∀ p ∈ ps, p.idxs.length ≤ 1

theorem EqualPick.inOrder (h : EqualPick a nUbatch sequential sets ps) (hf : a.SetsFirst)
    (hne : ∀ i < a.batch.nTokens, (a.batch.seqSet i).Nonempty)
    (hkeep : sequential = false → a.EqualKeeps nUbatch)
    (hsingle : sequential = true → ∀ i < a.batch.nTokens, ∃ s, a.batch.seqSet i = {s}) :
    a.InOrder (concat ps) := by
  refine h.prefixes.inOrder hf h.chosen.disjoint fun i hi j hji hj hsh => ?_
  obtain ⟨hui, hset⟩ := h.prefixes.mem_unused hf hi
  cases hs : sequential with
  | true =>
    obtain ⟨s, es⟩ := hsingle hs j hj.1
    obtain ⟨t, et⟩ := hsingle hs i hui.1
    unfold Shares at hsh
    rw [es, et, Finset.disjoint_singleton, not_not] at hsh
    rw [es, et, hsh]
  | false =>
    obtain ⟨f, -, huf, hfi, hbefore⟩ := h.chosen.first _ hset
    have hsame : a.Shares j f := by
      unfold Shares at hsh ⊢
      rwa [hfi]
    rcases Nat.lt_trichotomy j f with hlt | rfl | hgt
    · -- `j` was passed over for an earlier set
      obtain ⟨t, htj, hut, hst, hdis⟩ := hbefore hs j hlt hj hsh
      have hsh' := (hkeep hs).apart t j f htj hlt hut hj huf hst hsame
      unfold Shares at hsh'
      rw [hfi] at hsh'
      exact absurd hdis hsh'
    · exact hfi
    · rcases (hkeep hs).same with hn | hno
      · have := h.prefixes.first hf (h.one hn) h.chosen.disjoint hne hi huf hfi
        omega
      · exact hno f j i hgt hji huf hj hui hfi hsh

/-- The rounds take a first part of the unused tokens of each chosen set. -/
theorem expand_prefixes (hf : a.SetsFirst)
    (hchosen : Chosen a sequential a.batch.nTokens sets) (hsne : sets ≠ []) :
    Prefixes a sets (expand nUbatch a.batch.nTokens
      (sets.map fun S => ({ rest := a.unusedOf S } : SeqIdxs))) ∧
    expand nUbatch a.batch.nTokens (sets.map fun S => ({ rest := a.unusedOf S } : SeqIdxs)) ≠ [] ∧
    (nUbatch ≤ 1 → ∀ p ∈ expand nUbatch a.batch.nTokens
      (sets.map fun S => ({ rest := a.unusedOf S } : SeqIdxs)), p.idxs.length ≤ 1) := by
  obtain ⟨r, er, hr, hr1⟩ := @expand_spec nUbatch a.batch.nTokens
    (sets.map fun S => ({ rest := a.unusedOf S } : SeqIdxs))
  -- every chosen set has an unused token
  have hrest : ∀ S ∈ sets, a.unusedOf S ≠ [] := fun S hS => by
    obtain ⟨f, -, huf, hfS, -⟩ := hchosen.first S hS
    exact ne_nil_of_mem ((mem_unusedOf hf).mpr ⟨huf, hfS⟩)
  have hn : 0 < a.batch.nTokens := by
    obtain ⟨S, hS⟩ := exists_mem_of_ne_nil _ hsne
    obtain ⟨f, -, huf, -⟩ := hchosen.first S hS
    have := huf.1
    omega
  have hr' : 1 ≤ r := hr hn fun p hp => by
    obtain ⟨S, hS, rfl⟩ := mem_map.mp hp
    exact hrest S hS
  rw [er]
  refine ⟨?_, by simpa using hsne, fun hn1 p hp => ?_⟩
  · unfold Prefixes
    rw [List.map_map, List.forall₂_map_right_iff, List.forall₂_same]
    intro S hS
    refine ⟨fun e => hrest S hS ?_, take_append_drop r _⟩
    have : (a.unusedOf S).take r = [] := e
    rcases take_eq_nil_iff.mp this with h0 | h0
    · omega
    · exact h0
  · have := hr1 hn1 (by simpa using hsne)
    rw [List.map_map] at hp
    obtain ⟨S, -, rfl⟩ := mem_map.mp hp
    show (([] : List Nat) ++ (a.unusedOf S).take r).length ≤ 1
    rw [nil_append, length_take]
    omega

/-- `split_equal` has no token left, or makes a ubatch of a pick, and keeps the tail of each set. -/
theorem splitEqual_tails (hf : a.SetsFirst)
    (hne : ∀ i < a.batch.nTokens, (a.batch.seqSet i).Nonempty)
    (hk : nKeepTail = 0 ∨ nKeepTail < nUbatch) (hc : sequential = true → a.hasCpl = false) :
    ((∀ i, ¬ a.Unused i) ∧ a.splitEqual nUbatch sequential nKeepTail = .ok (none, a)) ∨
    ∃ sets ps, EqualPick a nUbatch sequential sets ps ∧
      (∀ p ∈ ps, p.rest = [] ∨ nKeepTail ≤ p.rest.length) ∧
      a.splitEqual nUbatch sequential nKeepTail =
        (a.mark (concat ps)).ubatchAdd (concat ps) ps.length true := by
  have hzero : a.tokensFrom 0 = List.range a.batch.nTokens := by
    rw [tokensFrom, Nat.sub_zero, range_eq_range']
  have hchosen : Chosen a sequential a.batch.nTokens
      (a.curSeqSets nUbatch sequential (List.range a.batch.nTokens) [] (-1)) := by
    rw [← hzero]
    exact curSeqSets_spec hne (Nat.zero_add _).symm
      ⟨List.Pairwise.nil, fun S hS => by simp at hS, fun _ j hj => by omega⟩
      fun _ j hj => by omega
  have hcpl : (sequential && a.hasCpl) = false := by
    cases hs : sequential with
    | false => rfl
    | true => rw [hc hs]; rfl
  unfold splitEqual
  rw [hcpl, if_neg Bool.false_ne_true]
  dsimp only
  set sets := a.curSeqSets nUbatch sequential (List.range a.batch.nTokens) [] (-1) with hsets
  split
  · rename_i hnil
    exact .inl ⟨fun i hu => hchosen.some hnil i hu.1 hu, rfl⟩
  · rename_i hsne
    refine .inr ?_
    obtain ⟨hpre, hpsne, hone⟩ := expand_prefixes hf hchosen hsne
    set ps := expand nUbatch a.batch.nTokens
      (sets.map fun S => ({ rest := a.unusedOf S } : SeqIdxs)) with hps
    have hdef : expand nUbatch a.batch.nTokens (sets.map fun S =>
        ({ rest := (a.batch.seqSetMap S).dropWhile a.used } : SeqIdxs)) = ps := rfl
    rw [hdef]
    split
    · rename_i hpos
      have hlt := hk.resolve_left (by omega)
      rw [if_neg (not_not.mpr hlt)]
      have hnd := nodup_flatMap_unusedOf hne hchosen.disjoint
      have hunused : ∀ i ∈ whole ps, a.used i = false := by
        rw [hpre.whole_eq]
        intro i hi
        obtain ⟨S, -, hi⟩ := mem_flatMap.mp hi
        exact ((mem_unusedOf hf).mp hi).1.2
      obtain ⟨hst, hrne, m, hm⟩ := keepTail_spec hpsne (hpre.whole_eq ▸ hnd) hunused
        (fun p hp => hpre.ne_nil hp) hlt
      rw [hst]
      have hkept : Prefixes a (sets.take m) _ := Prefixes.kept (List.forall₂_take m hpre) hm
      refine ⟨sets.take m, _, ⟨hchosen.take fun e => hrne ?_, hkept, hrne, fun hn1 => ?_⟩,
        keepTail_rest hlt, rfl⟩
      · rw [e] at hkept
        exact List.forall₂_nil_left_iff.mp hkept
      · omega
    · rename_i hpos
      exact ⟨sets, ps, ⟨hchosen, hpre, hpsne, hone⟩, fun p _ => .inr (by omega), rfl⟩

/-- `split_equal` has no token left, or makes a ubatch of a pick. -/
theorem splitEqual_pick (hf : a.SetsFirst)
    (hne : ∀ i < a.batch.nTokens, (a.batch.seqSet i).Nonempty)
    (hk : nKeepTail = 0 ∨ nKeepTail < nUbatch) (hc : sequential = true → a.hasCpl = false) :
    ((∀ i, ¬ a.Unused i) ∧ a.splitEqual nUbatch sequential nKeepTail = .ok (none, a)) ∨
    ∃ sets ps, EqualPick a nUbatch sequential sets ps ∧
      a.splitEqual nUbatch sequential nKeepTail =
        (a.mark (concat ps)).ubatchAdd (concat ps) ps.length true :=
  (splitEqual_tails hf hne hk hc).imp_right fun ⟨sets, ps, hp, _, e⟩ => ⟨sets, ps, hp, e⟩

end BeeLlama.BatchAllocr
