import BeeLlama.Batch.Run

/-!
# The size of a ubatch

`split_simple` and `split_seq` stop at `n_ubatch` tokens. `split_equal` compares the number of its
sequence sets with `n_ubatch` after it has added one, so it goes on with `n_ubatch + 1` sets, of
which it takes a token each. The used tokens are arbitrary here.

* `StartsBelow`: the tokens that start a set, by the batch and its used tokens alone.
* `curSeqSets_starts`: the sets that the first loop chooses.
* `expand_rounds`: the rounds of the second loop stay within `n_ubatch` if the sets do.
* `splitEqual_size`: the size of the ubatch.
* `withinLimit_iff`: when a call keeps the limit.
-/

namespace BeeLlama

open Option Nat
open List hiding Disjoint
namespace BatchAllocr

variable {E : Type} {a : BatchAllocr E} {nUbatch nKeepTail : Nat} {sequential : Bool}

/-! ## The tokens that start a set -/

/-- `batch.seq_id[i][0]`. -/
def firstSeqId (a : BatchAllocr E) (i : Nat) : Int := (a.batch.seqId.getD i []).headD 0

/-- The token starts no set behind those that `starts` have started: it shares a sequence with one
of them, or in a sequential split its id does not follow the last one. -/
def Blocked (a : BatchAllocr E) (sequential : Bool) (starts : List Nat) (j : Nat) : Prop :=
  (∃ t ∈ starts, a.Shares t j) ∨
    (sequential = true ∧ ∃ t, starts.getLast? = some t ∧ a.firstSeqId j ≠ a.firstSeqId t + 1)

/-- The unused tokens below `p` that start a set: those that the earlier ones do not block. -/
structure StartsBelow (a : BatchAllocr E) (sequential : Bool) (p : Nat) (starts : List Nat) :
    Prop where
  sorted : starts.Pairwise (· < ·)
  mem : ∀ j, j ∈ starts ↔ j < p ∧ a.Unused j ∧ ¬ a.Blocked sequential (starts.filter (· < j)) j

section Starts

variable {p q : Nat} {starts starts' : List Nat}

/-- Two lists of starts have the same tokens below both ends. -/
theorem StartsBelow.unique (h : a.StartsBelow sequential p starts)
    (h' : a.StartsBelow sequential q starts') (hpq : p ≤ q) {j : Nat} (hj : j < p) :
    j ∈ starts ↔ j ∈ starts' := by
  induction j using Nat.strong_induction_on with
  | _ j ih =>
    have hfilter : starts.filter (· < j) = starts'.filter (· < j) := by
      refine List.Perm.eq_of_pairwise
        (fun x y _ _ h1 h2 => absurd (Nat.lt_trans h1 h2) (lt_irrefl x)) (h.sorted.filter _)
        (h'.sorted.filter _) ?_
      refine (perm_ext_iff_of_nodup ((h.sorted.imp Nat.ne_of_lt).filter _)
        ((h'.sorted.imp Nat.ne_of_lt).filter _)).mpr fun x => ?_
      rw [mem_filter, mem_filter, decide_eq_true_iff]
      exact and_congr_left fun hx => ih x hx (Nat.lt_trans hx hj)
    rw [h.mem, h'.mem, hfilter]
    exact and_congr_left fun _ => ⟨fun hp => Nat.lt_of_lt_of_le hp hpq, fun _ => hj⟩

theorem StartsBelow.subset (h : a.StartsBelow sequential p starts)
    (h' : a.StartsBelow sequential q starts') (hpq : p ≤ q) : starts ⊆ starts' :=
  fun j hj => (h.unique h' hpq ((h.mem j).mp hj).1).mp hj

/-- With as many starts the lists are the same. -/
theorem StartsBelow.eq_of_length (h : a.StartsBelow sequential p starts)
    (h' : a.StartsBelow sequential q starts') (hlen : starts.length = starts'.length) :
    starts = starts' := by
  wlog hpq : p ≤ q with hsym
  · exact (hsym h' h hlen.symm (Nat.le_of_not_le hpq)).symm
  have hsub := subperm_of_subset (h.sorted.imp Nat.ne_of_lt) (h.subset h' hpq)
  exact List.Perm.eq_of_pairwise
    (fun x y _ _ h1 h2 => absurd (Nat.lt_trans h1 h2) (lt_irrefl x)) h.sorted h'.sorted
    (hsub.perm_of_length_le (Nat.le_of_eq hlen.symm))

/-- Behind the batch there is nothing to start. -/
theorem StartsBelow.extend (h : a.StartsBelow sequential a.batch.nTokens starts)
    (hq : a.batch.nTokens ≤ q) : a.StartsBelow sequential q starts where
  sorted := h.sorted
  mem j := (h.mem j).trans ⟨fun hj => ⟨by omega, hj.2⟩, fun hj => ⟨hj.2.1.1, hj.2⟩⟩

/-- The token behind the starts so far starts a set, or not. -/
theorem StartsBelow.step (h : a.StartsBelow sequential p starts) :
    (a.Unused p ∧ ¬ a.Blocked sequential starts p →
      a.StartsBelow sequential (p + 1) (starts ++ [p])) ∧
    (¬ (a.Unused p ∧ ¬ a.Blocked sequential starts p) →
      a.StartsBelow sequential (p + 1) starts) := by
  have hlt : ∀ x ∈ starts, x < p := fun x hx => ((h.mem x).mp hx).1
  have hp : starts.filter (· < p) = starts :=
    filter_eq_self.mpr fun x hx => decide_eq_true (hlt x hx)
  have hbelow : ∀ j < p + 1, (starts ++ [p]).filter (· < j) = starts.filter (· < j) := by
    intro j hj
    rw [filter_append, filter_singleton, decide_eq_false (by omega)]
    simp
  constructor
  · intro hs
    refine ⟨pairwise_append.mpr ⟨h.sorted, pairwise_singleton _ _, fun x hx y hy =>
      (mem_singleton.mp hy) ▸ hlt x hx⟩, fun j => ?_⟩
    rw [mem_append, mem_singleton]
    constructor
    · rintro (hj | rfl)
      · obtain ⟨h1, h2⟩ := (h.mem j).mp hj
        rw [hbelow j (by omega)]
        exact ⟨by omega, h2⟩
      · rw [hbelow j (by omega), hp]
        exact ⟨by omega, hs⟩
    · rintro ⟨h1, h2⟩
      rw [hbelow j h1] at h2
      rcases Nat.lt_or_ge j p with hj | hj
      · exact .inl ((h.mem j).mpr ⟨hj, h2⟩)
      · exact .inr (by omega)
  · intro hs
    refine ⟨h.sorted, fun j => (h.mem j).trans ⟨fun ⟨h1, h2⟩ => ⟨by omega, h2⟩, fun ⟨h1, h2⟩ => ?_⟩⟩
    rcases Nat.lt_or_ge j p with hj | hj
    · exact ⟨hj, h2⟩
    · obtain rfl : j = p := by omega
      rw [hp] at h2
      exact absurd h2 hs

/-- The first loop of `split_equal` goes on until it has more than `n_ubatch` sets. -/
theorem curSeqSets_starts {n : Nat} (hp : a.batch.nTokens = p + n)
    (h : a.StartsBelow sequential p starts) (hlen : starts.length ≤ nUbatch) {last : Int}
    (hlast : ∀ t, starts.getLast? = some t → last = a.firstSeqId t) :
    ∃ q starts', a.StartsBelow sequential q starts' ∧
      a.curSeqSets nUbatch sequential (a.tokensFrom p) (starts.map a.batch.seqSet) last =
        starts'.map a.batch.seqSet ∧
      (starts'.length = nUbatch + 1 ∨ starts'.length ≤ nUbatch ∧ q = a.batch.nTokens) := by
  induction n generalizing p starts last with
  | zero =>
    have hnil : a.tokensFrom p = [] := by
      unfold tokensFrom
      rw [show a.batch.nTokens - p = 0 by omega]
      rfl
    rw [hnil, curSeqSets]
    exact ⟨p, starts, h, rfl, .inr ⟨hlen, hp.symm⟩⟩
  | succ n ih =>
    have hplt : p < a.batch.nTokens := by omega
    -- what the code asks of the token
    have hblocked : ((∀ set ∈ starts.map a.batch.seqSet, set ∩ a.batch.seqSet p = ∅) ∧
        (sequential → starts.map a.batch.seqSet = [] ∨ a.firstSeqId p = last + 1)) ↔
        ¬ a.Blocked sequential starts p := by
      unfold Blocked Shares
      rw [not_or, List.forall_mem_map]
      refine and_congr ⟨fun hall => ?_, fun hno t ht => ?_⟩ ⟨fun hseq => ?_, fun hno hs => ?_⟩
      · rintro ⟨t, ht, hd⟩
        exact hd (Finset.disjoint_iff_inter_eq_empty.mpr (hall t ht))
      · by_contra hne
        exact hno ⟨t, ht, fun hd => hne (Finset.disjoint_iff_inter_eq_empty.mp hd)⟩
      · rintro ⟨hs, t, ht, hne⟩
        rcases hseq hs with he | he
        · rw [map_eq_nil_iff.mp he] at ht
          cases ht
        · exact hne (hlast t ht ▸ he)
      · rcases eq_nil_or_concat starts with rfl | ⟨l, t, rfl⟩
        · exact .inl rfl
        · right
          have ht : (l.concat t).getLast? = some t := by simp
          by_contra hne
          exact hno ⟨hs, t, ht, fun he => hne (he.trans (hlast t ht ▸ rfl))⟩
    rw [tokensFrom_cons hplt, curSeqSets]
    by_cases hused : a.used p = true
    · rw [if_pos hused]
      have hno : ¬ (a.Unused p ∧ ¬ a.Blocked sequential starts p) := fun hs =>
        Bool.false_ne_true (hs.1.2.symm.trans hused)
      exact ih (by omega) (h.step.2 hno) hlen hlast
    · rw [if_neg hused]
      have hu : a.Unused p := ⟨hplt, Bool.eq_false_iff.mpr hused⟩
      have hid : (a.batch.seqId.getD p []).headD 0 = a.firstSeqId p := rfl
      simp only [hid]
      by_cases hb : a.Blocked sequential starts p
      · rw [if_neg fun hadd => hblocked.mp hadd hb]
        exact ih (by omega) (h.step.2 fun hs => hs.2 hb) hlen hlast
      · have hnew := h.step.1 ⟨hu, hb⟩
        have hmap : starts.map a.batch.seqSet ++ [a.batch.seqSet p] =
            (starts ++ [p]).map a.batch.seqSet := by
          rw [map_append, map_singleton]
        have hlen' : (starts ++ [p]).length = starts.length + 1 := length_append
        rw [if_pos (hblocked.mpr hb), hmap, length_map]
        split
        · exact ⟨p + 1, starts ++ [p], hnew, rfl, .inl (by omega)⟩
        · refine ih (by omega) hnew (by omega) fun t ht => ?_
          rw [getLast?_concat] at ht
          rw [← Option.some.inj ht]

end Starts

/-! ## Rounds -/

/-- Every set has given `c` tokens, and they are within `n_ubatch`, or one of each set. -/
structure Even (nUbatch c : Nat) (ps : List SeqIdxs) : Prop where
  length : ∀ p ∈ ps, p.idxs.length = c
  room : c ≤ 1 ∨ c * ps.length ≤ nUbatch

theorem Even.of_room {c : Nat} {ps : List SeqIdxs} (h : ∀ p ∈ ps, p.idxs.length = c)
    (hroom : c = 0 ∨ (c + 1) * ps.length ≤ nUbatch) : Even nUbatch c ps where
  length := h
  room := hroom.imp (fun h => by omega) fun hr =>
    (Nat.mul_le_mul_right _ (le_succ c)).trans hr

/-- Every round takes a token of each set, and there is one more only within `n_ubatch`. -/
theorem expand_rounds (fuel : Nat) {ps : List SeqIdxs} {c : Nat}
    (h : ∀ p ∈ ps, p.idxs.length = c) (hroom : c = 0 ∨ (c + 1) * ps.length ≤ nUbatch) :
    ∃ c', Even nUbatch c' (expand nUbatch fuel ps) := by
  induction fuel generalizing ps c with
  | zero => exact ⟨c, .of_room h hroom⟩
  | succ fuel ih =>
    rw [expand]
    split
    · next hall =>
      have hpush : ∀ p ∈ ps.map SeqIdxs.push, p.idxs.length = c + 1 := fun q hq => by
        obtain ⟨p, hp, rfl⟩ := mem_map.mp hq
        have := length_pos_of_ne_nil (hall p hp)
        have := h p hp
        simp only [SeqIdxs.push, length_append, length_take]
        omega
      have heven : Even nUbatch (c + 1) (ps.map SeqIdxs.push) := by
        refine ⟨hpush, hroom.imp (fun h => by omega) fun hr => ?_⟩
        rwa [length_map]
      dsimp only
      split
      · exact ⟨c + 1, heven⟩
      · next hmore =>
        rcases ps with - | ⟨p, ps⟩
        · exact ih (fun p hp => absurd hp not_mem_nil) (.inl rfl)
        · have hhead : ((((p :: ps).map SeqIdxs.push).map fun p => p.idxs.length).headD 0) =
              c + 1 := hpush _ mem_cons_self
          rw [hhead] at hmore
          exact ih hpush (.inr (Nat.not_lt.mp hmore))
    · exact ⟨c, .of_room h hroom⟩

theorem concat_length {c : Nat} {ps : List SeqIdxs} (h : ∀ p ∈ ps, p.idxs.length = c) :
    (concat ps).length = c * ps.length := by
  induction ps with
  | nil => simp [concat]
  | cons p ps ih =>
    have hcons : concat (p :: ps) = p.idxs ++ concat ps := rfl
    rw [hcons, length_append, h p mem_cons_self,
      ih fun q hq => h q (mem_cons_of_mem p hq), length_cons, mul_succ, Nat.add_comm]

/-! ## Sets with arbitrary flags -/

section Sets

variable {S : Finset Nat} {sets : List (Finset Nat)} {ps : List SeqIdxs}

theorem unusedOf_ne_nil {t : Nat} (ht : a.Unused t) : a.unusedOf (a.batch.seqSet t) ≠ [] := by
  intro hnil
  have hmem : t ∈ a.batch.seqSetMap (a.batch.seqSet t) :=
    mem_filter.mpr ⟨mem_range.mpr ht.1, decide_eq_true rfl⟩
  have := dropWhile_eq_nil_iff.mp hnil t hmem
  rw [ht.2] at this
  cases this

/-- The first token of a set that is left is unused. -/
theorem unused_of_unusedOf_cons {i : Nat} {rest : List Nat} (h : a.unusedOf S = i :: rest) :
    a.Unused i := by
  refine ⟨(lt_of_mem_unusedOf (h ▸ mem_cons_self)).1, ?_⟩
  have hne : (a.batch.seqSetMap S).dropWhile a.used ≠ [] := by
    have : a.unusedOf S ≠ [] := h ▸ cons_ne_nil _ _
    exact this
  have := head_dropWhile_not a.used hne
  have hhead : ((a.batch.seqSetMap S).dropWhile a.used).head hne = i := by
    have h' : (a.batch.seqSetMap S).dropWhile a.used = i :: rest := h
    simp only [h', head_cons]
  rwa [hhead] at this

/-- The sets that `StartsBelow` starts share no sequence. -/
theorem StartsBelow.disjoint {p : Nat} {starts : List Nat} (h : a.StartsBelow sequential p starts) :
    (starts.map a.batch.seqSet).Pairwise Disjoint := by
  rw [pairwise_map]
  refine h.sorted.imp_of_mem ?_
  intro t j ht hj hlt
  by_contra hd
  exact ((h.mem j).mp hj).2.2 (.inl ⟨t, mem_filter.mpr ⟨ht, decide_eq_true hlt⟩, hd⟩)

end Sets

/-! ## The kept tail -/

/-- What `split_equal` hands to `ubatch_add`: an allocator of the same batch, and tokens of the
batch, of which one has been unused and is not now. -/
structure Handed (a b : BatchAllocr E) (idxs : List Nat) : Prop where
  batch : b.batch = a.batch
  nEmbd : b.nEmbd = a.nEmbd
  nPosPerEmbd : b.nPosPerEmbd = a.nPosPerEmbd
  lt : ∀ i ∈ idxs, i < a.batch.nTokens
  ne : idxs ≠ []
  marks : ∃ i, a.Unused i ∧ b.used i = true

/-- No set would be left with some, but fewer than `nKeepTail`, of its tokens. -/
def KeepsAll (nKeepTail : Nat) (ps : List SeqIdxs) : Prop :=
  ∀ p ∈ ps, p.rest.length = 0 ∨ nKeepTail ≤ p.rest.length

section Keep

variable {ps : List SeqIdxs} {p : SeqIdxs} {c : Nat}

theorem nKeep_le : nKeep nKeepTail ps ≤ ps.length := ( takeWhile_prefix _).length_le

theorem nKeep_eq_length : nKeep nKeepTail ps = ps.length ↔ KeepsAll nKeepTail ps := by
  unfold nKeep KeepsAll
  have hiff : (∀ q ∈ ps, (q.rest.length == 0 || decide (nKeepTail ≤ q.rest.length)) = true) ↔
      ∀ q ∈ ps, q.rest.length = 0 ∨ nKeepTail ≤ q.rest.length :=
    forall₂_congr fun q _ => by rw [Bool.or_eq_true, beq_iff_eq, decide_eq_true_iff]
  rw [← hiff]
  constructor
  · intro h
    have := ( takeWhile_prefix _).eq_of_length h
    rw [takeWhile_eq_self_iff] at this
    exact this
  · intro h
    rw [takeWhile_eq_self_iff.mpr h]

/-- The number of tokens after the tails have been kept. -/
theorem keepTail_size (heven : Even nUbatch c ps) (hc : 1 ≤ c) (hne : ps ≠ [])
    (hlen : ps.length ≤ nUbatch + 1) (hk : nKeepTail < nUbatch) :
    let r := a.keepTail nUbatch nKeepTail ps
    concat r.2 ≠ [] ∧
      (ps.length = nUbatch + 1 → KeepsAll nKeepTail ps → (concat r.2).length = nUbatch + 1) ∧
      (¬ (ps.length = nUbatch + 1 ∧ KeepsAll nKeepTail ps) → (concat r.2).length ≤ nUbatch) := by
  obtain ⟨p, ps, rfl⟩ := exists_cons_of_ne_nil hne
  have hp := heven.length p mem_cons_self
  have hroom := heven.room
  have hcn : c ≤ nUbatch := by
    rcases hroom with h | h
    · omega
    · refine le_trans ?_ h
      exact Nat.le_mul_of_pos_right c (succ_pos _)
  unfold keepTail
  dsimp only
  have hall := @nKeep_eq_length nKeepTail (p :: ps)
  split
  · next h0 =>
    -- the first set alone
    have hno : ¬ KeepsAll nKeepTail (p :: ps) := fun h => by
      have := hall.mpr h
      rw [h0] at this
      exact absurd this.symm (succ_ne_zero _)
    split
    · next hfit =>
      have hconcat : concat [(⟨p.idxs ++ p.rest, []⟩ : SeqIdxs)] = p.idxs ++ p.rest := by
        simp [concat]
      rw [hconcat, length_append]
      refine ⟨fun e => ?_, fun _ h => absurd h hno, fun _ => hfit⟩
      have := congrArg List.length e
      rw [length_append, length_nil] at this
      omega
    · next hfit =>
      have hconcat : ∀ k, concat [(⟨p.idxs.take k, p.idxs.drop k ++ p.rest⟩ : SeqIdxs)] =
          p.idxs.take k := by simp [concat]
      rw [hconcat, length_take]
      refine ⟨fun e => ?_, fun _ h => absurd h hno, fun _ => by omega⟩
      have := congrArg List.length e
      rw [length_take, length_nil] at this
      omega
  · next h0 =>
    have htake : ∀ q ∈ (p :: ps).take (nKeep nKeepTail (p :: ps)), q.idxs.length = c :=
      fun q hq => heven.length q (mem_of_mem_take hq)
    have hle := @nKeep_le nKeepTail (p :: ps)
    rw [concat_length htake, length_take, Nat.min_eq_left hle]
    have hmul : ∀ m, m ≤ (p :: ps).length → m ≤ nUbatch → c * m ≤ nUbatch := by
      intro m hm hmn
      rcases hroom with h | h
      · obtain rfl : c = 1 := by omega
        rwa [Nat.one_mul]
      · exact (Nat.mul_le_mul_left c hm).trans h
    refine ⟨fun e => ?_, fun hfull h => ?_, fun hn => ?_⟩
    · have := congrArg List.length e
      rw [concat_length htake, length_take, Nat.min_eq_left hle, length_nil] at this
      have := Nat.mul_pos hc (Nat.pos_of_ne_zero h0)
      omega
    · rw [hall.mpr h, hfull]
      have hone : c = 1 := by
        rcases hroom with h | h
        · omega
        · rw [hfull] at h
          have := Nat.le_mul_of_pos_left (nUbatch + 1) hc
          omega
      rw [hone, Nat.one_mul]
    · refine hmul _ hle ?_
      by_contra hgt
      refine hn ⟨by omega, hall.mp ?_⟩
      omega

theorem mem_concat_cons {i : Nat} : i ∈ concat (p :: ps) ↔ i ∈ p.idxs ∨ i ∈ concat ps :=
  mem_append

theorem concat_take_subset (n : Nat) : concat (ps.take n) ⊆ whole ps := fun i hi => by
  obtain ⟨q, hq, hiq⟩ := mem_flatMap.mp hi
  exact mem_flatMap.mpr ⟨q, mem_of_mem_take hq, mem_append_left _ hiq⟩

/-- The tokens after the tails have been kept, and the allocator: the first token of the first set
stays marked. -/
theorem keepTail_handed {i : Nat} {l : List Nat} (hp : p.idxs = i :: l)
    (hnd : (whole (p :: ps)).Nodup) (hk : nKeepTail < nUbatch) :
    let r := (a.mark (concat (p :: ps))).keepTail nUbatch nKeepTail (p :: ps)
    r.1.batch = a.batch ∧ r.1.nEmbd = a.nEmbd ∧ r.1.nPosPerEmbd = a.nPosPerEmbd ∧
      r.1.used i = true ∧ concat r.2 ⊆ whole (p :: ps) := by
  have hmark : (a.mark (concat (p :: ps))).used i = true := by
    show (a.used i || decide (i ∈ concat (p :: ps))) = true
    rw [decide_eq_true (mem_concat_cons.mpr (.inl (hp ▸ mem_cons_self))), Bool.or_true]
  have hwhole : whole (p :: ps) = p.idxs ++ p.rest ++ whole ps := rfl
  obtain ⟨hndp, -, hdisj⟩ := nodup_append.mp (hwhole ▸ hnd)
  have hother : i ∉ whole ps := fun h =>
    hdisj i (mem_append_left _ (hp ▸ mem_cons_self)) i h rfl
  have hback : i ∉ concat ps := fun h => hother ((concat_sublist ps).subset h)
  have hunmark : ∀ {b : BatchAllocr E} {back : List Nat}, b.used i = true → i ∉ back →
      (b.unmark back).used i = true := fun {b back} hu hb => by
    show (b.used i && !decide (i ∈ back)) = true
    rw [hu, decide_eq_false hb]
    rfl
  unfold keepTail
  dsimp only
  split
  · split
    · refine ⟨rfl, rfl, rfl, hunmark ?_ hback, fun x hx => ?_⟩
      · show (_ || _) = true
        rw [hmark, Bool.true_or]
      · rcases mem_concat_cons.mp hx with hx | hx
        · rw [hwhole]
          exact mem_append_left _ hx
        · exact absurd hx (by simp [concat])
    · next hfit =>
      have hdrop : i ∉ p.idxs.drop (p.idxs.length - (nKeepTail - p.rest.length)) := by
        have hlen := congrArg List.length hp
        rw [length_cons] at hlen
        have hpos : 0 < p.idxs.length - (nKeepTail - p.rest.length) := by omega
        obtain ⟨k, hk'⟩ := exists_eq_succ_of_ne_zero (Nat.pos_iff_ne_zero.mp hpos)
        rw [hk', hp, drop_succ_cons]
        have hndl := (nodup_append.mp hndp).1
        rw [hp] at hndl
        exact fun h => (nodup_cons.mp hndl).1 (mem_of_mem_drop h)
      refine ⟨rfl, rfl, rfl, hunmark (hunmark hmark hdrop) hback, fun x hx => ?_⟩
      rcases mem_concat_cons.mp hx with hx | hx
      · rw [hwhole]
        exact mem_append_left _ (mem_append_left _ (mem_of_mem_take hx))
      · exact absurd hx (by simp [concat])
  · next h0 =>
    obtain ⟨n, hn⟩ := exists_eq_succ_of_ne_zero h0
    refine ⟨rfl, rfl, rfl, hunmark hmark fun h => hother ?_, concat_take_subset _⟩
    rw [hn, drop_succ_cons] at h
    obtain ⟨q, hq, hiq⟩ := mem_flatMap.mp h
    exact mem_flatMap.mpr ⟨q, mem_of_mem_drop hq, mem_append_left _ hiq⟩

end Keep

/-! ## One call -/

/-- There are `n_ubatch + 1` sets to start, and none of them is held back for its tail:
`n_keep_tail` is not used, or each set has no token left behind the first one, or `n_keep_tail` of
them. -/
def Overfull (a : BatchAllocr E) (nUbatch : Nat) (sequential : Bool) (nKeepTail : Nat) : Prop :=
  ∃ p starts, a.StartsBelow sequential p starts ∧ starts.length = nUbatch + 1 ∧
    (nKeepTail = 0 ∨ ∀ t ∈ starts, (a.unusedOf (a.batch.seqSet t)).length - 1 = 0 ∨
        nKeepTail ≤ (a.unusedOf (a.batch.seqSet t)).length - 1)

section Call

variable {q : Nat} {starts : List Nat}

/-- The sets of `starts` with the tokens that are left, before the second loop. -/
def setsOf (a : BatchAllocr E) (starts : List Nat) : List SeqIdxs :=
  (starts.map a.batch.seqSet).map fun S => { rest := a.unusedOf S }

/-- The second loop gives every set a prefix of its tokens, at least one. -/
structure Rounds (a : BatchAllocr E) (nUbatch c : Nat) (starts : List Nat) (ps : List SeqIdxs) :
    Prop where
  even : Even nUbatch c ps
  pos : 1 ≤ c
  length : ps.length = starts.length
  whole : whole ps = (starts.map a.batch.seqSet).flatMap a.unusedOf
  rest : c = 1 → ∀ k, KeepsAll k ps ↔ ∀ t ∈ starts,
    (a.unusedOf (a.batch.seqSet t)).length - 1 = 0 ∨ k ≤ (a.unusedOf (a.batch.seqSet t)).length - 1

theorem StartsBelow.rounds (h : a.StartsBelow sequential q starts) (hne : starts ≠ []) :
    ∃ c, Rounds a nUbatch c starts (expand nUbatch a.batch.nTokens (a.setsOf starts)) := by
  obtain ⟨c, heven⟩ := @expand_rounds nUbatch a.batch.nTokens (a.setsOf starts) 0
    (fun p hp => by
      obtain ⟨S, -, rfl⟩ := mem_map.mp hp
      rfl) (.inl rfl)
  obtain ⟨r, he, hr, -⟩ := @expand_spec nUbatch a.batch.nTokens (a.setsOf starts)
  have hunused : ∀ t ∈ starts, a.unusedOf (a.batch.seqSet t) ≠ [] := fun t ht =>
    unusedOf_ne_nil ((h.mem t).mp ht).2.1
  have hpos : 0 < a.batch.nTokens := by
    obtain ⟨t, ht⟩ := exists_mem_of_ne_nil _ hne
    have := ((h.mem t).mp ht).2.1.1
    omega
  have hr1 : 1 ≤ r := hr hpos fun p hp => by
    obtain ⟨S, hS, rfl⟩ := mem_map.mp hp
    obtain ⟨t, ht, rfl⟩ := mem_map.mp hS
    exact hunused t ht
  have hform : expand nUbatch a.batch.nTokens (a.setsOf starts) = starts.map fun t =>
      (⟨(a.unusedOf (a.batch.seqSet t)).take r, (a.unusedOf (a.batch.seqSet t)).drop r⟩ :
        SeqIdxs) := by
    rw [he, setsOf, List.map_map, List.map_map]
    rfl
  rw [hform] at heven ⊢
  have hc : ∀ t ∈ starts, min r (a.unusedOf (a.batch.seqSet t)).length = c := fun t ht => by
    rw [← length_take]
    exact heven.length _ (mem_map.mpr ⟨t, ht, rfl⟩)
  refine ⟨c, heven, ?_, length_map _, ?_, fun hc1 k => ?_⟩
  · obtain ⟨t, ht⟩ := exists_mem_of_ne_nil _ hne
    have := hc t ht
    have := length_pos_of_ne_nil (hunused t ht)
    omega
  · rw [BatchAllocr.whole, flatMap_map, flatMap_map]
    refine flatMap_congr fun t _ => ?_
    exact take_append_drop r _
  · unfold KeepsAll
    rw [List.forall_mem_map]
    refine forall₂_congr fun t ht => ?_
    have := hc t ht
    have hrest : (a.unusedOf (a.batch.seqSet t)).length - r =
        (a.unusedOf (a.batch.seqSet t)).length - 1 := by omega
    rw [length_drop, hrest]

/-- With more than `n_ubatch` sets there is one round. -/
theorem Rounds.one {c : Nat} {ps : List SeqIdxs} (h : Rounds a nUbatch c starts ps)
    (hlen : starts.length = nUbatch + 1) : c = 1 := by
  have hpos := h.pos
  rcases h.even.room with hr | hr
  · omega
  · rw [h.length, hlen] at hr
    have := Nat.le_mul_of_pos_left (nUbatch + 1) hpos
    omega

/-- The sets are overfull if the loop has chosen too many and keeps them all. -/
theorem Rounds.overfull_iff {c : Nat} {ps : List SeqIdxs} (h : Rounds a nUbatch c starts ps)
    (hst : a.StartsBelow sequential q starts)
    (hlen : starts.length = nUbatch + 1 ∨ starts.length ≤ nUbatch ∧ q = a.batch.nTokens) :
    a.Overfull nUbatch sequential nKeepTail ↔
      starts.length = nUbatch + 1 ∧ (nKeepTail = 0 ∨ KeepsAll nKeepTail ps) := by
  constructor
  · rintro ⟨p, starts', hst', hlen', hkeep⟩
    rcases hlen with hfull | ⟨hle, rfl⟩
    · obtain rfl := hst.eq_of_length hst' (hfull.trans hlen'.symm)
      exact ⟨hfull, hkeep.imp_right (h.rest (h.one hfull) nKeepTail).mpr⟩
    · -- all starts are below the end of the batch
      have hext := @StartsBelow.extend _ a sequential (max p a.batch.nTokens) starts hst
        (Nat.le_max_right _ _)
      have hsub := subperm_of_subset (hst'.sorted.imp Nat.ne_of_lt)
        (hst'.subset hext (Nat.le_max_left _ _))
      have := hsub.length_le
      omega
  · rintro ⟨hfull, hkeep⟩
    exact ⟨q, starts, hst, hfull, hkeep.imp_right (h.rest (h.one hfull) nKeepTail).mp⟩

/-- The first token of the first set. -/
theorem Rounds.first {c : Nat} {p : SeqIdxs} {ps : List SeqIdxs}
    (h : Rounds a nUbatch c starts (p :: ps)) (hst : a.StartsBelow sequential q starts) :
    ∃ i l, p.idxs = i :: l ∧ a.Unused i := by
  have hlen := h.even.length p mem_cons_self
  obtain ⟨i, l, hp⟩ := exists_cons_of_length_pos (by have := h.pos; omega : 0 < p.idxs.length)
  obtain ⟨t, ts, rfl⟩ := exists_cons_of_length_eq_add_one h.length.symm
  obtain ⟨i', rest, hu⟩ := exists_cons_of_ne_nil
    (unusedOf_ne_nil ((hst.mem t).mp mem_cons_self).2.1)
  have hw := h.whole
  simp only [BatchAllocr.whole, flatMap_cons, map_cons, hp, hu, cons_append, List.cons.injEq] at hw
  exact ⟨i, l, hp, hw.1 ▸ unused_of_unusedOf_cons hu⟩

/-- What is handed on for the sets of `starts`. -/
theorem StartsBelow.handed (h : a.StartsBelow sequential q starts)
    (hne : ∀ i < a.batch.nTokens, (a.batch.seqSet i).Nonempty)
    (hk : nKeepTail = 0 ∨ nKeepTail < nUbatch) (hs : starts ≠ [])
    (hlen : starts.length = nUbatch + 1 ∨ starts.length ≤ nUbatch ∧ q = a.batch.nTokens) :
    ∃ (b : BatchAllocr E) (ps : List SeqIdxs), Handed a b (concat ps) ∧
      (let ps := expand nUbatch a.batch.nTokens (a.setsOf starts)
        let a := a.mark (concat ps)
        if nKeepTail > 0 then
          if ¬ nUbatch > nKeepTail then .error .keepTail
          else
            let r := a.keepTail nUbatch nKeepTail ps
            r.1.ubatchAdd (concat r.2) r.2.length true
        else a.ubatchAdd (concat ps) ps.length true) =
        b.ubatchAdd (concat ps) ps.length true ∧
      (a.Overfull nUbatch sequential nKeepTail → (concat ps).length = nUbatch + 1) ∧
      (¬ a.Overfull nUbatch sequential nKeepTail → (concat ps).length ≤ nUbatch) := by
  obtain ⟨c, hr⟩ := @StartsBelow.rounds _ a nUbatch sequential q starts h hs
  generalize expand nUbatch a.batch.nTokens (a.setsOf starts) = ps at hr
  have hover := @Rounds.overfull_iff _ a nUbatch nKeepTail sequential q starts c ps hr h hlen
  have hpsne : ps ≠ [] := fun he => hs (length_eq_zero_iff.mp (by rw [← hr.length, he]; rfl))
  obtain ⟨p, ps, rfl⟩ := exists_cons_of_ne_nil hpsne
  have hnd : (BatchAllocr.whole (p :: ps)).Nodup := by
    rw [hr.whole]
    exact nodup_flatMap_unusedOf hne h.disjoint
  have hlt : ∀ i ∈ BatchAllocr.whole (p :: ps), i < a.batch.nTokens := fun i hi => by
    rw [hr.whole] at hi
    obtain ⟨S, -, hiS⟩ := mem_flatMap.mp hi
    exact (lt_of_mem_unusedOf hiS).1
  obtain ⟨i, l, hp, hi⟩ := hr.first h
  rcases Nat.eq_zero_or_pos nKeepTail with h0 | h0
  · have hsize := concat_length hr.even.length
    have hroom := hr.even.room
    rw [hr.length] at hsize hroom
    refine ⟨a.mark (concat (p :: ps)), p :: ps, ⟨rfl, rfl, rfl,
      fun x hx => hlt x ((concat_sublist _).subset hx), fun he => ?_, i, hi, ?_⟩, ?_,
      fun ho => ?_, fun ho => ?_⟩
    · have := congrArg List.length he
      rw [hsize, length_nil] at this
      have := Nat.mul_pos hr.pos (length_pos_of_ne_nil hs)
      omega
    · show (_ || decide (i ∈ concat (p :: ps))) = true
      rw [decide_eq_true (mem_concat_cons.mpr (.inl (hp ▸ mem_cons_self))), Bool.or_true]
    · dsimp only
      rw [if_neg (by omega)]
    · have hfull := (hover.mp ho).1
      rw [hsize, hr.one hfull, Nat.one_mul, hfull]
    · have hle : starts.length ≤ nUbatch := by
        by_contra hgt
        exact ho (hover.mpr ⟨by omega, .inl h0⟩)
      rw [hsize]
      rcases hroom with hc | hc
      · have hone : c = 1 := by have := hr.pos; omega
        rw [hone, Nat.one_mul]
        exact hle
      · exact hc
  · have hk' := hk.resolve_left (by omega)
    obtain ⟨hb, he, hpp, hu, hsub⟩ := @keepTail_handed _ a nUbatch nKeepTail ps p i l hp hnd hk'
    obtain ⟨hne', hfull, hle⟩ := @keepTail_size _ (a.mark (concat (p :: ps))) nUbatch nKeepTail
      (p :: ps) c hr.even hr.pos (cons_ne_nil _ _) (by rw [hr.length]; omega) hk'
    refine ⟨_, _, ⟨hb, he, hpp, fun x hx => hlt x (hsub hx), hne', i, hi, hu⟩, ?_, fun ho => ?_,
      fun ho => ?_⟩
    · dsimp only
      rw [if_pos h0, if_neg (not_not.mpr hk')]
    · obtain ⟨h1, h2⟩ := hover.mp ho
      exact hfull (hr.length.trans h1) (h2.resolve_left (by omega))
    · refine hle fun ⟨h1, h2⟩ => ho (hover.mpr ⟨hr.length.symm.trans h1, .inr h2⟩)

end Call

/-- `split_equal` has no token left, or hands on tokens: more than `n_ubatch` of them exactly if the
sets are overfull. -/
theorem splitEqual_size (hne : ∀ i < a.batch.nTokens, (a.batch.seqSet i).Nonempty)
    (hk : nKeepTail = 0 ∨ nKeepTail < nUbatch)
    (hc : sequential = true → a.hasCpl = false) :
    ((∀ i, ¬ a.Unused i) ∧ a.splitEqual nUbatch sequential nKeepTail = .ok (none, a)) ∨
    ∃ (b : BatchAllocr E) (ps : List SeqIdxs), Handed a b (concat ps) ∧
      a.splitEqual nUbatch sequential nKeepTail = b.ubatchAdd (concat ps) ps.length true ∧
      (a.Overfull nUbatch sequential nKeepTail → (concat ps).length = nUbatch + 1) ∧
      (¬ a.Overfull nUbatch sequential nKeepTail → (concat ps).length ≤ nUbatch) := by
  have hcpl : (sequential && a.hasCpl) = false := by
    cases hs : sequential with
    | false => rfl
    | true => rw [hc hs]; rfl
  have hzero : a.StartsBelow sequential 0 [] :=
    ⟨List.Pairwise.nil, fun j =>
      ⟨fun h => absurd h not_mem_nil, fun h => absurd h.1 (by omega)⟩⟩
  have hrange : List.range a.batch.nTokens = a.tokensFrom 0 := by
    rw [tokensFrom, Nat.sub_zero, range_eq_range']
  obtain ⟨q, starts, hst, hsets, hlen⟩ :=
    @curSeqSets_starts _ a nUbatch sequential 0 [] a.batch.nTokens (Nat.zero_add _).symm hzero
      (Nat.zero_le _) (-1) (fun t ht => by cases ht)
  rw [← hrange, map_nil] at hsets
  unfold splitEqual
  rw [hcpl, if_neg Bool.false_ne_true]
  dsimp only
  rw [hsets]
  split
  · next hnil =>
    have hnil' := map_eq_nil_iff.mp hnil
    subst hnil'
    obtain ⟨-, rfl⟩ := hlen.resolve_left (by simp)
    refine .inl ⟨fun i hi => ?_, rfl⟩
    refine absurd ((hst.mem i).mpr ⟨hi.1, hi, ?_⟩) not_mem_nil
    rintro (⟨t, ht, -⟩ | ⟨-, t, ht, -⟩)
    · exact absurd ht (by simp)
    · cases ht
  · next hsne =>
    have hstarts : starts ≠ [] := fun h => hsne (by rw [h]; rfl)
    exact .inr (hst.handed hne hk hstarts hlen)

/-! ## The other splitters -/

theorem simpleLoop_length {rest idxs : List Nat} (h : idxs.length < nUbatch) :
    (simpleLoop nUbatch rest idxs).length ≤ nUbatch := by
  induction rest generalizing idxs with
  | nil => exact Nat.le_of_lt h
  | cons i rest ih =>
    have hlen : (idxs ++ [i]).length = idxs.length + 1 := length_append
    rw [simpleLoop]
    split
    · omega
    · exact ih (by omega)

theorem seqLoop_length {rest idxs : List Nat} {S : Finset Nat} (h : idxs.length < nUbatch) :
    (a.seqLoop nUbatch rest S idxs).length ≤ nUbatch := by
  induction rest generalizing idxs S with
  | nil => exact Nat.le_of_lt h
  | cons i rest ih =>
    have hlen : (idxs ++ [i]).length = idxs.length + 1 := length_append
    rw [seqLoop]
    split
    · exact ih h
    · dsimp only
      split
      · omega
      · exact ih (by omega)

/-- Tokens of the batch with an unused one among them are handed on when they are marked. -/
theorem handed_mark {l : List Nat} {i : Nat} (hlt : ∀ j ∈ l, j < a.batch.nTokens) (hi : i ∈ l)
    (hu : a.Unused i) : Handed a (a.mark l) l where
  batch := rfl
  nEmbd := rfl
  nPosPerEmbd := rfl
  lt := hlt
  ne := ne_nil_of_mem hi
  marks := by
    refine ⟨i, hu, ?_⟩
    show (a.used i || decide (i ∈ l)) = true
    rw [decide_eq_true hi, Bool.or_true]

theorem simple_handed {cur : Nat} (hc : a.firstUnused = some cur) :
    Handed a (a.mark (simpleLoop nUbatch (a.tokensFrom cur) []))
      (simpleLoop nUbatch (a.tokensFrom cur) []) := by
  obtain ⟨hu, -⟩ := firstUnused_some hc
  obtain ⟨m, e, hm⟩ := @simpleLoop_take nUbatch (a.tokensFrom cur) []
  rw [e, nil_append]
  refine handed_mark (fun j hj => (mem_tokensFrom.mp (mem_of_mem_take hj)).2) ?_ hu
  rw [tokensFrom_cons hu.1] at hm ⊢
  obtain ⟨k, rfl⟩ := exists_eq_succ_of_ne_zero (Nat.ne_of_gt (hm (cons_ne_nil _ _)))
  rw [take_succ_cons]
  exact mem_cons_self

theorem seq_handed {cur : Nat} (hc : a.firstUnused = some cur) :
    Handed a (a.mark (a.seqLoop nUbatch (a.tokensFrom cur) (a.batch.seqSet cur) []))
      (a.seqLoop nUbatch (a.tokensFrom cur) (a.batch.seqSet cur) []) := by
  obtain ⟨hp, -⟩ := @seq_picked _ a nUbatch cur hc
  obtain ⟨i, hi⟩ := exists_mem_of_ne_nil _ hp.ne
  exact handed_mark (fun j hj => (hp.unused j hj).1) hi (hp.unused i hi)

end BatchAllocr

/-! ## Every splitter -/

section

open BatchAllocr

variable {E : Type} {a a₁ : BatchAllocr E} {nUbatch : Nat} {sp : Splitter} {l : List Nat}

/-- The arguments that a splitter asserts. -/
def Splitter.Admits (nUbatch : Nat) : Splitter → Prop
  | .equal _ nKeepTail => nKeepTail = 0 ∨ nKeepTail < nUbatch
  | _ => True

/-- A sequential split does not support coupled sequences. -/
def Splitter.Refuses (a : BatchAllocr E) : Splitter → Prop
  | .equal sequential _ => sequential = true ∧ a.hasCpl = true
  | _ => False

/-- The splitter goes on with more sets than tokens that it may take. -/
def Splitter.Overfull (nUbatch : Nat) (a : BatchAllocr E) : Splitter → Prop
  | .equal sequential nKeepTail => a.Overfull nUbatch sequential nKeepTail
  | _ => False

/-- One call of a splitter with any flags. -/
theorem split_handed (hn : 1 ≤ nUbatch) (hk : sp.Admits nUbatch)
    (hne : ∀ i < a.batch.nTokens, (a.batch.seqSet i).Nonempty) :
    (((∀ i, ¬ a.Unused i) ∨ sp.Refuses a) ∧ sp.split a nUbatch = .ok (none, a)) ∨
    (¬ sp.Refuses a ∧ ∃ (a₁ : BatchAllocr E) (l : List Nat) (nSeqs : Nat) (equalSeqs : Bool),
      Handed a a₁ l ∧ sp.split a nUbatch = a₁.ubatchAdd l nSeqs equalSeqs ∧
      (sp.Overfull nUbatch a → l.length = nUbatch + 1) ∧
      (¬ sp.Overfull nUbatch a → l.length ≤ nUbatch)) := by
  cases sp with
  | simple =>
    cases hc : a.firstUnused with
    | none =>
      refine .inl ⟨.inl fun i => firstUnused_none hc, ?_⟩
      show a.splitSimple nUbatch = _
      rw [splitSimple, hc]
    | some cur =>
      refine .inr ⟨id, _, _, (simpleLoop nUbatch (a.tokensFrom cur) []).length, false,
        simple_handed hc, ?_, False.elim, fun _ => simpleLoop_length hn⟩
      show a.splitSimple nUbatch = _
      rw [splitSimple, hc]
  | seq =>
    cases hc : a.firstUnused with
    | none =>
      refine .inl ⟨.inl fun i => firstUnused_none hc, ?_⟩
      show a.splitSeq nUbatch = _
      rw [splitSeq, hc]
    | some cur =>
      refine .inr ⟨id, _, _, 1, true, seq_handed hc, ?_, False.elim, fun _ =>
        seqLoop_length hn⟩
      show a.splitSeq nUbatch = _
      rw [splitSeq, hc]
  | equal sequential nKeepTail =>
    by_cases hr : Splitter.Refuses a (.equal sequential nKeepTail)
    · refine .inl ⟨.inr hr, ?_⟩
      show a.splitEqual nUbatch sequential nKeepTail = _
      rw [splitEqual, hr.1, hr.2]
      rfl
    · have hc : sequential = true → a.hasCpl = false := fun hs =>
        Bool.eq_false_iff.mpr fun h => hr ⟨hs, h⟩
      rcases splitEqual_size hne hk hc with ⟨hno, e⟩ | ⟨a₁, ps, hh, e, hover, hle⟩
      · exact .inl ⟨.inl hno, e⟩
      · exact .inr ⟨hr, a₁, _, _, _, hh, e, hover, hle⟩

/-- A call keeps the limit, and takes an unused token while there is one. -/
structure Splitter.WithinLimit (sp : Splitter) (nUbatch : Nat) (a : BatchAllocr E) : Prop where
  le : ∀ u a', sp.split a nUbatch = .ok (some u, a') → u.nTokens ≤ nUbatch
  progress : (∃ i, a.Unused i) → ∃ u a', sp.split a nUbatch = .ok (some u, a') ∧
    0 < u.nTokens ∧ ∃ i, a.Unused i ∧ a'.used i = true

theorem ubatchAdd_handed (h : Handed a a₁ l) (ha : a.batch.Ok a.nEmbd a.nPosPerEmbd)
    (nSeqs : Nat) (equalSeqs : Bool) :
    ∃ u a', a₁.ubatchAdd l nSeqs equalSeqs = .ok (some u, a') ∧ u.nTokens = l.length ∧
      a'.used = a₁.used := by
  have hok : a₁.batch.Ok a₁.nEmbd a₁.nPosPerEmbd := by
    rw [h.batch, h.nEmbd, h.nPosPerEmbd]
    exact ha
  obtain ⟨u, e, hc⟩ := ubatchAdd_carries hok (fun i hi => h.batch ▸ h.lt i hi) nSeqs equalSeqs
  exact ⟨u, _, e, hc.nTokens, rfl⟩

/-- Without positions for its sections `ubatch_add` reads past the end of them. -/
theorem ubatchAdd_short (h : Handed a a₁ l) (ht : a.batch.token = none) (hp : 2 ≤ a.nPosPerEmbd)
    (hlen : a.batch.pos.length = a.batch.nTokens) (nSeqs : Nat) (equalSeqs : Bool) :
    a₁.ubatchAdd l nSeqs equalSeqs = .error .outOfBounds := by
  have hread : readAll a₁.batch.pos (a₁.posIdx l) = none := by
    obtain ⟨i, hi⟩ := exists_mem_of_ne_nil _ h.ne
    refine readAll_none (i := 1 * a.batch.nTokens + i) ?_ ?_
    · unfold posIdx
      rw [mem_flatMap]
      refine ⟨1, mem_range.mpr (h.nPosPerEmbd ▸ hp), mem_map.mpr ⟨i, hi, ?_⟩⟩
      rw [h.batch, ht]
      rfl
    · rw [h.batch, hlen]
      omega
  unfold ubatchAdd
  rw [hread]
  split
  · next _ _ hpos _ _ => cases hpos
  · rfl

end

/-! ## Accepted batches -/

section

open BatchAllocr

variable {E : Type} {b : Batch E} {a : BatchAllocr E} {nPosPerEmbd nVocab nEmbd nSeqMax : Nat}
  {memory : Option MemoryPos} {outputAll : Bool}

/-- What `init` leaves out of the positions: one for each token. -/
theorem fill_short (hb : b.Ok nEmbd nPosPerEmbd) (hp : ¬ b.PosGiven nPosPerEmbd) :
    (b.fill memory outputAll).token = none ∧ 2 ≤ nPosPerEmbd ∧
      (b.fill memory outputAll).pos.length = b.nTokens := by
  unfold Batch.PosGiven at hp
  simp only [not_or, Bool.not_eq_true, isSome_eq_false_iff, isNone_iff_eq_none] at hp
  obtain ⟨hpos, htok, hp⟩ := hp
  refine ⟨htok, by omega, ?_⟩
  unfold Batch.fill
  dsimp only
  rw [hpos, getD_none, genPos_length]
  cases es : b.seqId with
  | none => simp
  | some l => exact hb.seqId l es

/-- A call of a splitter on an accepted batch, with any tokens used, keeps the limit and takes an
unused token, if one is left, exactly if the positions that it reads are given, the splitter
supports the sequences, and it does not go on with too many sets. -/
theorem withinLimit_iff (hb : b.Ok nEmbd nPosPerEmbd)
    (h : b.init nPosPerEmbd nVocab memory nEmbd nSeqMax outputAll = .ok a) (sp : Splitter)
    {nUbatch : Nat} (hn : 1 ≤ nUbatch) (hk : sp.Admits nUbatch) (used : Nat → Bool) (nUsed : Nat)
    (outIds : List Nat) :
    let x := { a with used, nUsed, outIds }
    sp.WithinLimit nUbatch x ↔ (∀ i, ¬ x.Unused i) ∨
      b.PosGiven nPosPerEmbd ∧ ¬ sp.Refuses x ∧ ¬ sp.Overfull nUbatch x := by
  intro x
  have hne : ∀ i < x.batch.nTokens, (x.batch.seqSet i).Nonempty := fun i hi =>
    (init_seqSet h hi).2
  have hx : x.nEmbd = nEmbd ∧ x.nPosPerEmbd = nPosPerEmbd ∧ x.batch = b.fill memory outputAll := by
    obtain ⟨-, -, -, rfl⟩ := init_ok h
    exact ⟨rfl, rfl, rfl⟩
  obtain ⟨hxe, hxp, hxb⟩ := hx
  rcases split_handed hn hk hne with ⟨hno, e⟩ | ⟨hr, a₁, l, nSeqs, equalSeqs, hl, e, hover, hle⟩
  · -- nothing is returned
    constructor
    · intro hw
      refine .inl fun i hi => ?_
      obtain ⟨u, a', e', -⟩ := hw.progress ⟨i, hi⟩
      rw [e] at e'
      cases e'
    · intro hor
      have hall : ∀ i, ¬ x.Unused i := by
        rcases hor with hall | ⟨-, hr, -⟩
        · exact hall
        · exact hno.resolve_right hr
      refine ⟨fun u a' e' => ?_, fun ⟨i, hi⟩ => absurd hi (hall i)⟩
      rw [e] at e'
      cases e'
  · obtain ⟨j, hj, hju⟩ := hl.marks
    by_cases hp : b.PosGiven nPosPerEmbd
    · have hok : x.batch.Ok x.nEmbd x.nPosPerEmbd := by
        rw [hxe, hxp, hxb]
        exact fill_ok hb hp
      obtain ⟨u, a', ea, hlen, hused⟩ := ubatchAdd_handed hl hok nSeqs equalSeqs
      rw [ea] at e
      constructor
      · intro hw
        refine .inr ⟨hp, hr, fun ho => ?_⟩
        have := hw.le u a' e
        have := hover ho
        omega
      · rintro (hall | ⟨-, -, ho⟩)
        · exact absurd hj (hall j)
        refine ⟨fun v a'' ev => ?_, fun _ => ⟨u, a', e, ?_, j, hj, hused ▸ hju⟩⟩
        · rw [e] at ev
          obtain ⟨rfl, rfl⟩ : u = v ∧ a' = a'' := by simpa using ev
          rw [hlen]
          exact hle ho
        · rw [hlen]
          exact length_pos_of_ne_nil hl.ne
    · -- a read past the positions
      obtain ⟨ht, h2, hlen⟩ := @fill_short _ b nPosPerEmbd nEmbd memory outputAll hb hp
      have hfail := ubatchAdd_short hl (hxb ▸ ht) (hxp ▸ h2) (by rw [hxb]; exact hlen) nSeqs
        equalSeqs
      rw [hfail] at e
      constructor
      · intro hw
        obtain ⟨u, a', e', -⟩ := hw.progress ⟨j, hj⟩
        rw [e] at e'
        cases e'
      · rintro (hall | ⟨hp', -⟩)
        · exact absurd hj (hall j)
        · exact absurd hp' hp

/-- The two sequences that take turns, with the first token used. -/
theorem withinLimit_turns : ∃ a, turns.init 1 4 none 1 2 false = .ok a ∧
    (Splitter.WithinLimit (.equal true 0) 2 { a with used := (· == 0), nUsed := 1 } ↔
      (∀ i, ¬ Unused { a with used := (· == 0), nUsed := 1 } i) ∨
      turns.PosGiven 1 ∧
        ¬ Splitter.Refuses { a with used := (· == 0), nUsed := 1 } (.equal true 0) ∧
        ¬ Splitter.Overfull 2 { a with used := (· == 0), nUsed := 1 } (.equal true 0)) := by
  have hok : (turns.init 1 4 none 1 2 false).toOption.isSome = true := by decide +kernel
  cases e : turns.init 1 4 none 1 2 false with
  | error x =>
    rw [e] at hok
    cases hok
  | ok a =>
    exact ⟨a, rfl, withinLimit_iff turns_ok e (.equal true 0) (by decide) (.inl rfl) _ 1 a.outIds⟩

/-- The tokens of the first ubatch. -/
def firstSize (b : Batch Nat) (sp : Splitter) (nUbatch : Nat) : Option Nat :=
  (b.init 1 4 none 1 2 false).toOption.bind fun a =>
    (sp.split a nUbatch).toOption.bind fun r => r.1.map LlamaUbatch.nTokens

/-- With `n_ubatch = 1` the first ubatch of the two sequences has two tokens. -/
theorem not_withinLimit :
    ¬ ∀ (b : Batch Nat) (nPosPerEmbd nVocab nEmbd nSeqMax : Nat) (memory : Option MemoryPos)
      (outputAll : Bool) (a : BatchAllocr Nat), b.Ok nEmbd nPosPerEmbd →
      b.init nPosPerEmbd nVocab memory nEmbd nSeqMax outputAll = .ok a →
      ∀ nUbatch ≥ 1, Splitter.WithinLimit (.equal false 0) nUbatch a := by
  intro h
  have hsize : firstSize turns (.equal false 0) 1 = some 2 := by decide +kernel
  obtain ⟨a, ea, hs⟩ := bind_eq_some_iff.mp hsize
  obtain ⟨⟨u, a'⟩, er, hu⟩ := bind_eq_some_iff.mp hs
  have he : turns.init 1 4 none 1 2 false = .ok a := by
    cases e : turns.init 1 4 none 1 2 false with
    | error x => rw [e] at ea; cases ea
    | ok a₁ => rw [e] at ea; exact congrArg Except.ok (Option.some.inj ea)
  obtain ⟨v, rfl, hv⟩ := map_eq_some_iff.mp hu
  have hr : Splitter.split (.equal false 0) a 1 = .ok (some v, a') := by
    cases e : Splitter.split (.equal false 0) a 1 with
    | error x => rw [e] at er; cases er
    | ok r => rw [e] at er; exact congrArg Except.ok (Option.some.inj er)
  have := (h turns 1 4 1 2 none false a turns_ok he 1 (Nat.le_refl 1)).le v a' hr
  omega

end

end BeeLlama
