import BeeLlama.Batch.Rows

/-!
# The tokens that a splitter picks

`Picked a l`: the tokens `l` are different, unused tokens of the batch. `InOrder a l`: with `l`
next, tokens that share a sequence still come in batch order.

* `simple_picked`, `seq_picked`: the picks of `split_simple` and `split_seq`.
* `SeqKeeps`: when `split_seq` keeps the order. It passes over a token that has another sequence,
  and may then take a later token of a sequence of that one.
-/

namespace BeeLlama.BatchAllocr

open List Bool

variable {E : Type} {a : BatchAllocr E} {l : List Nat} {nUbatch : Nat}

/-- The token has not been in a ubatch. -/
def Unused (a : BatchAllocr E) (i : Nat) : Prop := i < a.batch.nTokens ∧ a.used i = false

/-- The tokens have a sequence in common. -/
def Shares (a : BatchAllocr E) (i j : Nat) : Prop :=
  ¬ Disjoint (a.batch.seqSet i) (a.batch.seqSet j)

theorem Shares.symm {i j : Nat} (h : a.Shares i j) : a.Shares j i := fun hd => h hd.symm

/-- Different tokens that are not used, at least one. -/
structure Picked (a : BatchAllocr E) (l : List Nat) : Prop where
  ne : l ≠ []
  nodup : l.Nodup
  unused : ∀ i ∈ l, a.Unused i

/-- No token of `l` comes before an earlier one of the same sequence. -/
structure InOrder (a : BatchAllocr E) (l : List Nat) : Prop where
  within : l.Pairwise fun i j => a.Shares i j → i < j
  next : ∀ i ∈ l, ∀ j, a.Unused j → j ∉ l → a.Shares i j → i < j

theorem within_of_sorted (h : l.Pairwise (· < ·)) : l.Pairwise fun i j => a.Shares i j → i < j := by
  refine h.imp ?_
  intro i j hij _
  exact hij

theorem firstUnused_some {cur : Nat} (h : a.firstUnused = some cur) :
    a.Unused cur ∧ ∀ i < cur, a.used i = true := by
  obtain ⟨hcur, as, bs, e, has⟩ := find?_eq_some_iff_append.mp h
  have hmem : cur ∈ List.range a.batch.nTokens := by
    rw [e]
    simp
  refine ⟨⟨mem_range.mp hmem, by simpa using hcur⟩, fun i hi => ?_⟩
  have hsorted : (as ++ cur :: bs).Pairwise (· < ·) := e ▸ pairwise_lt_range
  have him : i ∈ as ++ cur :: bs :=
    e ▸ mem_range.mpr (by have := mem_range.mp hmem; omega)
  rcases mem_append.mp him with hia | hib
  · simpa using has i hia
  · rcases mem_cons.mp hib with rfl | hib
    · omega
    · have := (pairwise_cons.mp (pairwise_append.mp hsorted).2.1).1 i hib
      omega

theorem firstUnused_none (h : a.firstUnused = none) {i : Nat} : ¬ a.Unused i := by
  rintro ⟨hi, hu⟩
  have := find?_eq_none.mp h i (mem_range.mpr hi)
  rw [hu] at this
  exact this rfl

theorem mem_tokensFrom {cur i : Nat} : i ∈ a.tokensFrom cur ↔ cur ≤ i ∧ i < a.batch.nTokens := by
  unfold tokensFrom
  rw [mem_range'_1]
  omega

theorem tokensFrom_cons {cur : Nat} (h : cur < a.batch.nTokens) :
    a.tokensFrom cur = cur :: a.tokensFrom (cur + 1) := by
  unfold tokensFrom
  rw [show a.batch.nTokens - cur = a.batch.nTokens - (cur + 1) + 1 by omega, range'_succ]

/-! ## `split_simple` -/

theorem simpleLoop_take (rest idxs : List Nat) :
    ∃ m, simpleLoop nUbatch rest idxs = idxs ++ rest.take m ∧ (rest ≠ [] → 0 < m) := by
  induction rest generalizing idxs with
  | nil => exact ⟨0, by simp [simpleLoop], fun h => absurd rfl h⟩
  | cons i rest ih =>
    rw [simpleLoop]
    split
    · exact ⟨1, by simp, fun _ => Nat.one_pos⟩
    · obtain ⟨m, e, -⟩ := ih (idxs ++ [i])
      exact ⟨m + 1, by rw [e]; simp, fun _ => Nat.succ_pos m⟩

/-- All tokens before a used one are used. -/
def UsedFirst (a : BatchAllocr E) : Prop := ∀ i j, i < j → a.used j = true → a.used i = true

/-- `split_simple` picks the next tokens. -/
theorem simple_picked (h : a.UsedFirst) {cur : Nat} (hc : a.firstUnused = some cur) :
    let l := simpleLoop nUbatch (a.tokensFrom cur) []
    a.Picked l ∧ a.InOrder l ∧ (a.mark l).UsedFirst := by
  obtain ⟨⟨hlt, hu⟩, hbefore⟩ := firstUnused_some hc
  obtain ⟨m, e, hm⟩ := @simpleLoop_take nUbatch (a.tokensFrom cur) []
  rw [nil_append] at e
  have hm' : 0 < m := hm (by rw [tokensFrom_cons hlt]; exact cons_ne_nil _ _)
  have hrange : (a.tokensFrom cur).take m = List.range' cur (min m (a.batch.nTokens - cur)) := by
    unfold tokensFrom
    rcases Nat.le_total m (a.batch.nTokens - cur) with hle | hle
    · rw [take_range'_of_length_ge hle, Nat.min_eq_left hle]
    · rw [take_range'_of_length_le hle, Nat.min_eq_right hle]
  have hmem : ∀ i, i ∈ (a.tokensFrom cur).take m ↔ cur ≤ i ∧ i < cur + m ∧ i < a.batch.nTokens := by
    intro i
    rw [hrange, mem_range'_1]
    omega
  have hunused : ∀ i, cur ≤ i → a.used i = false := by
    intro i hi
    rcases Nat.eq_or_lt_of_le hi with rfl | hlt'
    · exact hu
    · rw [eq_false_iff]
      intro ht
      rw [h cur i hlt' ht] at hu
      cases hu
  dsimp only
  rw [e]
  refine ⟨⟨?_, ?_, ?_⟩, ⟨?_, ?_⟩, ?_⟩
  · exact ne_nil_of_mem ((hmem cur).mpr ⟨le_refl _, by omega, hlt⟩)
  · rw [hrange]
    exact nodup_range'
  · intro i hi
    obtain ⟨h1, -, h3⟩ := (hmem i).mp hi
    exact ⟨h3, hunused i h1⟩
  · rw [hrange]
    exact within_of_sorted (pairwise_lt_range' 1)
  · intro i hi j hj hjl _
    obtain ⟨h1, h2, h3⟩ := (hmem i).mp hi
    by_contra hle
    rcases Nat.lt_or_ge j cur with hjc | hjc
    · exact Bool.false_ne_true (hj.2.symm.trans (hbefore j hjc))
    · exact hjl ((hmem j).mpr ⟨hjc, by omega, hj.1⟩)
  · intro i j hij hj
    show (a.used i || decide (i ∈ (a.tokensFrom cur).take m)) = true
    rw [or_eq_true, decide_eq_true_eq]
    rcases or_eq_true _ _ ▸ hj with hj | hj
    · exact .inl (h i j hij hj)
    · obtain ⟨h1, h2, h3⟩ := (hmem j).mp (of_decide_eq_true hj)
      rcases Nat.lt_or_ge i cur with hic | hic
      · exact .inl (hbefore i hic)
      · exact .inr ((hmem i).mpr ⟨hic, by omega, by omega⟩)

/-! ## `split_seq` -/

/-- Between a token and the next one whose sequences are among its own, no token shares a sequence
with the latter. Only unused tokens count, and a ubatch of one token has nothing to skip. -/
def SeqKeeps (a : BatchAllocr E) (nUbatch : Nat) : Prop :=
  nUbatch ≤ 1 ∨ ∀ c j k, c < j → j < k → a.Unused c → a.Unused j → a.Unused k →
    a.batch.seqSet k ⊆ a.batch.seqSet c →
    (∀ m, c < m → m < k → a.Unused m → ¬ a.batch.seqSet m ⊆ a.batch.seqSet c) →
    ¬ a.Shares j k

theorem seqLoop_sublist (rest : List Nat) (S : Finset Nat) (idxs : List Nat) :
    ∃ l, a.seqLoop nUbatch rest S idxs = idxs ++ l ∧ l.Sublist rest ∧
      ∀ i ∈ l, a.used i = false := by
  induction rest generalizing S idxs with
  | nil => exact ⟨[], by simp [seqLoop], List.Sublist.refl _, fun i hi => by simp at hi⟩
  | cons i rest ih =>
    rw [seqLoop]
    split
    · obtain ⟨l, e, hs, hu⟩ := ih S idxs
      exact ⟨l, e, hs.cons i, hu⟩
    · rename_i hno
      have hi : a.used i = false := by
        rw [eq_false_iff]
        exact fun ht => hno (.inl ht)
      dsimp only
      split
      · refine ⟨[i], rfl, singleton_sublist.mpr mem_cons_self, fun j hj => ?_⟩
        rw [mem_singleton.mp hj]
        exact hi
      · obtain ⟨l, e, hs, hu⟩ := ih (a.batch.seqSet i) (idxs ++ [i])
        refine ⟨i :: l, by rw [e]; simp, hs.cons_cons i, fun j hj => ?_⟩
        rcases mem_cons.mp hj with rfl | hj
        · exact hi
        · exact hu j hj

/-- What the loop takes after token `c`, from token `p` on: a token that it passes over shares no
sequence with a later pick. -/
theorem seqLoop_passes (h : a.SeqKeeps nUbatch) (hn : 1 < nUbatch) {n p c : Nat}
    (hp : a.batch.nTokens = p + n) (hc : a.Unused c) (hcp : c < p) {idxs : List Nat}
    (hno : ∀ m, c < m → m < p → a.Unused m → ¬ a.batch.seqSet m ⊆ a.batch.seqSet c) :
    ∀ i ∈ a.seqLoop nUbatch (a.tokensFrom p) (a.batch.seqSet c) idxs, i ∈ idxs ∨
      (a.batch.seqSet i ⊆ a.batch.seqSet c ∧
        ∀ j, c < j → j < i → a.Unused j →
          j ∉ a.seqLoop nUbatch (a.tokensFrom p) (a.batch.seqSet c) idxs → ¬ a.Shares j i) := by
  have hkeep := h.resolve_left (by omega)
  induction n generalizing p c idxs with
  | zero =>
    have hnil : a.tokensFrom p = [] := by
      unfold tokensFrom
      rw [show a.batch.nTokens - p = 0 by omega]
      rfl
    rw [hnil, seqLoop]
    exact fun i hi => .inl hi
  | succ n ih =>
    rw [tokensFrom_cons (by omega), seqLoop]
    split
    · rename_i hskip
      refine ih (by omega) hc (by omega) fun m hm hmp hu => ?_
      rcases Nat.lt_or_ge m p with hlt | hge
      · exact hno m hm hlt hu
      · obtain rfl : m = p := by omega
        rcases hskip with hs | hs
        · exact absurd (hu.2.symm.trans hs) Bool.false_ne_true
        · exact fun hsub => hs (Finset.inter_eq_right.mpr hsub)
    · rename_i htake
      obtain ⟨hu, hsub⟩ := not_or.mp htake
      have hup : a.Unused p := ⟨by omega, eq_false_iff.mpr hu⟩
      have hsub' : a.batch.seqSet p ⊆ a.batch.seqSet c := Finset.inter_eq_right.mp (not_not.mp hsub)
      -- the tokens between `c` and `p` share nothing with `p`
      have hpass : ∀ j, c < j → j < p → a.Unused j → ¬ a.Shares j p := fun j hj hjp huj =>
        hkeep c j p hj hjp hc huj hup hsub' hno
      dsimp only
      split
      · intro i hi
        rcases mem_append.mp hi with hi | hi
        · exact .inl hi
        · obtain rfl := mem_singleton.mp hi
          exact .inr ⟨hsub', fun j hj hji huj _ => hpass j hj hji huj⟩
      · intro i hi
        rcases ih (by omega) hup (by omega) (fun m hm hmp _ => by omega) i hi with hi' | ⟨hs, hj'⟩
        · rcases mem_append.mp hi' with hi' | hi'
          · exact .inl hi'
          · obtain rfl := mem_singleton.mp hi'
            exact .inr ⟨hsub', fun j hj hji huj _ => hpass j hj hji huj⟩
        · refine .inr ⟨hs.trans hsub', fun j hj hji huj hjl => ?_⟩
          rcases Nat.lt_trichotomy j p with hlt | rfl | hgt
          · exact fun hsh => hpass j hj hlt huj fun hd => hsh (hd.mono_right hs)
          · refine absurd ?_ hjl
            obtain ⟨l, e, -⟩ := @seqLoop_sublist _ a nUbatch
              (a.tokensFrom (j + 1)) (a.batch.seqSet j) (idxs ++ [j])
            rw [e]
            simp
          · exact hj' j hgt hji huj hjl

/-- `split_seq` picks unused tokens, in order if `SeqKeeps`. -/
theorem seq_picked {cur : Nat} (hc : a.firstUnused = some cur) :
    let l := a.seqLoop nUbatch (a.tokensFrom cur) (a.batch.seqSet cur) []
    a.Picked l ∧ (a.SeqKeeps nUbatch → a.InOrder l) := by
  obtain ⟨hu, hbefore⟩ := firstUnused_some hc
  have hloop : a.seqLoop nUbatch (a.tokensFrom cur) (a.batch.seqSet cur) [] =
      if 1 ≥ nUbatch then [cur]
      else a.seqLoop nUbatch (a.tokensFrom (cur + 1)) (a.batch.seqSet cur) [cur] := by
    rw [tokensFrom_cons hu.1, seqLoop, if_neg (by simp [hu.2])]
    rfl
  obtain ⟨l, e, hsub, hun⟩ := @seqLoop_sublist _ a nUbatch (a.tokensFrom cur)
    (a.batch.seqSet cur) []
  rw [nil_append] at e
  have hcur : cur ∈ l := by
    rw [← e, hloop]
    split
    · exact mem_singleton_self cur
    · obtain ⟨l', e', -⟩ := @seqLoop_sublist _ a nUbatch
        (a.tokensFrom (cur + 1)) (a.batch.seqSet cur) [cur]
      rw [e']
      simp
  have hsorted : l.Pairwise (· < ·) := (pairwise_lt_range' 1).sublist hsub
  have hfrom : ∀ i ∈ l, cur ≤ i ∧ i < a.batch.nTokens := fun i hi =>
    mem_tokensFrom.mp (hsub.subset hi)
  dsimp only
  refine ⟨e ▸ ⟨ne_nil_of_mem hcur, hsorted.imp fun hij => Nat.ne_of_lt hij,
    fun i hi => ⟨(hfrom i hi).2, hun i hi⟩⟩, fun hk => ⟨e ▸ within_of_sorted hsorted,
    fun i hi j hj hjl hsh => ?_⟩⟩
  by_contra hle
  have hcj : cur < j := by
    by_contra hge
    rcases Nat.eq_or_lt_of_le (Nat.le_of_not_lt hge) with rfl | hlt
    · exact hjl (e ▸ hcur)
    · exact Bool.false_ne_true (hj.2.symm.trans (hbefore j hlt))
  have hne : i ≠ j := fun he => hjl (he ▸ hi)
  rw [hloop] at hi hjl
  split at hi
  · rw [mem_singleton.mp hi] at hle
    omega
  · rename_i hn
    rw [if_neg hn] at hjl
    obtain ⟨n, hn'⟩ : ∃ n, a.batch.nTokens = cur + 1 + n :=
      ⟨a.batch.nTokens - (cur + 1), by have := hu.1; omega⟩
    rcases seqLoop_passes hk (by omega) hn' hu (Nat.lt_succ_self cur)
        (fun m hm hmp _ => by omega) i hi with hi' | ⟨-, hpass⟩
    · rw [mem_singleton.mp hi'] at hle
      omega
    · exact hpass j hcj (by omega) hj hjl hsh.symm

end BeeLlama.BatchAllocr
