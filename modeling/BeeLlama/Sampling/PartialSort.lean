import BeeLlama.Lib.Segments
import BeeLlama.Lib.TopN

/-!
# The greatest candidates (`llama_token_data_array_partial_sort`)

The candidates are counted by buckets of their logits, the upper buckets that have enough of them
are laid out one behind the other and sorted, and of the last one only as much as is wanted.

* `partialSort_isTop`: no access is outside of its buffer, and the first `nPartial` candidates of
  the result are the greatest ones in descending order.
* `partialSort_exact`: they have the logits that `std::partial_sort` gives on the plain path.

The logits are a linear order, and the bucket of a logit is a parameter. `std::sort` and
`std::partial_sort` are known by what they promise (`StdSorts`).
-/

namespace BeeLlama.Sampling

open List

/-- `llama_token_data`. -/
structure TokenData (L : Type) where
  id : Int
  logit : L
  p : L
  deriving DecidableEq, Repr, Inhabited

/-- The comparator is `a.logit > b.logit`. -/
def Descending {L : Type} [LinearOrder L] (l : List (TokenData L)) : Prop :=
  l.Pairwise fun a b => b.logit ≤ a.logit

/-- `std::sort` and `std::partial_sort` with that comparator. -/
structure StdSorts (L : Type) [LinearOrder L] where
  sort : List (TokenData L) → List (TokenData L)
  partialSort : Nat → List (TokenData L) → List (TokenData L)
  sort_perm : ∀ l, (sort l).Perm l
  sort_descending : ∀ l, Descending (sort l)
  partialSort_perm : ∀ n l, n ≤ l.length → (partialSort n l).Perm l
  partialSort_descending : ∀ n l, n ≤ l.length → Descending ((partialSort n l).take n)
  partialSort_le : ∀ n l, n ≤ l.length → ∀ a ∈ (partialSort n l).take n,
    ∀ b ∈ (partialSort n l).drop n, b.logit ≤ a.logit

section Model

variable {L : Type} [LinearOrder L]

/-- `++histo[ib]` for the bucket of every candidate. -/
def countBuckets (bucket : L → Nat) : List (TokenData L) → List Nat → Option (List Nat)
  | [], histo => some histo
  | d :: ds, histo => do
    let n ← histo[bucket d.logit]?
    let histo ← writeAt histo (bucket d.logit) (n + 1)
    countBuckets bucket ds histo

/-- The loop for the bucket of which only a part is wanted, with the number of candidates from it
on; `none` for the bucket `-1`. -/
def findCut (histo : List Nat) (nPartial : Nat) : Nat → Nat → Option (Nat × Nat)
  | 0, _ => none
  | ib + 1, nhave => do
    let n ← histo[ib]?
    if nhave + n ≥ nPartial then return (ib, nhave + n)
    else findCut histo nPartial ib (nhave + n)

/-- The buckets from the last one down to `ib`. -/
def bucketsFrom (nbuckets ib : Nat) : List Nat := (List.range' ib (nbuckets - ib)).reverse

/-- The start of every bucket. -/
def bucketPtrs (histo : List Nat) : List Nat → Nat → Option (List Nat)
  | [], _ => some []
  | j :: js, ptr => do
    let n ← histo[j]?
    return ptr :: (← bucketPtrs histo js (ptr + n))

/-- A sort of `n` candidates from the place `ptr` on. -/
def sortRange (sort : List (TokenData L) → List (TokenData L)) (res : List (TokenData L))
    (ptr n : Nat) : Option (List (TokenData L)) :=
  if ptr + n ≤ res.length then
    some (res.take ptr ++ sort ((res.drop ptr).take n) ++ res.drop (ptr + n))
  else none

/-- The loop that sorts the buckets that are wanted whole; it gives the place behind them. -/
def sortBuckets (std : StdSorts L) (histo : List Nat) :
    List Nat → Nat → List (TokenData L) → Option (Nat × List (TokenData L))
  | [], ptr, res => some (ptr, res)
  | j :: js, ptr, res => do
    let n ← histo[j]?
    let res ← sortRange std.sort res ptr n
    sortBuckets std histo js (ptr + n) res

/-- `llama_token_data_array_partial_sort`, or `none` for an access outside of a buffer. The place
behind the sorted buckets is also the number of candidates that are done. -/
def partialSort [Inhabited L] (std : StdSorts L) (nbuckets : Nat) (bucket : L → Nat)
    (cur : List (TokenData L)) (nPartial : Nat) : Option (List (TokenData L)) := do
  let histo ← countBuckets bucket cur (.replicate nbuckets 0)
  let (ib, nhave) ← findCut histo nPartial nbuckets 0
  let ptrs ← bucketPtrs histo (bucketsFrom nbuckets ib) 0
  let (_, res) ← scatter
    (fun d => if ib ≤ bucket d.logit then some (nbuckets - 1 - bucket d.logit) else none)
    cur ptrs (.replicate nhave default)
  let (ndone, res) ← sortBuckets std histo (bucketsFrom nbuckets (ib + 1)) 0 res
  let n ← histo[ib]?
  if ndone ≤ nPartial ∧ nPartial - ndone ≤ n then
    sortRange (std.partialSort (nPartial - ndone)) res ndone n
  else none

/-- `llama_token_data_array`. -/
structure TokenDataArray (L : Type) where
  data : List (TokenData L)
  size : Nat
  sorted : Bool

/-- `llama_token_data_array_partial_sort_inplace`; the candidates are those below `size`. -/
def partialSortInplace [Inhabited L] (std : StdSorts L) (bucket : L → Nat)
    (cur : TokenDataArray L) (nPartial : Nat) : Option (TokenDataArray L) :=
  let live := cur.data.take cur.size
  if nPartial ≤ 128 then
    if nPartial ≤ live.length then
      some { data := std.partialSort nPartial live ++ cur.data.drop cur.size
             size := nPartial, sorted := true }
    else none
  else do
    let tmp ← partialSort std 128 bucket live nPartial
    if nPartial ≤ tmp.length ∧ nPartial ≤ cur.data.length then
      some { data := tmp.take nPartial ++ cur.data.drop nPartial
             size := nPartial, sorted := true }
    else none

end Model

/-! ## The buckets -/

section Buckets

variable {L : Type} {bucket : L → Nat} {nbuckets : Nat}

/-- The candidates of a bucket. -/
def inBucket (bucket : L → Nat) (cur : List (TokenData L)) (j : Nat) : List (TokenData L) :=
  cur.filter fun d => bucket d.logit = j

/-- The counts are those of the buckets. -/
theorem countBuckets_spec (cur : List (TokenData L)) : ∀ {histo : List Nat},
    (∀ d ∈ cur, bucket d.logit < histo.length) →
    ∃ histo', countBuckets bucket cur histo = some histo' ∧ histo'.length = histo.length ∧
      ∀ j n, histo[j]? = some n → histo'[j]? = some (n + (inBucket bucket cur j).length) := by
  induction cur with
  | nil => exact fun {histo} _ => ⟨histo, rfl, rfl, fun j n h => h⟩
  | cons d ds ih =>
    intro histo h
    have hd := h d mem_cons_self
    obtain ⟨n, hn⟩ : ∃ n, histo[bucket d.logit]? = some n := ⟨_, getElem?_eq_getElem hd⟩
    obtain ⟨histo', e, hlen, hcount⟩ := @ih (histo.set (bucket d.logit) (n + 1)) fun x hx => by
      rw [length_set]
      exact h x (mem_cons_of_mem d hx)
    refine ⟨histo', ?_, by rw [hlen, length_set], fun j m hj => ?_⟩
    · unfold countBuckets
      simp only [hn, writeAt, if_pos hd, Option.bind_eq_bind, Option.bind_some, e]
    · by_cases hjd : bucket d.logit = j
      · subst hjd
        obtain rfl : n = m := Option.some.inj (hn.symm.trans hj)
        rw [hcount _ _ (getElem?_set_self hd)]
        simp [inBucket]
        omega
      · rw [hcount j m (by rw [getElem?_set_ne hjd]; exact hj)]
        simp [inBucket, hjd]

theorem countBuckets_replicate (hb : ∀ x, bucket x < nbuckets) (cur : List (TokenData L)) :
    ∃ histo, countBuckets bucket cur (.replicate nbuckets 0) = some histo ∧
      ∀ j < nbuckets, histo[j]? = some (inBucket bucket cur j).length := by
  have hin : ∀ d ∈ cur, bucket d.logit < (List.replicate nbuckets 0).length := fun d _ => by
    rw [length_replicate]
    exact hb d.logit
  obtain ⟨histo, e, -, hcount⟩ := countBuckets_spec cur hin
  refine ⟨histo, e, fun j hj => ?_⟩
  rw [hcount j 0 (getElem?_replicate_of_lt hj), Nat.zero_add]

variable {ib : Nat} {histo : List Nat} {nPartial : Nat}

theorem bucketsFrom_succ (h : ib < nbuckets) :
    bucketsFrom nbuckets ib = bucketsFrom nbuckets (ib + 1) ++ [ib] := by
  rw [bucketsFrom, bucketsFrom, show nbuckets - ib = (nbuckets - (ib + 1)) + 1 by omega,
    range'_succ, reverse_cons]

theorem mem_bucketsFrom {ib j : Nat} : j ∈ bucketsFrom nbuckets ib ↔ ib ≤ j ∧ j < nbuckets := by
  rw [bucketsFrom, mem_reverse, mem_range'_1]
  omega

theorem pairwise_bucketsFrom (ib : Nat) : (bucketsFrom nbuckets ib).Pairwise (· > ·) := by
  rw [bucketsFrom, pairwise_reverse]
  exact pairwise_lt_range'

theorem getElem?_bucketsFrom {ib k : Nat} (h : ib + k < nbuckets) :
    (bucketsFrom nbuckets ib)[k]? = some (nbuckets - 1 - k) := by
  rw [bucketsFrom, getElem?_reverse (by simp; omega), length_range',
    getElem?_range' (by omega)]
  congr 1
  omega

/-- The candidates of some buckets are those of each of them. -/
theorem perm_flatMap_inBucket (bucket : L → Nat) (cur : List (TokenData L)) {js : List Nat}
    (hjs : js.Nodup) :
    (js.flatMap (inBucket bucket cur)).Perm (cur.filter fun d => bucket d.logit ∈ js) := by
  induction js with
  | nil => simp
  | cons j js ih =>
    obtain ⟨hnot, hnd⟩ := nodup_cons.mp hjs
    have hsplit := filter_append_perm (fun d => decide (bucket d.logit = j))
      (cur.filter fun d => bucket d.logit ∈ j :: js)
    rw [filter_filter, filter_filter] at hsplit
    have hhead : (cur.filter fun d => decide (bucket d.logit = j) &&
        decide (bucket d.logit ∈ j :: js)) = inBucket bucket cur j :=
      filter_congr fun d _ => by by_cases hd : bucket d.logit = j <;> simp [hd]
    have hrest : (cur.filter fun d => !decide (bucket d.logit = j) &&
        decide (bucket d.logit ∈ j :: js)) = cur.filter fun d => bucket d.logit ∈ js :=
      filter_congr fun d _ => by by_cases hd : bucket d.logit = j <;> simp [hd, hnot]
    rw [hhead, hrest] at hsplit
    exact ((ih hnd).append_left _).trans hsplit

/-- The number of candidates in some buckets. -/
def countIn (bucket : L → Nat) (cur : List (TokenData L)) (js : List Nat) : Nat :=
  (js.flatMap (inBucket bucket cur)).length

theorem countIn_cons (cur : List (TokenData L)) (j : Nat) (js : List Nat) :
    countIn bucket cur (j :: js) = (inBucket bucket cur j).length + countIn bucket cur js := by
  simp [countIn]

theorem countIn_bucketsFrom_succ (bucket : L → Nat) (cur : List (TokenData L)) (h : ib < nbuckets) :
    countIn bucket cur (bucketsFrom nbuckets ib) =
      countIn bucket cur (bucketsFrom nbuckets (ib + 1)) + (inBucket bucket cur ib).length := by
  rw [bucketsFrom_succ h]
  simp [countIn]

theorem countIn_all (hb : ∀ x, bucket x < nbuckets) (cur : List (TokenData L)) :
    countIn bucket cur (bucketsFrom nbuckets 0) = cur.length := by
  have hnd : (bucketsFrom nbuckets 0).Nodup := (pairwise_bucketsFrom 0).imp fun h => Nat.ne_of_gt h
  rw [countIn, (perm_flatMap_inBucket bucket cur hnd).length_eq, filter_eq_self.mpr]
  exact fun d _ => decide_eq_true (mem_bucketsFrom.mpr ⟨Nat.zero_le _, hb d.logit⟩)

variable {cur : List (TokenData L)}

/-- The loop stops at the bucket of which a part is wanted. -/
theorem findCut_spec (hh : ∀ j < nbuckets, histo[j]? = some (inBucket bucket cur j).length)
    (htotal : nPartial ≤ countIn bucket cur (bucketsFrom nbuckets 0)) (n : Nat) (hn : n ≤ nbuckets)
    (hlt : countIn bucket cur (bucketsFrom nbuckets n) < nPartial) :
    ∃ ib < nbuckets, findCut histo nPartial n (countIn bucket cur (bucketsFrom nbuckets n)) =
        some (ib, countIn bucket cur (bucketsFrom nbuckets ib)) ∧
      nPartial ≤ countIn bucket cur (bucketsFrom nbuckets ib) ∧
      countIn bucket cur (bucketsFrom nbuckets (ib + 1)) < nPartial := by
  induction n with
  | zero => omega
  | succ n ih =>
    have hsucc := countIn_bucketsFrom_succ bucket cur hn
    unfold findCut
    simp only [hh n hn, Option.bind_eq_bind, Option.bind_some, ← hsucc]
    split
    · next hge => exact ⟨n, hn, rfl, hge, hlt⟩
    · next hge => exact ih (Nat.le_of_succ_le hn) (by omega)

/-- Before the candidates are placed the buckets have free places only. -/
theorem bucketPtrs_spec [Inhabited L]
    (hh : ∀ j < nbuckets, histo[j]? = some (inBucket bucket cur j).length) (js : List Nat)
    (hjs : ∀ j ∈ js, j < nbuckets) :
    let segs := js.map fun j =>
      (⟨[], .replicate (inBucket bucket cur j).length default⟩ : Segment (TokenData L))
    (∀ ptr, bucketPtrs histo js ptr = some (Segment.pointers ptr segs)) ∧
      .replicate (countIn bucket cur js) default = Segment.layout segs := by
  induction js with
  | nil => exact ⟨fun ptr => rfl, rfl⟩
  | cons j js ih =>
    obtain ⟨h1, h2⟩ := ih fun i hi => hjs i (mem_cons_of_mem j hi)
    refine ⟨fun ptr => ?_, ?_⟩
    · unfold bucketPtrs
      simp [hh j (hjs j mem_cons_self), h1, Segment.pointers]
    · rw [countIn_cons, replicate_add, h2]
      simp [Segment.layout]

/-- A range between two parts of the buffer is sorted. -/
theorem sortRange_append (sort : List (TokenData L) → List (TokenData L))
    (pre l post : List (TokenData L)) :
    sortRange sort (pre ++ l ++ post) pre.length l.length = some (pre ++ sort l ++ post) := by
  rw [sortRange, if_pos (by simp)]
  simp [drop_append]

/-- The candidates of the buckets from `ib` on, and those of the lower ones. -/
theorem perm_buckets (hb : ∀ x, bucket x < nbuckets) (cur : List (TokenData L))
    (hib : ib < nbuckets) :
    ((bucketsFrom nbuckets (ib + 1)).flatMap (inBucket bucket cur) ++ inBucket bucket cur ib ++
      cur.filter fun d => bucket d.logit < ib).Perm cur := by
  have hnd : (bucketsFrom nbuckets ib).Nodup :=
    (pairwise_bucketsFrom ib).imp fun h => Nat.ne_of_gt h
  have hupper := perm_flatMap_inBucket bucket cur hnd
  rw [bucketsFrom_succ hib, flatMap_append, flatMap_singleton] at hupper
  refine (hupper.append_right _).trans ?_
  have hsplit := filter_append_perm (fun d : TokenData L => decide (ib ≤ bucket d.logit)) cur
  have hge : (cur.filter fun d => bucket d.logit ∈ bucketsFrom nbuckets (ib + 1) ++ [ib]) =
      cur.filter fun d => ib ≤ bucket d.logit :=
    filter_congr fun d _ => decide_eq_decide.mpr (by
      rw [← bucketsFrom_succ hib, mem_bucketsFrom]
      exact and_iff_left (hb d.logit))
  have hlt : (cur.filter fun d => bucket d.logit < ib) =
      cur.filter fun d => !decide (ib ≤ bucket d.logit) :=
    filter_congr fun d _ => (decide_eq_decide.mpr not_le.symm).trans decide_not
  rw [hge, hlt]
  exact hsplit

/-- The candidates go to their buckets, and no write is outside. -/
theorem scatter_buckets [Inhabited L] (hb : ∀ x, bucket x < nbuckets) (cur : List (TokenData L))
    (hib : ib < nbuckets) :
    let segs := (bucketsFrom nbuckets ib).map fun j =>
      (⟨[], .replicate (inBucket bucket cur j).length default⟩ : Segment (TokenData L))
    ∃ ptrs, scatter
        (fun d => if ib ≤ bucket d.logit then some (nbuckets - 1 - bucket d.logit) else none)
        cur (Segment.pointers 0 segs) (Segment.layout segs) =
      some (ptrs, (bucketsFrom nbuckets ib).flatMap (inBucket bucket cur)) := by
  intro segs
  have hlen : segs.length = nbuckets - ib := by simp [segs, bucketsFrom]
  -- a candidate of the segment `k` is one of the bucket `nbuckets - 1 - k`
  have hcls : ∀ k, k < nbuckets - ib → ∀ d : TokenData L,
      ((if ib ≤ bucket d.logit then some (nbuckets - 1 - bucket d.logit) else none) = some k ↔
        bucket d.logit = nbuckets - 1 - k) := fun k hk d => by
    have := hb d.logit
    split
    · rw [Option.some.injEq]
      omega
    · simp only [reduceCtorEq, false_iff]
      omega
  have hfilter : ∀ k, k < nbuckets - ib → (cur.filter fun d =>
      decide ((if ib ≤ bucket d.logit then some (nbuckets - 1 - bucket d.logit) else none) =
        some k)) = inBucket bucket cur (nbuckets - 1 - k) := fun k hk =>
    filter_congr fun d _ => decide_eq_decide.mpr (hcls k hk d)
  have hget : ∀ k, k < nbuckets - ib → segs[k]? = some
      ⟨[], .replicate (inBucket bucket cur (nbuckets - 1 - k)).length default⟩ := fun k hk => by
    rw [List.getElem?_map, getElem?_bucketsFrom (by omega)]
    rfl
  obtain ⟨ptrs, e⟩ := @scatter_spec _ (fun d : TokenData L =>
      if ib ≤ bucket d.logit then some (nbuckets - 1 - bucket d.logit) else none) cur segs
    (fun d _ k hk => by
      split at hk
      · have := Option.some.inj hk
        omega
      · cases hk)
    (fun k s hk => by
      have hlt := (List.getElem?_eq_some_iff.mp hk).1
      rw [hget k (by omega)] at hk
      rw [← Option.some.inj hk, hfilter k (by omega), length_replicate])
  refine ⟨ptrs, e.trans (congrArg some (Prod.ext rfl ?_))⟩
  have hmap : segs.mapIdx (Segment.complete (fun d : TokenData L =>
      if ib ≤ bucket d.logit then some (nbuckets - 1 - bucket d.logit) else none) cur) =
      (bucketsFrom nbuckets ib).map fun j => ⟨inBucket bucket cur j, []⟩ := by
    refine ext_getElem? fun k => ?_
    rcases Nat.lt_or_ge k (nbuckets - ib) with hk | hk
    · rw [getElem?_mapIdx, hget k hk, getElem?_map, getElem?_bucketsFrom (by omega)]
      simp only [Option.map_some, Segment.complete, nil_append]
      rw [hfilter k hk]
    · rw [getElem?_eq_none (by rw [length_mapIdx]; omega),
        getElem?_eq_none (by simp [bucketsFrom]; omega)]
  rw [hmap]
  simp [Segment.layout, flatMap_map]

variable [LinearOrder L]

/-- The buckets are sorted, one after the other. -/
theorem sortBuckets_spec (std : StdSorts L)
    (hh : ∀ j < nbuckets, histo[j]? = some (inBucket bucket cur j).length)
    (post : List (TokenData L)) (js : List Nat) (hjs : ∀ j ∈ js, j < nbuckets) :
    ∀ pre : List (TokenData L),
      sortBuckets std histo js pre.length (pre ++ js.flatMap (inBucket bucket cur) ++ post) =
        some (pre.length + countIn bucket cur js,
          pre ++ (js.flatMap fun j => std.sort (inBucket bucket cur j)) ++ post) := by
  induction js with
  | nil => simp [sortBuckets, countIn]
  | cons j js ih =>
    intro pre
    have hsort := sortRange_append std.sort pre (inBucket bucket cur j)
      (js.flatMap (inBucket bucket cur) ++ post)
    have hnext := ih (fun i hi => hjs i (mem_cons_of_mem j hi))
      (pre ++ std.sort (inBucket bucket cur j))
    have hlen : (pre ++ std.sort (inBucket bucket cur j)).length =
        pre.length + (inBucket bucket cur j).length := by
      rw [length_append, (std.sort_perm _).length_eq]
    rw [hlen] at hnext
    unfold sortBuckets
    simp only [append_assoc] at hsort hnext
    simp only [hh j (hjs j mem_cons_self), flatMap_cons, append_assoc,
      Option.bind_eq_bind, Option.bind_some, hsort, hnext, countIn_cons, Nat.add_assoc]

/-- Sorted buckets, from the greatest one down, in front of the greatest candidates of a lower
bucket. -/
theorem isTop_buckets (hmono : Monotone bucket) (std : StdSorts L) (cur : List (TokenData L))
    {last top : List (TokenData L)} (hlast : ∀ d ∈ last, bucket d.logit = ib)
    (htop : IsTop TokenData.logit last top) (js : List Nat) (hjs : js.Pairwise (· > ·))
    (hgt : ∀ j ∈ js, ib < j) :
    IsTop TokenData.logit (js.flatMap (inBucket bucket cur) ++ last)
      ((js.flatMap fun j => std.sort (inBucket bucket cur j)) ++ top) := by
  induction js with
  | nil => exact htop
  | cons j js ih =>
    obtain ⟨hlt, hrest⟩ := pairwise_cons.mp hjs
    rw [flatMap_cons, flatMap_cons, append_assoc, append_assoc]
    refine (ih hrest fun i hi => hgt i (mem_cons_of_mem j hi)).append (std.sort_perm _)
      (std.sort_descending _) fun a ha b hb => ?_
    have hja : bucket a.logit = j := of_decide_eq_true (mem_filter.mp ha).2
    have hjb : bucket b.logit < j := by
      rcases mem_append.mp hb with hb | hb
      · obtain ⟨i, hi, hb⟩ := mem_flatMap.mp hb
        rw [of_decide_eq_true (mem_filter.mp hb).2]
        exact hlt i hi
      · rw [hlast b hb]
        exact hgt j mem_cons_self
    by_contra hnot
    have := hmono (not_le.mp hnot).le
    omega

theorem length_flatMap_sort (std : StdSorts L) (bucket : L → Nat) (cur : List (TokenData L))
    (js : List Nat) :
    (js.flatMap fun j => std.sort (inBucket bucket cur j)).length = countIn bucket cur js := by
  induction js with
  | nil => rfl
  | cons j js ih =>
    rw [flatMap_cons, length_append, ih, (std.sort_perm _).length_eq, countIn_cons]

/-- The first part of `std::partial_sort` has the greatest candidates. -/
theorem StdSorts.isTop (std : StdSorts L) {n : Nat} {l : List (TokenData L)} (h : n ≤ l.length) :
    IsTop TokenData.logit l ((std.partialSort n l).take n) :=
  ⟨std.partialSort_descending n l h, (std.partialSort n l).drop n,
    by rw [take_append_drop]; exact std.partialSort_perm n l h, std.partialSort_le n l h⟩

variable [Inhabited L]

/-- No access is outside of its buffer, and the first candidates of the result are the greatest
ones. -/
theorem partialSort_isTop (std : StdSorts L) (hmono : Monotone bucket)
    (hb : ∀ x, bucket x < nbuckets) (cur : List (TokenData L))
    (h1 : 1 ≤ nPartial) (hn : nPartial ≤ cur.length) :
    ∃ res, partialSort std nbuckets bucket cur nPartial = some res ∧ nPartial ≤ res.length ∧
      IsTop TokenData.logit cur (res.take nPartial) := by
  obtain ⟨histo, hcount, hh⟩ := countBuckets_replicate hb cur
  have hstart : countIn bucket cur (bucketsFrom nbuckets nbuckets) = 0 := by
    simp [countIn, bucketsFrom]
  have hall := countIn_all hb cur
  obtain ⟨ib, hib, hcut, hge, hlt⟩ := findCut_spec hh
    (show nPartial ≤ countIn bucket cur (bucketsFrom nbuckets 0) by omega) nbuckets le_rfl
    (by omega)
  obtain ⟨hptrs, hres⟩ := bucketPtrs_spec hh (bucketsFrom nbuckets ib) fun j hj =>
    (mem_bucketsFrom.mp hj).2
  obtain ⟨ptrs, hscatter⟩ := scatter_buckets hb cur hib
  have hsort := sortBuckets_spec std hh (inBucket bucket cur ib)
    (bucketsFrom nbuckets (ib + 1)) (fun j hj => (mem_bucketsFrom.mp hj).2) []
  have hsucc := countIn_bucketsFrom_succ bucket cur hib
  have hflat : (bucketsFrom nbuckets ib).flatMap (inBucket bucket cur) =
      (bucketsFrom nbuckets (ib + 1)).flatMap (inBucket bucket cur) ++ inBucket bucket cur ib := by
    rw [bucketsFrom_succ hib, flatMap_append, flatMap_singleton]
  simp only [length_nil, nil_append, Nat.zero_add] at hsort
  have hlen := length_flatMap_sort std bucket cur (bucketsFrom nbuckets (ib + 1))
  set done := (bucketsFrom nbuckets (ib + 1)).flatMap fun j => std.sort (inBucket bucket cur j)
  set m := nPartial - countIn bucket cur (bucketsFrom nbuckets (ib + 1)) with hm
  have hwant : m ≤ (inBucket bucket cur ib).length := by omega
  have hlast := sortRange_append (std.partialSort m) done (inBucket bucket cur ib) []
  rw [append_nil, append_nil, hlen] at hlast
  refine ⟨done ++ std.partialSort m (inBucket bucket cur ib), ?_, ?_, ?_⟩
  · unfold partialSort
    rw [hstart] at hcut
    simp only [hcount, hcut, hptrs, hres, hscatter, hflat, hsort, hh ib hib, Option.bind_eq_bind,
      Option.bind_some, if_pos (show _ ∧ _ from ⟨hlt.le, hwant⟩), ← hm, hlast]
  · rw [length_append, hlen, (std.partialSort_perm m _ hwant).length_eq]
    omega
  · have htop := isTop_buckets hmono std cur
      (fun d hd => of_decide_eq_true (mem_filter.mp hd).2) (std.isTop hwant)
      (bucketsFrom nbuckets (ib + 1)) (pairwise_bucketsFrom _) fun j hj => (mem_bucketsFrom.mp hj).1
    rw [take_append, hlen, take_of_length_le (by omega), ← hm]
    refine (htop.append_right fun a ha b hlow => ?_).perm (perm_buckets hb cur hib)
    -- the candidates that are left out are in lower buckets
    have hbb : bucket b.logit < ib := of_decide_eq_true (mem_filter.mp hlow).2
    have hba : ib ≤ bucket a.logit := by
      rcases mem_append.mp (htop.mem ha) with ha | ha
      · obtain ⟨j, hj, ha⟩ := mem_flatMap.mp ha
        rw [of_decide_eq_true (mem_filter.mp ha).2]
        exact Nat.le_of_succ_le (mem_bucketsFrom.mp hj).1
      · exact (of_decide_eq_true (mem_filter.mp ha).2).ge
    by_contra hnot
    have := hmono (not_le.mp hnot).le
    omega

omit [LinearOrder L] [Inhabited L] in
/-- A buffer after `n` candidates were put in front. -/
theorem take_front {l pre : List (TokenData L)} {n k : Nat} (hp : pre.length = n) (hnk : n ≤ k)
    (hk : k ≤ l.length) : (pre ++ l.drop n).take n = pre ∧
      (pre ++ l.drop n).length = l.length ∧ (pre ++ l.drop n).drop k = l.drop k := by
  refine ⟨take_left' hp, ?_, ?_⟩
  · rw [length_append, length_drop]
    omega
  · rw [drop_append, drop_of_length_le (by omega), nil_append, drop_drop]
    congr 1
    omega

/-- The array is cut to its greatest candidates. -/
theorem partialSortInplace_isTop (std : StdSorts L) (hmono : Monotone bucket)
    (hb : ∀ x, bucket x < 128) (arr : TokenDataArray L) (h1 : 1 ≤ nPartial)
    (hn : nPartial ≤ arr.size) (hsize : arr.size ≤ arr.data.length) :
    ∃ arr', partialSortInplace std bucket arr nPartial = some arr' ∧ arr'.size = nPartial ∧
      arr'.sorted = true ∧ arr'.data.length = arr.data.length ∧
      arr'.data.drop arr.size = arr.data.drop arr.size ∧
      IsTop TokenData.logit (arr.data.take arr.size) (arr'.data.take nPartial) := by
  have hlive : (arr.data.take arr.size).length = arr.size := by
    rw [length_take]
    omega
  unfold partialSortInplace
  dsimp only
  split
  · rw [if_pos (by omega)]
    have hle : nPartial ≤ (arr.data.take arr.size).length := by omega
    have hperm := (std.partialSort_perm nPartial _ hle).length_eq
    have hfront := take_front (l := arr.data) (k := arr.size) (hperm.trans hlive) le_rfl hsize
    refine ⟨_, rfl, rfl, rfl, hfront.2.1, hfront.2.2, ?_⟩
    show IsTop _ _ ((std.partialSort nPartial (arr.data.take arr.size) ++ _).take nPartial)
    rw [take_append_of_le_length (by omega)]
    exact std.isTop hle
  · obtain ⟨res, e, hlen, htop⟩ := partialSort_isTop std hmono hb (arr.data.take arr.size) h1
      (by omega)
    rw [e]
    simp only [Option.bind_eq_bind, Option.bind_some]
    rw [if_pos ⟨hlen, by omega⟩]
    have hres : (res.take nPartial).length = nPartial := by
      rw [length_take]
      omega
    have hfront := take_front (l := arr.data) hres hn hsize
    refine ⟨_, rfl, rfl, rfl, hfront.2.1, hfront.2.2, ?_⟩
    show IsTop _ _ ((res.take nPartial ++ _).take nPartial)
    rw [hfront.1]
    exact htop

/-- The bucketed selection makes no access outside of a buffer and gives the `nPartial` greatest
candidates in descending order, with the logits of the plain `std::partial_sort`; so does the
selection in place, which leaves what is behind the candidates. -/
theorem partialSort_exact (std : StdSorts L) (hmono : Monotone bucket)
    (hb : ∀ x, bucket x < nbuckets) (cur : List (TokenData L)) (nPartial : Nat)
    (h1 : 1 ≤ nPartial) (hn : nPartial ≤ cur.length) :
    (∃ res, partialSort std nbuckets bucket cur nPartial = some res ∧
      (res.take nPartial).length = nPartial ∧ IsTop TokenData.logit cur (res.take nPartial) ∧
      (res.take nPartial).map TokenData.logit =
        ((std.partialSort nPartial cur).take nPartial).map TokenData.logit) ∧
    ∀ arr : TokenDataArray L, nbuckets = 128 → arr.size ≤ arr.data.length →
      arr.data.take arr.size = cur →
      ∃ arr', partialSortInplace std bucket arr nPartial = some arr' ∧ arr'.size = nPartial ∧
        arr'.sorted = true ∧ arr'.data.length = arr.data.length ∧
        arr'.data.drop arr.size = arr.data.drop arr.size ∧
        IsTop TokenData.logit cur (arr'.data.take nPartial) := by
  constructor
  · obtain ⟨res, e, hlen, htop⟩ := partialSort_isTop std hmono hb cur h1 hn
    have hplain := std.isTop hn
    have hperm := (std.partialSort_perm nPartial cur hn).length_eq
    refine ⟨res, e, by rw [length_take]; omega, htop, htop.map_eq hplain ?_⟩
    rw [length_take, length_take]
    omega
  · rintro arr rfl hsize rfl
    rw [length_take] at hn
    exact partialSortInplace_isTop std hmono hb arr h1 (by omega) hsize

/-- Sorts that keep the order of equal logits. -/
def StdSorts.stable (L : Type) [LinearOrder L] : StdSorts L :=
  have : Std.Total fun a b : TokenData L => b.logit ≤ a.logit := ⟨fun a b => le_total _ _⟩
  have : IsTrans (TokenData L) fun a b => b.logit ≤ a.logit := ⟨fun _ _ _ h h' => h'.trans h⟩
  have hsorted (l : List (TokenData L)) :
      Descending (l.insertionSort fun a b => b.logit ≤ a.logit) := List.pairwise_insertionSort _ l
  { sort := List.insertionSort fun a b => b.logit ≤ a.logit
    partialSort := fun _ => List.insertionSort fun a b => b.logit ≤ a.logit
    sort_perm := List.perm_insertionSort _
    sort_descending := hsorted
    partialSort_perm := fun _ l _ => List.perm_insertionSort _ l
    partialSort_descending := fun n l _ => (hsorted l).sublist (List.take_sublist n _)
    partialSort_le := fun n l _ a ha b hb => by
      have h := hsorted l
      rw [← List.take_append_drop n (l.insertionSort _)] at h
      exact (List.pairwise_append.mp h).2.2 a ha b hb }

/-- Two of four candidates; one bucket has two of them. -/
theorem partialSort_exact_four : ∃ res, partialSort (StdSorts.stable Nat) 3 (fun x => min x 2)
      [⟨0, 1, 0⟩, ⟨1, 7, 0⟩, ⟨2, 0, 0⟩, ⟨3, 4, 0⟩] 2 = some res ∧
    (res.take 2).map TokenData.logit = [7, 4] := by
  have hmono : Monotone fun x : Nat => min x 2 := fun a b h => inf_le_inf_right 2 h
  obtain ⟨⟨res, e, -, -, hlogits⟩, -⟩ := partialSort_exact (StdSorts.stable Nat) hmono
    (fun x => Nat.lt_succ_of_le (min_le_right x 2))
    [⟨0, 1, 0⟩, ⟨1, 7, 0⟩, ⟨2, 0, 0⟩, ⟨3, 4, 0⟩] 2 (by decide) (by decide)
  exact ⟨res, e, hlogits.trans (by decide +kernel)⟩

end Buckets

end BeeLlama.Sampling
