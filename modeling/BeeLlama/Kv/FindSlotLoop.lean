import BeeLlama.Kv.CacheRun
import BeeLlama.Lib.Loop

/-!
# The plain search round by round (`llama_kv_cache::find_slot`)

The loop of the standard branch of `find_slot`, with both values of `cont`, for caches whose cells
are not allocated by groups. It tests one cell a round, or with `cont` a run of `n` cells up to the
first one that cannot be used, and goes around the end of the cache without a look at the number of
the tested cells.

* `searchLoop_any`: without `cont` it ends, with the first cells from the head on.
* `searchLoop_cont`: with `cont` it ends, with a run of usable cells if there is one.
* `findSlot_complete`: `find_slot` ends, and finds cells if there are enough of them.
-/

namespace BeeLlama.KvCache

open List Nat SearchState

/-! ## The loop -/

/-- The variables of the loop: `head_cur`, `n_tested` and `res.idxs[s]`. -/
structure PlainSearch where
  head : Nat
  nTested : Nat
  idxs : List Nat

namespace PlainSearch

/-- The loop over `n_test` cells. -/
def testCells (use : Nat → Bool) (cont : Bool) : Nat → PlainSearch → PlainSearch
  | 0, a => a
  | k + 1, a =>
    let idx := a.head
    let a := { a with head := a.head + 1, nTested := a.nTested + 1 }
    if use idx then testCells use cont k { a with idxs := a.idxs ++ [idx] }
    else if cont then a
    else testCells use cont k a

/-- A round of `while (true)`. -/
def round (size n : Nat) (cont : Bool) (use : Nat → Bool) (a : PlainSearch) :
    PlainSearch ⊕ Option (List Nat) :=
  let nTest := if cont then n else 1
  if a.head + nTest > size then
    .inl { a with nTested := a.nTested + (size - a.head), head := 0 }
  else
    let a := testCells use cont nTest a
    if a.idxs.length = n then .inr (some a.idxs)
    else
      let a := if cont then { a with idxs := [] } else a
      if a.nTested ≥ size then .inr none else .inl a

end PlainSearch

/-- The search in the stream of sequence `s`, for `fuel` rounds. -/
def searchStream (st : KvCache) (cont : Bool) (n fuel s : Nat) : Option (Option (List Nat)) :=
  let x := st.cfg.seqToStream s
  let c := st.cells x
  let head := if st.heads x > c.getUsed + 2 * n then 0 else st.heads x
  if n > c.size then some none
  else
    breakLoop (PlainSearch.round c.size n cont fun idx => canUse st.cfg c s idx) fuel ⟨head, 0, []⟩

/-- The searches one after the other; the first one that fails ends them. -/
def searchStreams (st : KvCache) (cont : Bool) (n fuel : Nat) :
    List Nat → Option (Option (List (List Nat)))
  | [] => some (some [])
  | s :: seqs =>
    match st.searchStream cont n fuel s with
    | none => none
    | some none => some none
    | some (some idxs) => (st.searchStreams cont n fuel seqs).map (Option.map (idxs :: ·))

/-- The sequences for which the plain search looks for cells. -/
def plainSeqs (st : KvCache) (u : Ubatch) : List Nat :=
  if st.cfg.nStream > 1 then u.seqIdUnq else u.seqIdUnq.take 1

/-- `n_tokens` of the plain search: the tokens for one stream. -/
def plainTokens (st : KvCache) (u : Ubatch) : Nat :=
  if st.cfg.nStream > 1 then u.tokens.length / u.seqIdUnq.length else u.tokens.length

/-- `find_slot(ubatch, cont)` of a cache without groups. There is no result if a search is still
running after `fuel` rounds. -/
def findSlotLoop (st : KvCache) (u : Ubatch) (cont : Bool) (fuel : Nat) :
    Option (Except KvError (Option SlotInfo)) :=
  if !st.streamsAssert u (st.plainTokens u) then some (.error .abort)
  else
    let strm := (st.plainSeqs u).map st.cfg.seqToStream
    (st.searchStreams cont (st.plainTokens u) fuel (st.plainSeqs u)).map fun r =>
      .ok (r.map fun idxs => ⟨strm.foldl min LLAMA_MAX_SEQ, strm.foldl max 0, strm, idxs⟩)

/-! ## One cell a round -/

section Any

open SearchState

variable {size n h : Nat} {use : Nat → Bool}

/-- What the loop has seen: the first cells of the search, less than `n` of which can be used. -/
structure AnyInv (size n h : Nat) (use : Nat → Bool) (a : PlainSearch) : Prop where
  tested : a.nTested < size
  head_le : a.head ≤ size
  head : a.head % size = (h + a.nTested) % size
  idxs : a.idxs = ((cellsFrom size h).take a.nTested).filter use
  short : a.idxs.length < n

theorem cellsFrom_getElem? (hh : h ≤ size) {t : Nat} (ht : t < size) :
    (cellsFrom size h)[t]? = some ((h + t) % size) := by
  unfold cellsFrom
  rw [getElem?_map, getElem?_range ht, Option.map_some]
  split
  · next hs =>
    obtain rfl : h = size := Nat.le_antisymm hh hs
    rw [Nat.zero_add, add_mod_left]
  · rfl

theorem cellsFrom_length : (cellsFrom size h).length = size := by
  simp [cellsFrom]

theorem testCells_any (a : PlainSearch) :
    PlainSearch.testCells use false 1 a = ⟨a.head + 1, a.nTested + 1,
      a.idxs ++ [a.head].filter use⟩ := by
  unfold PlainSearch.testCells PlainSearch.testCells
  cases hu : use a.head <;> simp [hu]

/-- A round that tests the cell at the head has seen one cell more. -/
theorem AnyInv.tested_filter {a : PlainSearch} (ha : AnyInv size n h use a) (hh : h ≤ size)
    (hlt : a.head < size) : a.idxs ++ [a.head].filter use =
      ((cellsFrom size h).take (a.nTested + 1)).filter use := by
  have hhead := ha.head
  rw [mod_eq_of_lt hlt] at hhead
  rw [take_add_one, cellsFrom_getElem? hh ha.tested, filter_append, ← ha.idxs, hhead]
  rfl

/-- `n_tested` and the wrap that is still to come. -/
def anyMeasure (size : Nat) (a : PlainSearch) : Nat :=
  2 * (size - a.nTested) + (if a.head = size then 1 else 0)

theorem AnyInv.next {a b : PlainSearch} (ha : AnyInv size n h use a) (hh : h ≤ size)
    (e : PlainSearch.round size n false use a = .inl b) :
    AnyInv size n h use b ∧ anyMeasure size b < anyMeasure size a := by
  have hpos : 0 < size := zero_lt_of_lt ha.tested
  have hle := ha.head_le
  unfold PlainSearch.round at e
  simp only [Bool.false_eq_true, if_false, testCells_any] at e
  split at e
  · obtain rfl := Sum.inl.inj e
    have hs : a.head = size := by omega
    have hhead := ha.head
    refine ⟨⟨?_, Nat.zero_le _, ?_, ?_, ha.short⟩, ?_⟩
    · simpa [hs] using ha.tested
    · simpa [hs] using hhead
    · simpa [hs] using ha.idxs
    · simp [anyMeasure, hs, Nat.ne_of_lt hpos]
  · next hlt =>
    split at e
    · cases e
    · next hn =>
      split at e
      · cases e
      · next ht =>
        obtain rfl := Sum.inl.inj e
        have hf := ha.tested_filter hh (by omega)
        refine ⟨⟨Nat.lt_of_not_le ht, Nat.le_of_not_lt hlt, ?_, hf, ?_⟩, ?_⟩
        · dsimp only
          rw [add_mod, ha.head, ← add_mod, Nat.add_assoc]
        · have hshort := ha.short
          have hone := length_filter_le use [a.head]
          rw [length_append] at hn
          simp only [length_append, length_singleton] at hone ⊢
          omega
        · have htested := ha.tested
          unfold anyMeasure
          dsimp only
          split <;> split <;> omega

theorem AnyInv.done {a : PlainSearch} {r : Option (List Nat)} (ha : AnyInv size n h use a)
    (hh : h ≤ size) (e : PlainSearch.round size n false use a = .inr r) :
    r = if (((cellsFrom size h).filter use).take n).length = n then
      some (((cellsFrom size h).filter use).take n) else none := by
  unfold PlainSearch.round at e
  simp only [Bool.false_eq_true, if_false, testCells_any] at e
  split at e
  · cases e
  · next hlt =>
    have hf := ha.tested_filter hh (by omega)
    split at e
    · next hn =>
      obtain rfl := Sum.inr.inj e
      have htake : ((cellsFrom size h).filter use).take n =
          ((cellsFrom size h).take (a.nTested + 1)).filter use := by
        rw [hf] at hn
        conv_lhs => rw [← take_append_drop (a.nTested + 1) (cellsFrom size h)]
        rw [filter_append, take_append_of_le_length (by omega),
          take_of_length_le (by omega)]
      rw [htake, ← hf, if_pos hn]
    · next hn =>
      split at e
      · next ht =>
        obtain rfl := Sum.inr.inj e
        have hall : (cellsFrom size h).take (a.nTested + 1) = cellsFrom size h :=
          take_of_length_le (by rw [cellsFrom_length]; omega)
        have hshort := ha.short
        have hone := length_filter_le use [a.head]
        have hlen := congrArg List.length hf
        rw [hall, length_append] at hlen
        rw [length_append] at hn
        simp only [length_singleton] at hone
        rw [if_neg]
        rw [length_take]
        omega
      · cases e

/-- Without `cont` the loop ends, with the first `n` cells from the head on that can be used. -/
theorem searchLoop_any (hh : h ≤ size) (hn : 0 < n) (hle : n ≤ size) {fuel : Nat}
    (hf : 2 * size + 1 < fuel) :
    breakLoop (PlainSearch.round size n false use) fuel ⟨h, 0, []⟩ =
      some (if (((cellsFrom size h).filter use).take n).length = n then
        some (((cellsFrom size h).filter use).take n) else none) := by
  have h0 : AnyInv size n h use ⟨h, 0, []⟩ :=
    ⟨by dsimp only; omega, hh, rfl, rfl, hn⟩
  obtain ⟨r, hr, hp⟩ := breakLoop_spec (AnyInv size n h use) (anyMeasure size)
    (fun r => r = if (((cellsFrom size h).filter use).take n).length = n then
      some (((cellsFrom size h).filter use).take n) else none)
    (fun a b ha e => ha.next hh e) (fun a r ha e => ha.done hh e) h0
    (show anyMeasure size ⟨h, 0, []⟩ < fuel by unfold anyMeasure; dsimp only; split <;> omega)
  rw [hr, hp]

end Any

/-! ## A run a round -/

section Cont

variable {size n h : Nat} {use : Nat → Bool}

/-- The `n` cells from `h` on can be used. -/
structure IsRun (size n : Nat) (use : Nat → Bool) (h : Nat) : Prop where
  fits : h + n ≤ size
  usable : ∀ i < n, use (h + i) = true

/-- The test of a run succeeds, or stops behind the first cell that cannot be used. -/
theorem testCells_cont (k : Nat) (a : PlainSearch) :
    ((∀ i < k, use (a.head + i) = true) ∧ PlainSearch.testCells use true k a =
      ⟨a.head + k, a.nTested + k, a.idxs ++ List.range' a.head k⟩) ∨
    ∃ j < k, use (a.head + j) = false ∧ PlainSearch.testCells use true k a =
      ⟨a.head + j + 1, a.nTested + j + 1, a.idxs ++ List.range' a.head j⟩ := by
  induction k generalizing a with
  | zero =>
    exact .inl ⟨fun i hi => absurd hi (Nat.not_lt_zero i), by simp [PlainSearch.testCells]⟩
  | succ k ih =>
    unfold PlainSearch.testCells
    dsimp only
    cases hu : use a.head with
    | false =>
      exact .inr ⟨0, succ_pos k, hu, by simp⟩
    | true =>
      rw [if_pos rfl]
      rcases ih ⟨a.head + 1, a.nTested + 1, a.idxs ++ [a.head]⟩ with ⟨hall, e⟩ | ⟨j, hj, hjf, e⟩
      · refine .inl ⟨fun i hi => ?_, ?_⟩
        · cases i with
          | zero => exact hu
          | succ i => rw [← hall i (by omega)]; congr 1; dsimp only; omega
        · rw [e, range'_succ]
          simp only [append_assoc, singleton_append, PlainSearch.mk.injEq, and_true]
          omega
      · refine .inr ⟨j + 1, by omega, ?_, ?_⟩
        · rw [← hjf]; congr 1; dsimp only; omega
        · rw [e, range'_succ]
          simp only [append_assoc, singleton_append, PlainSearch.mk.injEq, and_true]
          omega

/-- Where no run begins after `t` tested cells, with the head at `a` now: behind the first head `h`,
after the end of the cache also before the head, and in the end nowhere. -/
inductive ContSeen (size n h : Nat) (use : Nat → Bool) (a t : Nat) : Prop where
  | first (ge : h ≤ a) (tested : t = a - h) (lt : t < size)
    (none : ∀ r, h ≤ r → r < a → ¬ IsRun size n use r)
  | second (tested : t = size - h + a) (lt : t < size)
    (none : ∀ r, h ≤ r ∨ r < a → ¬ IsRun size n use r)
  | last (head : a = 0) (ge : size ≤ t) (none : ∀ r, ¬ IsRun size n use r)

/-- What the loop has seen from the head `h` on. -/
structure ContInv (size n h : Nat) (use : Nat → Bool) (a : PlainSearch) : Prop where
  idxs : a.idxs = []
  head_le : a.head ≤ size
  seen : ContSeen size n h use a.head a.nTested

/-- `n_tested` and the wrap that is still to come. -/
def contMeasure (size n : Nat) (a : PlainSearch) : Nat :=
  2 * (size - a.nTested) + (if a.head + n > size then 1 else 0)

/-- A run that begins between the head and the first cell that cannot be used contains it. -/
theorem IsRun.not_of_unusable {a r j : Nat} (hj : j < n) (hf : use (a + j) = false) (hr : a ≤ r)
    (hrj : r ≤ a + j) : ¬ IsRun size n use r := by
  intro hrun
  have hu := hrun.usable (a + j - r) (by omega)
  rw [show r + (a + j - r) = a + j by omega, hf] at hu
  cases hu

/-- Behind the last place for a run the search wraps. -/
theorem ContSeen.wrap {a t : Nat} (hs : ContSeen size n h use a t) (hh : h ≤ size) (hn : n ≤ size)
    (ha : a ≤ size) (hw : size < a + n) :
    ContSeen size n h use 0 (t + (size - a)) := by
  have hend : ∀ r, a ≤ r → ¬ IsRun size n use r := fun r hr hrun => by
    have := hrun.fits
    omega
  cases hs with
  | first ge tested lt none =>
    have hrest : ∀ r, h ≤ r → ¬ IsRun size n use r := fun r hr => by
      rcases Nat.lt_or_ge r a with hra | hra
      · exact none r hr hra
      · exact hend r hra
    rcases Nat.eq_zero_or_pos h with h0 | h0
    · exact .last rfl (by omega) fun r => hrest r (by omega)
    · exact .second (by omega) (by omega) fun r hr => hrest r (hr.resolve_right (Nat.not_lt_zero r))
  | second tested lt none =>
    refine .last rfl (by omega) fun r => ?_
    rcases Nat.lt_or_ge r a with hra | hra
    · exact none r (.inr hra)
    · exact hend r hra
  | last head ge none => omega

/-- A test that stops at cell `a + j` shows that no run begins up to there. -/
theorem ContSeen.test {a t j : Nat} (hs : ContSeen size n h use a t) (hj : j < n)
    (hf : use (a + j) = false) (hlt : t + j + 1 < size) :
    ContSeen size n h use (a + j + 1) (t + j + 1) := by
  have hstop : ∀ r, a ≤ r → r < a + j + 1 → ¬ IsRun size n use r := fun r hr hrj =>
    IsRun.not_of_unusable hj hf hr (by omega)
  cases hs with
  | first ge tested lt none =>
    refine .first (by omega) (by omega) hlt fun r hr hra => ?_
    rcases Nat.lt_or_ge r a with hra' | hra'
    · exact none r hr hra'
    · exact hstop r hra' hra
  | second tested lt none =>
    refine .second (by omega) hlt fun r hr => ?_
    rcases Nat.lt_or_ge r a with hra' | hra'
    · exact none r (.inr hra')
    · rcases hr with hr | hr
      · exact none r (.inl hr)
      · exact hstop r hra' hr
  | last head ge none => omega

/-- When as many cells are tested as there are, no run begins anywhere. -/
theorem ContSeen.none {a t j : Nat} (hs : ContSeen size n h use a t) (hh : h ≤ size)
    (ha : a + n ≤ size) (hj : j < n) (hf : use (a + j) = false) (hge : size ≤ t + j + 1) (r : Nat) :
    ¬ IsRun size n use r := by
  have hstop : ∀ r, a ≤ r → r < a + j + 1 → ¬ IsRun size n use r := fun r hr hrj =>
    IsRun.not_of_unusable hj hf hr (by omega)
  have hend : ∀ r, size ≤ r → ¬ IsRun size n use r := fun r hr hrun => by
    have := hrun.fits
    omega
  cases hs with
  | first ge tested lt none =>
    rcases Nat.lt_or_ge r a with hra | hra
    · exact none r (by omega) hra
    · rcases Nat.lt_or_ge r (a + j + 1) with hrj | hrj
      · exact hstop r hra hrj
      · exact hend r (by omega)
  | second tested lt none =>
    rcases Nat.lt_or_ge r a with hra | hra
    · exact none r (.inr hra)
    · rcases Nat.lt_or_ge r (a + j + 1) with hrj | hrj
      · exact hstop r hra hrj
      · exact none r (.inl (by omega))
  | last head ge none => exact none r

theorem ContInv.next {a b : PlainSearch} (ha : ContInv size n h use a) (hh : h ≤ size)
    (hle : n ≤ size) (e : PlainSearch.round size n true use a = .inl b) :
    ContInv size n h use b ∧ contMeasure size n b < contMeasure size n a := by
  have hseen := ha.seen
  have hhead := ha.head_le
  unfold PlainSearch.round at e
  simp only [if_true] at e
  split at e
  · next hw =>
    obtain rfl := Sum.inl.inj e
    refine ⟨⟨ha.idxs, Nat.zero_le _, hseen.wrap hh hle hhead hw⟩, ?_⟩
    unfold contMeasure
    dsimp only
    rw [if_pos hw, if_neg (by omega)]
    omega
  · next hfit =>
    rcases testCells_cont n a with ⟨hall, et⟩ | ⟨j, hj, hjf, et⟩
    · rw [et] at e
      simp [ha.idxs] at e
    · rw [et] at e
      simp only [ha.idxs, nil_append, length_range'] at e
      rw [if_neg (by omega)] at e
      split at e
      · cases e
      · next hlt =>
        obtain rfl := Sum.inl.inj e
        refine ⟨⟨rfl, by dsimp only; omega, hseen.test hj hjf (by omega)⟩, ?_⟩
        unfold contMeasure
        dsimp only
        rw [if_neg hfit]
        split <;> omega

theorem ContInv.done {a : PlainSearch} {r : Option (List Nat)} (ha : ContInv size n h use a)
    (hh : h ≤ size) (e : PlainSearch.round size n true use a = .inr r) :
    (r = none ∧ ∀ k, ¬ IsRun size n use k) ∨
      ∃ k, r = some (List.range' k n) ∧ IsRun size n use k := by
  unfold PlainSearch.round at e
  simp only [if_true] at e
  split at e
  · cases e
  · next hfit =>
    rcases testCells_cont n a with ⟨hall, et⟩ | ⟨j, hj, hjf, et⟩
    · rw [et] at e
      simp only [ha.idxs, nil_append, length_range', if_true] at e
      obtain rfl := Sum.inr.inj e
      exact .inr ⟨a.head, rfl, by omega, hall⟩
    · rw [et] at e
      simp only [ha.idxs, nil_append, length_range'] at e
      rw [if_neg (by omega)] at e
      split at e
      · next hge =>
        obtain rfl := Sum.inr.inj e
        exact .inl ⟨rfl, ha.seen.none hh (by omega) hj hjf (by omega)⟩
      · cases e

/-- With `cont` the loop ends, with a run of usable cells if there is one. -/
theorem searchLoop_cont (hh : h ≤ size) (hn : 0 < n) (hle : n ≤ size) {fuel : Nat}
    (hf : 2 * size + 1 < fuel) : ∃ r,
    breakLoop (PlainSearch.round size n true use) fuel ⟨h, 0, []⟩ = some r ∧
      ((r = none ∧ ∀ k, ¬ IsRun size n use k) ∨
        ∃ k, r = some (List.range' k n) ∧ IsRun size n use k) := by
  have h0 : ContInv size n h use ⟨h, 0, []⟩ :=
    ⟨rfl, hh, .first (Nat.le_refl h) (by dsimp only; omega) (by dsimp only; omega)
      fun r hr hr' => absurd hr' (Nat.not_lt.mpr hr)⟩
  exact breakLoop_spec (ContInv size n h use) (contMeasure size n) _
    (fun a b ha e => ha.next hh hle e) (fun a r ha e => ha.done hh e) h0
    (show contMeasure size n ⟨h, 0, []⟩ < fuel by unfold contMeasure; dsimp only; split <;> omega)

end Cont

/-! ## `find_slot` -/

/-- A usable cell: it is empty, or its only sequence masks it at the next position. -/
def Usable (cfg : CacheCfg) (c : KvCells) (idx : Nat) : Prop :=
  c.isEmpty idx = true ∨ ∃ q < LLAMA_MAX_SEQ, c.seq idx = {q} ∧
    isMaskedSwa cfg.nSwa cfg.swaType (c.pos idx) (c.seqPosMax q + 1) = true

theorem canUse_iff {cfg : CacheCfg} (hg : cfg.allocationGroupSize ≤ 1) (c : KvCells)
    (s idx : Nat) : canUse cfg c s idx = true ↔ Usable cfg c idx := by
  unfold canUse Usable
  simp only [hg, decide_true, Bool.true_or, Bool.and_true, Bool.or_eq_true, Bool.and_eq_true,
    decide_eq_true_eq]
  refine or_congr_right ⟨fun ⟨hcount, hany⟩ => ?_, fun ⟨q, hq, hseq, hm⟩ => ?_⟩
  · cases hget : c.seqGet idx with
    | none => rw [hget] at hany; cases hany
    | some q =>
      rw [hget] at hany
      obtain ⟨q', hseq⟩ := Finset.card_eq_one.mp hcount
      have hmem := find?_some hget
      rw [hseq] at hmem
      have hq : q = q' := by simpa using hmem
      exact ⟨q, mem_range.mp (mem_of_find?_eq_some hget), hq ▸ hseq, hany⟩
  · have hget : c.seqGet idx = some q := by
      unfold KvCells.seqGet
      rw [hseq]
      refine (find?_range_eq_some).mpr ⟨by simp, mem_range.mpr hq, fun j hj => ?_⟩
      simp [Nat.ne_of_lt hj]
    rw [hget]
    exact ⟨by rw [KvCells.seqCount, hseq, Finset.card_singleton], hm⟩

/-- The search for sequence `s` ends with `r`, from some number of rounds on. -/
def SearchEnds (st : KvCache) (cont : Bool) (n s : Nat) (r : Option (List Nat)) : Prop :=
  ∃ rounds, ∀ fuel > rounds, st.searchStream cont n fuel s = some r

section Ends

variable {st : KvCache} {cont : Bool} {n s : Nat}

theorem searchStream_any (hn : 0 < n)
    (hh : st.heads (st.cfg.seqToStream s) ≤ (st.cells (st.cfg.seqToStream s)).size) :
    st.SearchEnds false n s (st.findInStream n s) := by
  refine ⟨2 * (st.cells (st.cfg.seqToStream s)).size + 1, fun fuel hf => ?_⟩
  unfold searchStream findInStream
  dsimp only
  have hh' : (if st.heads (st.cfg.seqToStream s) >
      (st.cells (st.cfg.seqToStream s)).getUsed + 2 * n then 0
      else st.heads (st.cfg.seqToStream s)) ≤ (st.cells (st.cfg.seqToStream s)).size := by
    split
    · exact Nat.zero_le _
    · exact hh
  split
  · rfl
  · exact searchLoop_any hh' hn (by omega) hf

theorem searchStream_cont (hn : 0 < n)
    (hh : st.heads (st.cfg.seqToStream s) ≤ (st.cells (st.cfg.seqToStream s)).size) :
    ∃ r, st.SearchEnds true n s r ∧
      ((r = none ∧ ∀ k, ¬ IsRun (st.cells (st.cfg.seqToStream s)).size n
          (fun idx => canUse st.cfg (st.cells (st.cfg.seqToStream s)) s idx) k) ∨
        ∃ k, r = some (List.range' k n) ∧ IsRun (st.cells (st.cfg.seqToStream s)).size n
          (fun idx => canUse st.cfg (st.cells (st.cfg.seqToStream s)) s idx) k) := by
  by_cases hle : n ≤ (st.cells (st.cfg.seqToStream s)).size
  · have hh' : (if st.heads (st.cfg.seqToStream s) >
        (st.cells (st.cfg.seqToStream s)).getUsed + 2 * n then 0
        else st.heads (st.cfg.seqToStream s)) ≤ (st.cells (st.cfg.seqToStream s)).size := by
      split
      · exact Nat.zero_le _
      · exact hh
    obtain ⟨r, hr, hp⟩ := @searchLoop_cont _ _ _
      (fun idx => canUse st.cfg (st.cells (st.cfg.seqToStream s)) s idx) hh' hn hle _
      (lt_succ_self _)
    refine ⟨r, ⟨2 * (st.cells (st.cfg.seqToStream s)).size + 1, fun fuel hf => ?_⟩, hp⟩
    unfold searchStream
    rw [if_neg (by omega)]
    exact breakLoop_mono hr hf
  · refine ⟨none, ⟨0, fun fuel _ => ?_⟩, .inl ⟨rfl, fun k hk => ?_⟩⟩
    · unfold searchStream
      rw [if_pos (by omega)]
    · have := hk.fits
      omega

/-- The loop over the streams ends; it finds cells if and only if each of its searches does. -/
theorem searchStreams_ends {E : Nat → Prop} {R : Nat → List Nat → Prop} {seqs : List Nat}
    (h : ∀ s ∈ seqs, ∃ r, st.SearchEnds cont n s r ∧ (r.isSome = true ↔ E s) ∧
      ∀ idxs, r = some idxs → R s idxs) :
    ∃ r, (∃ rounds, ∀ fuel > rounds, st.searchStreams cont n fuel seqs = some r) ∧
      (r.isSome = true ↔ ∀ s ∈ seqs, E s) ∧ ∀ l, r = some l → List.Forall₂ R seqs l := by
  induction seqs with
  | nil =>
    refine ⟨some [], ⟨0, fun _ _ => rfl⟩, by simp, fun l hl => ?_⟩
    cases hl
    exact .nil
  | cons s seqs ih =>
    obtain ⟨r1, ⟨rounds₁, h1⟩, hE1, hR1⟩ := h s mem_cons_self
    obtain ⟨r2, ⟨rounds₂, h2⟩, hE2, hR2⟩ := ih fun s' hs' => h s' (mem_cons_of_mem s hs')
    rw [forall_mem_cons, ← hE1, ← hE2]
    cases r1 with
    | none =>
      refine ⟨none, ⟨rounds₁, fun fuel hf => ?_⟩, by simp, fun l hl => by cases hl⟩
      rw [searchStreams, h1 fuel hf]
    | some idxs =>
      refine ⟨r2.map (idxs :: ·), ⟨max rounds₁ rounds₂, fun fuel hf => ?_⟩, by simp, fun l hl => ?_⟩
      · rw [searchStreams, h1 fuel (by omega), h2 fuel (by omega)]
        rfl
      · obtain ⟨l2, rfl, rfl⟩ := Option.map_eq_some_iff.mp hl
        exact .cons (hR1 idxs rfl) (hR2 l2 rfl)

end Ends

section FindSlot

variable {st : KvCache} {u : Ubatch}

/-- `find_slot(ubatch, cont)` ends with `r`. -/
def FindSlotEnds (st : KvCache) (u : Ubatch) (cont : Bool) (r : Option SlotInfo) : Prop :=
  ∃ rounds, ∀ fuel > rounds, st.findSlotLoop u cont fuel = some (.ok r)

/-- The stream of the sequence has `n` usable cells. -/
def HasCells (st : KvCache) (n s : Nat) : Prop :=
  ∃ S : Finset Nat, S.card = n ∧ ∀ i ∈ S, i < (st.cells (st.cfg.seqToStream s)).size ∧
    Usable st.cfg (st.cells (st.cfg.seqToStream s)) i

/-- The stream of the sequence has a run of `n` usable cells from `h` on. -/
structure HasRun (st : KvCache) (n s h : Nat) : Prop where
  fits : h + n ≤ (st.cells (st.cfg.seqToStream s)).size
  usable : ∀ i < n, Usable st.cfg (st.cells (st.cfg.seqToStream s)) (h + i)

/-- `n` different usable cells of the stream of the sequence. -/
structure CellsFor (st : KvCache) (n s : Nat) (idxs : List Nat) : Prop where
  length : idxs.length = n
  nodup : idxs.Nodup
  usable : ∀ i ∈ idxs, i < (st.cells (st.cfg.seqToStream s)).size ∧
    Usable st.cfg (st.cells (st.cfg.seqToStream s)) i

/-- The ubatch has tokens for each of its streams. -/
theorem plainTokens_pos (hu : u.tokens ≠ []) (ha : st.streamsAssert u (st.plainTokens u) = true) :
    0 < st.plainTokens u := by
  have hlen := length_pos_iff.mpr hu
  unfold plainTokens at ha ⊢
  split
  · next hs =>
    unfold streamsAssert at ha
    simp only [Bool.or_eq_true, decide_eq_true_eq, Nat.not_le.mpr hs, false_or,
      Bool.and_eq_true] at ha
    rcases Nat.eq_zero_or_pos u.seqIdUnq.length with h0 | h0
    · rw [h0, mod_zero] at ha
      omega
    · refine Nat.div_pos (Nat.le_of_not_lt fun hlt => ?_) h0
      rw [mod_eq_of_lt hlt] at ha
      omega
  · exact hlen

/-- The search goes to every cell. -/
theorem mem_cellsFrom {size i : Nat} (head : Nat) (hi : i < size) :
    i ∈ SearchState.cellsFrom size head := by
  have hsub : (cellsFrom size head).toFinset ⊆ Finset.range size := fun j hj =>
    Finset.mem_range.mpr (cellsFrom_lt (mem_toFinset.mp hj))
  have hcard : (Finset.range size).card ≤ (cellsFrom size head).toFinset.card := by
    rw [Finset.card_range, toFinset_card_of_nodup (cellsFrom_nodup _ _), cellsFrom_length]
  rw [← mem_toFinset, Finset.eq_of_subset_of_card_le hsub hcard]
  exact Finset.mem_range.mpr hi

theorem findInStream_isSome_iff {n s : Nat} (hg : st.cfg.allocationGroupSize ≤ 1) :
    (st.findInStream n s).isSome = true ↔ st.HasCells n s := by
  constructor
  · intro h
    obtain ⟨idxs, e⟩ := Option.isSome_iff_exists.mp h
    obtain ⟨hl, hnd, hc⟩ := findInStream_some e
    refine ⟨idxs.toFinset, by rw [toFinset_card_of_nodup hnd, hl], fun i hi => ?_⟩
    have hi' := hc i (mem_toFinset.mp hi)
    exact ⟨hi'.1, (canUse_iff hg _ s i).mp hi'.2⟩
  · rintro ⟨S, rfl, hS⟩
    have hsize : S.card ≤ (st.cells (st.cfg.seqToStream s)).size := by
      rw [← Finset.card_range (st.cells (st.cfg.seqToStream s)).size]
      exact Finset.card_le_card fun i hi => Finset.mem_range.mpr (hS i hi).1
    unfold findInStream
    rw [if_neg (by omega)]
    generalize (if st.heads _ > _ then 0 else st.heads _) = head
    have hcount : S.card ≤ ((cellsFrom (st.cells (st.cfg.seqToStream s)).size
        head).filter fun idx => canUse st.cfg (st.cells (st.cfg.seqToStream s)) s idx).length := by
      refine le_trans (Finset.card_le_card fun i hi => ?_) (toFinset_card_le _)
      obtain ⟨hi, hu⟩ := hS i hi
      exact mem_toFinset.mpr (mem_filter.mpr ⟨mem_cellsFrom head hi, (canUse_iff hg _ s i).mpr hu⟩)
    rw [if_pos (by rw [length_take]; omega)]
    rfl

theorem findSlotLoop_ends {cont : Bool} {E : Nat → Prop} {R : Nat → List Nat → Prop}
    (ha : st.streamsAssert u (st.plainTokens u) = true)
    (h : ∀ s ∈ st.plainSeqs u, ∃ r, st.SearchEnds cont (st.plainTokens u) s r ∧
      (r.isSome = true ↔ E s) ∧ ∀ idxs, r = some idxs → R s idxs) :
    ∃ r, st.FindSlotEnds u cont r ∧ (r.isSome = true ↔ ∀ s ∈ st.plainSeqs u, E s) ∧
      ∀ i, r = some i → i.strm = (st.plainSeqs u).map st.cfg.seqToStream ∧
        List.Forall₂ R (st.plainSeqs u) i.idxs := by
  obtain ⟨r, ⟨rounds, hr⟩, hE, hR⟩ := searchStreams_ends h
  refine ⟨r.map fun idxs => ⟨((st.plainSeqs u).map st.cfg.seqToStream).foldl min LLAMA_MAX_SEQ,
    ((st.plainSeqs u).map st.cfg.seqToStream).foldl max 0,
    (st.plainSeqs u).map st.cfg.seqToStream, idxs⟩, ⟨rounds, fun fuel hf => ?_⟩, ?_, fun i hi => ?_⟩
  · unfold findSlotLoop
    rw [ha]
    simp [hr fuel hf]
  · rw [Option.isSome_map, hE]
  · obtain ⟨idxs, hidxs, rfl⟩ := Option.map_eq_some_iff.mp hi
    exact ⟨rfl, hR idxs hidxs⟩

/-- The plain search ends. Without `cont` it finds cells if and only if each stream has enough of
them, with `cont` if and only if each stream has a run of them. -/
theorem findSlot_complete (hg : st.cfg.allocationGroupSize ≤ 1) (hu : u.tokens ≠ [])
    (ha : st.streamsAssert u (st.plainTokens u) = true)
    (hh : ∀ x, st.heads x ≤ (st.cells x).size) :
    (∃ r, st.FindSlotEnds u false r ∧
      (r.isSome = true ↔ ∀ s ∈ st.plainSeqs u, st.HasCells (st.plainTokens u) s) ∧
      ∀ i, r = some i → i.strm = (st.plainSeqs u).map st.cfg.seqToStream ∧
        List.Forall₂ (st.CellsFor (st.plainTokens u)) (st.plainSeqs u) i.idxs) ∧
    ∃ r, st.FindSlotEnds u true r ∧
      (r.isSome = true ↔ ∀ s ∈ st.plainSeqs u, ∃ h, st.HasRun (st.plainTokens u) s h) ∧
      ∀ i, r = some i → i.strm = (st.plainSeqs u).map st.cfg.seqToStream ∧
        List.Forall₂ (fun s idxs => ∃ h, idxs = List.range' h (st.plainTokens u) ∧
          st.HasRun (st.plainTokens u) s h) (st.plainSeqs u) i.idxs := by
  have hn := plainTokens_pos hu ha
  refine ⟨findSlotLoop_ends ha fun s _ => ⟨_, searchStream_any hn (hh _),
    findInStream_isSome_iff hg, fun idxs e => ?_⟩, findSlotLoop_ends ha fun s _ => ?_⟩
  · obtain ⟨hl, hnd, hc⟩ := findInStream_some e
    exact ⟨hl, hnd, fun i hi => ⟨(hc i hi).1, (canUse_iff hg _ s i).mp (hc i hi).2⟩⟩
  · have hrun : ∀ k, IsRun (st.cells (st.cfg.seqToStream s)).size (st.plainTokens u)
        (fun idx => canUse st.cfg (st.cells (st.cfg.seqToStream s)) s idx) k ↔
        st.HasRun (st.plainTokens u) s k := fun k =>
      ⟨fun hk => ⟨hk.fits, fun i hi => (canUse_iff hg _ s _).mp (hk.usable i hi)⟩,
        fun hk => ⟨hk.fits, fun i hi => (canUse_iff hg _ s _).mpr (hk.usable i hi)⟩⟩
    obtain ⟨r, hr, ⟨rfl, hnone⟩ | ⟨k, rfl, hk⟩⟩ := searchStream_cont (s := s) hn (hh _)
    · exact ⟨none, hr, by simpa using fun k hk => hnone k ((hrun k).mpr hk), fun _ e => by cases e⟩
    · refine ⟨_, hr, by simpa using ⟨k, (hrun k).mp hk⟩, fun idxs e => ?_⟩
      cases e
      exact ⟨k, rfl, (hrun k).mp hk⟩

/-- A token in an empty cache. -/
theorem twoCells_findSlot : ∃ r, twoCells.FindSlotEnds (oneToken 0 0) true r ∧ r.isSome = true := by
  have ha : twoCells.streamsAssert (oneToken 0 0) (twoCells.plainTokens (oneToken 0 0)) = true := by
    decide +kernel
  have hh : ∀ x, twoCells.heads x ≤ (twoCells.cells x).size := fun x => Nat.zero_le _
  obtain ⟨-, r, hr, hsome, -⟩ := findSlot_complete (by decide) (by simp [oneToken]) ha hh
  refine ⟨r, hr, hsome.mpr fun s hs => ⟨0, ?_, fun i _ => .inl rfl⟩⟩
  have h0 : s = 0 := mem_singleton.mp hs
  subst h0
  decide +kernel

end FindSlot

end BeeLlama.KvCache
