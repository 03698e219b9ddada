import BeeLlama.Ngram.Draft
import Mathlib.Data.List.AList
import Mathlib.Data.PNat.Basic

/-!
# Counting n-grams (`common_ngram_cache_update`, `common_ngram_cache_merge`)

* `times_count`, `times_merge`: what one window and one merge add to the count of a token after an
  n-gram (`times`). The order of the entries of a map, which a merge goes along, is not specified.
* `update_count`: after any chunks, the counts are those of the whole list (`occurrences`).
-/

namespace BeeLlama.Ngram

open List

/-- `common_ngram_cache_part`. -/
abbrev CachePart := AList fun _ : Int32 => ℕ+

/-- `common_ngram_cache`. -/
abbrev Cache := AList fun _ : List Int32 => CachePart

/-- `find`, then `emplace` or `+=`. -/
def addTo (part : CachePart) (token : Int32) (count : ℕ+) : CachePart :=
  part.insert token ((part.lookup token).elim count (· + count))

/-- One window: the n-gram and the token behind it. -/
def count (cache : Cache) (w : List Int32 × Int32) : Cache :=
  cache.insert w.1 (addTo ((cache.lookup w.1).getD ∅) w.2 1)

/-- The windows of one length. -/
def windows (inp : List Int32) (nnew ngramSize : Nat) : List (List Int32 × Int32) :=
  let iStart := max (inp.length - nnew) ngramSize
  (List.range' iStart (inp.length - iStart)).map fun i =>
    (common_ngram ((inp.drop (i - ngramSize)).take ngramSize), inp.getD i 0)

/-- `common_ngram_cache_update`. -/
def update (ngramMin ngramMax : Nat) (cache : Cache) (inp : List Int32) (nnew : Nat) : Cache :=
  (List.range' ngramMin (ngramMax + 1 - ngramMin)).foldl
    (fun cache ngramSize => (windows inp nnew ngramSize).foldl count cache) cache

/-- The chunks of a list, each appended and counted. -/
def feed (ngramMin ngramMax : Nat) (s : Cache × List Int32) (chunk : List Int32) :
    Cache × List Int32 :=
  (update ngramMin ngramMax s.1 (s.2 ++ chunk) chunk.length, s.2 ++ chunk)

/-- One part of `common_ngram_cache_merge`. -/
def mergePart (target : Cache) (e : Σ _ : List Int32, CachePart) : Cache :=
  match target.lookup e.1 with
  | none => target.insert e.1 e.2
  | some part => target.insert e.1 (e.2.entries.foldl (fun part p => addTo part p.1 p.2) part)

/-- `common_ngram_cache_merge`. -/
def merge (target add : Cache) : Cache := add.entries.foldl mergePart target

/-- The count of a token. A token that is not in the part has none. -/
def partTimes (part : CachePart) (token : Int32) : Nat := (part.lookup token).elim 0 PNat.val

/-- The count of a token after an n-gram. -/
def times (cache : Cache) (ngram : List Int32) (token : Int32) : Nat :=
  (cache.lookup ngram).elim 0 (partTimes · token)

/-- The number of places at which the n-gram has ended and the token follows. -/
def occurrences (inp ngram : List Int32) (token : Int32) : Nat :=
  (List.range inp.length).countP fun i => ngram ++ [token] <:+ inp.take (i + 1)

/-! ## Counts -/

section Counts

variable (cache add : Cache) (part : CachePart) (ngram : List Int32) (token : Int32)

theorem partTimes_addTo (t : Int32) (n : ℕ+) :
    partTimes (addTo part t n) token = partTimes part token + if t = token then n.val else 0 := by
  unfold partTimes addTo
  by_cases h : t = token
  · subst h
    rw [AList.lookup_insert, if_pos rfl]
    cases part.lookup t <;> simp
  · rw [AList.lookup_insert_ne (Ne.symm h), if_neg h, Nat.add_zero]

theorem times_insert (k : List Int32) : times (cache.insert k part) ngram token =
      if k = ngram then partTimes part token else times cache ngram token := by
  unfold times
  by_cases h : k = ngram
  · subst h
    rw [AList.lookup_insert, if_pos rfl]
    rfl
  · rw [AList.lookup_insert_ne (Ne.symm h), if_neg h]

theorem times_count (w : List Int32 × Int32) : times (count cache w) ngram token =
      times cache ngram token + if w = (ngram, token) then 1 else 0 := by
  obtain ⟨k, t⟩ := w
  rw [count, times_insert, partTimes_addTo]
  by_cases hk : k = ngram
  · subst hk
    have hpart : partTimes ((cache.lookup k).getD ∅) token = times cache k token := by
      unfold times
      cases cache.lookup k <;> rfl
    simp [hpart]
  · simp [hk]

theorem times_foldl (ws : List (List Int32 × Int32)) : times (ws.foldl count cache) ngram token =
      times cache ngram token + ws.count (ngram, token) := by
  induction ws generalizing cache with
  | nil => rfl
  | cons w ws ih =>
    rw [foldl_cons, ih, times_count, List.count_cons, Nat.add_right_comm, Nat.add_assoc]
    simp

/-- What a loop over the entries of a map adds, if each entry adds to its own key. -/
theorem foldl_dlookup {α β γ : Type} [DecidableEq α] {l : List (Σ _ : α, β)} (hl : l.NodupKeys)
    (f : γ → (Σ _ : α, β) → γ) (g : γ → Nat) (v : β → Nat) (k : α)
    (h : ∀ m e, g (f m e) = g m + if e.1 = k then v e.2 else 0) (m : γ) :
    g (l.foldl f m) = g m + (l.dlookup k).elim 0 v := by
  induction l generalizing m with
  | nil => rfl
  | cons e l ih =>
    obtain ⟨he, hl⟩ := nodupKeys_cons.mp hl
    rw [foldl_cons, ih hl, h, Nat.add_assoc]
    by_cases hk : e.1 = k
    · subst hk
      rw [dlookup_cons_eq, dlookup_eq_none.mpr he, if_pos rfl]
      rfl
    · rw [dlookup_cons_ne _ _ (Ne.symm hk), if_neg hk, Nat.zero_add]

theorem times_mergePart (e : Σ _ : List Int32, CachePart) : times (mergePart cache e) ngram token =
      times cache ngram token + if e.1 = ngram then partTimes e.2 token else 0 := by
  unfold mergePart
  split <;> rename_i h <;> rw [times_insert] <;> by_cases hk : e.1 = ngram
  · subst hk
    simp [times, h]
  · simp [hk]
  · subst hk
    rw [if_pos rfl, if_pos rfl, times, h]
    exact foldl_dlookup e.2.nodupKeys _ (partTimes · token) PNat.val token
      (fun m p => partTimes_addTo m token p.1 p.2) _
  · simp [hk]

theorem times_merge :
    times (merge cache add) ngram token = times cache ngram token + times add ngram token :=
  foldl_dlookup add.nodupKeys mergePart (times · ngram token) (partTimes · token) ngram
    (fun m e => times_mergePart m ngram token e) cache

end Counts

/-! ## Windows -/

section Windows

variable {inp g : List Int32} {token : Int32}

theorem takeWhile_common_ngram (h : tokenNull ∉ g) (hlen : g.length ≤ 4) :
    (common_ngram g).takeWhile (· ≠ tokenNull) = g := by
  rw [common_ngram, take_append, take_of_length_le hlen, take_replicate, takeWhile_append_of_pos]
  · simp
  · exact fun a ha => decide_eq_true fun e => h (e ▸ ha)

theorem suffix_take_iff {i : Nat} (hi : i < inp.length) (hg : g.length ≤ i) :
    g ++ [token] <:+ inp.take (i + 1) ↔
      (inp.drop (i - g.length)).take g.length = g ∧ inp.getD i 0 = token := by
  have hlen : (inp.take (i + 1)).length - (g ++ [token]).length = i - g.length := by
    simp
    omega
  have hsplit : (inp.take (i + 1)).drop (i - g.length) =
      (inp.drop (i - g.length)).take g.length ++ [inp.getD i 0] := by
    rw [drop_take, show i + 1 - (i - g.length) = g.length + 1 by omega, take_add_one,
      getElem?_drop, show i - g.length + g.length = i by omega, List.getD_eq_getElem?_getD,
      getElem?_eq_getElem hi]
    rfl
  rw [suffix_iff_eq_drop, hlen, hsplit]
  constructor
  · intro h
    obtain ⟨h1, h2⟩ := append_inj' h rfl
    exact ⟨h1.symm, (singleton_inj.mp h2).symm⟩
  · rintro ⟨h1, h2⟩
    rw [h1, h2]

/-- The windows of one length with an n-gram and a token. -/
theorem count_windows (hinp : tokenNull ∉ inp) (hg : tokenNull ∉ g) (hlen : g.length ≤ 4)
    (nnew : Nat) {n : Nat} (hn : n ≤ 4) :
    (windows inp nnew n).count (common_ngram g, token) = if n = g.length then
      (List.range' (max (inp.length - nnew) n) (inp.length - max (inp.length - nnew) n)).countP
        fun i => g ++ [token] <:+ inp.take (i + 1) else 0 := by
  rw [windows, List.count, countP_map]
  have hwin : ∀ i, n ≤ i → i < inp.length →
      (common_ngram ((inp.drop (i - n)).take n) = common_ngram g ↔
        (inp.drop (i - n)).take n = g) := by
    refine fun i hi hlt => ⟨fun h => ?_, fun h => by rw [h]⟩
    have hnot : tokenNull ∉ (inp.drop (i - n)).take n :=
      fun hm => hinp (mem_of_mem_drop (mem_of_mem_take hm))
    rw [← takeWhile_common_ngram hnot (by simp; omega), h, takeWhile_common_ngram hg hlen]
  split
  next h =>
    subst h
    refine countP_congr fun i hi => ?_
    obtain ⟨h1, h2⟩ := mem_range'_1.mp hi
    have hi : i < inp.length := by omega
    simp only [Function.comp_apply, beq_iff_eq, Prod.mk.injEq, decide_eq_true_eq,
      hwin i (by omega) hi, suffix_take_iff hi (show g.length ≤ i by omega)]
  next h =>
    refine countP_eq_zero.mpr fun i hi => ?_
    obtain ⟨h1, h2⟩ := mem_range'_1.mp hi
    simp only [Function.comp_apply, beq_iff_eq, Prod.mk.injEq, hwin i (by omega) (by omega)]
    rintro ⟨rfl, -⟩
    exact h (by simp; omega)

theorem countP_range'_max {P : Nat → Bool} {n : Nat} (h : ∀ i < n, P i = false) (a c : Nat) :
    (List.range' a c).countP P = (List.range' (max a n) (a + c - max a n)).countP P := by
  induction c generalizing a with
  | zero => simp
  | succ c ih =>
    by_cases ha : a < n
    · rw [range'_succ, countP_cons, h a ha, ih, max_eq_right ha.le, max_eq_right ha,
        Nat.add_right_comm, Nat.add_assoc]
      simp
    · rw [max_eq_left (Nat.not_lt.mp ha), Nat.add_sub_cancel_left]

/-- What a chunk adds. -/
theorem occurrences_append (inp chunk g : List Int32) (token : Int32) :
    occurrences (inp ++ chunk) g token = occurrences inp g token +
      (List.range' (max inp.length g.length)
        ((inp ++ chunk).length - max inp.length g.length)).countP
        fun i => g ++ [token] <:+ (inp ++ chunk).take (i + 1) := by
  have hold : occurrences inp g token = (List.range inp.length).countP
      fun i => g ++ [token] <:+ (inp ++ chunk).take (i + 1) := by
    refine countP_congr fun i hi => ?_
    rw [take_append_of_le_length (mem_range.mp hi)]
  rw [hold, occurrences, length_append, range_eq_range', ← range'_append_1, countP_append,
    ← range_eq_range', Nat.zero_add, countP_range'_max (n := g.length)]
  refine fun i hi => decide_eq_false fun h => ?_
  have := h.length_le
  simp at this
  omega

end Windows

/-- What a call of `common_ngram_cache_update` adds. -/
theorem times_update {inp chunk g : List Int32} {token : Int32} {ngramMin ngramMax : Nat}
    (hmax : ngramMax ≤ 4) (h1 : ngramMin ≤ g.length) (h2 : g.length ≤ ngramMax)
    (hinp : tokenNull ∉ inp ++ chunk) (hg : tokenNull ∉ g) {cache : Cache}
    (h : times cache (common_ngram g) token = occurrences inp g token) :
    times (update ngramMin ngramMax cache (inp ++ chunk) chunk.length) (common_ngram g) token =
      occurrences (inp ++ chunk) g token := by
  have hlen := h2.trans hmax
  have hcount := fun n hn => @count_windows (inp ++ chunk) g token hinp hg hlen chunk.length n hn
  have hsizes : ∀ sizes : List Nat, (∀ n ∈ sizes, n ≤ 4) → ∀ cache,
      times (sizes.foldl (fun c n => (windows (inp ++ chunk) chunk.length n).foldl count c) cache)
        (common_ngram g) token = times cache (common_ngram g) token + sizes.count g.length *
          (windows (inp ++ chunk) chunk.length g.length).count (common_ngram g, token) := by
    intro sizes hs
    induction sizes with
    | nil => simp
    | cons n sizes ih =>
      obtain ⟨hn, hs⟩ := forall_mem_cons.mp hs
      intro cache
      rw [foldl_cons, ih hs, times_foldl, hcount n hn, hcount _ hlen, List.count_cons]
      by_cases h : n = g.length <;> simp [h, Nat.add_mul, Nat.add_assoc, Nat.add_comm]
  have hone : (List.range' ngramMin (ngramMax + 1 - ngramMin)).count g.length = 1 :=
    count_eq_one_of_mem nodup_range' (mem_range'_1.mpr (by omega))
  rw [update, hsizes _ (fun n hn => by have := mem_range'_1.mp hn; omega), hone, hcount _ hlen,
    if_pos rfl, h, occurrences_append, length_append, Nat.add_sub_cancel, Nat.one_mul]

/-- After any chunks the counts are those of the whole list, and a merge adds them up. -/
theorem counts_exact {ngramMin ngramMax : Nat} (hmax : ngramMax ≤ 4) (chunks : List (List Int32))
    (hnull : tokenNull ∉ chunks.flatten) {g : List Int32} (hg : tokenNull ∉ g)
    (h1 : ngramMin ≤ g.length) (h2 : g.length ≤ ngramMax) (token : Int32) (a b : Cache) :
    times (chunks.foldl (feed ngramMin ngramMax) (∅, [])).1 (common_ngram g) token =
      occurrences chunks.flatten g token ∧
    times (merge a b) = (fun ngram t => times a ngram t + times b ngram t) ∧
    times (merge a b) = times (merge b a) := by
  refine ⟨?_, funext₂ fun k t => times_merge a b k t, funext₂ fun k t => ?_⟩
  · have h : ∀ (s : Cache × List Int32), tokenNull ∉ s.2 ++ chunks.flatten →
        times s.1 (common_ngram g) token = occurrences s.2 g token →
        times (chunks.foldl (feed ngramMin ngramMax) s).1 (common_ngram g) token =
          occurrences (s.2 ++ chunks.flatten) g token := by
      clear hnull
      induction chunks with
      | nil => exact fun s _ h => by simpa using h
      | cons chunk chunks ih =>
        intro s hn h
        rw [flatten_cons, ← append_assoc] at hn ⊢
        exact ih (feed ngramMin ngramMax s chunk) hn
          (times_update hmax h1 h2 (fun hm => hn (mem_append_left _ hm)) hg h)
    exact h (∅, []) hnull rfl
  · rw [times_merge, times_merge, Nat.add_comm]

theorem counts_exact_chunks :
    times ([[1, 2], [1], [2, 1]].foldl (feed 1 2) (∅, [])).1 (common_ngram [1, 2]) 1 = 2 :=
  (counts_exact (by decide) [[1, 2], [1], [2, 1]] (by decide) (by decide) (by decide) (by decide)
    1 ∅ ∅).1

/-- The fifth token of an n-gram is not stored. -/
theorem count_five :
    times ([[1, 2, 3, 4, 5, 6]].foldl (feed 5 5) (∅, [])).1 (common_ngram [1, 2, 3, 4, 9]) 6 ≠
      occurrences [1, 2, 3, 4, 5, 6] [1, 2, 3, 4, 9] 6 := by decide +kernel

end BeeLlama.Ngram
