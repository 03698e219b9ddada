import BeeLlama.Batch.Split

/-!
# The rows of a ubatch

`Carries a u idxs`: row `r` of the ubatch has the token, the embedding, the positions, the ids and
the output flag of token `idxs[r]` of the batch. `ubatchAdd_carries`: `ubatch_add` makes such a
ubatch, if the arrays of the batch are long enough for what it reads (`FullBatch.Ok`).
-/

namespace BeeLlama

open List

section

variable {α : Type} {l : List α}

theorem readAll_some {is : List Nat} (h : ∀ i ∈ is, i < l.length) : ∃ r, readAll l is = some r := by
  induction is with
  | nil => exact ⟨[], rfl⟩
  | cons i is ih =>
    obtain ⟨r, hr⟩ := ih fun j hj => h j (mem_cons_of_mem i hj)
    have hi := getElem?_eq_getElem (h i mem_cons_self)
    exact ⟨_ :: r, by rw [readAll, hi, hr]⟩

theorem readAll_getElem {is : List Nat} {r : List α} (h : readAll l is = some r) :
    r.length = is.length ∧ ∀ {k i : Nat}, is[k]? = some i → r[k]? = l[i]? := by
  induction is generalizing r with
  | nil =>
    cases h
    exact ⟨rfl, fun hk => by simp at hk⟩
  | cons i is ih =>
    rw [readAll] at h
    split at h
    · rename_i x r' hx hr
      cases h
      obtain ⟨hlen, hget⟩ := ih hr
      refine ⟨by rw [length_cons, length_cons, hlen], fun {k j} hk => ?_⟩
      cases k with
      | zero =>
        rw [getElem?_cons_zero] at hk ⊢
        rw [← Option.some.inj hk, hx]
      | succ k =>
        rw [getElem?_cons_succ] at hk ⊢
        exact hget hk
    · cases h

theorem readAll_none {is : List Nat} {i : Nat} (h : i ∈ is) (hi : l.length ≤ i) :
    readAll l is = none := by
  cases e : readAll l is with
  | none => rfl
  | some r =>
    obtain ⟨k, hk⟩ := getElem?_of_mem h
    obtain ⟨hlen, hget⟩ := readAll_getElem e
    have hr := hget hk
    rw [getElem?_eq_none hi, getElem?_eq_none_iff, hlen] at hr
    rw [getElem?_eq_none hr] at hk
    cases hk

/-- The entry of a list of equally long blocks. -/
theorem getElem?_flatMap_blocks {β : Type} {n : Nat} {f : β → List α} {bs : List β}
    (hf : ∀ b ∈ bs, (f b).length = n) {k r : Nat} {b : β} (hb : bs[k]? = some b) (hr : r < n) :
    (bs.flatMap f)[k * n + r]? = (f b)[r]? := by
  induction bs generalizing k with
  | nil => simp at hb
  | cons c bs ih =>
    have hc := hf c mem_cons_self
    rw [flatMap_cons]
    cases k with
    | zero =>
      rw [getElem?_cons_zero] at hb
      cases hb
      rw [Nat.zero_mul, Nat.zero_add, getElem?_append_left (by omega)]
    | succ k =>
      rw [getElem?_cons_succ] at hb
      rw [getElem?_append_right (by rw [hc, Nat.succ_mul]; omega), hc,
        show (k + 1) * n + r - n = k * n + r by rw [Nat.succ_mul]; omega]
      exact ih (fun b hb => hf b (mem_cons_of_mem c hb)) hb

/-- The ids of a row in the ids of all rows. -/
theorem flatten_slice {ls : List (List α)} {r : Nat} {ids : List α} (h : ls[r]? = some ids) :
    (ls.flatten.drop ((ls.map List.length).take r).sum).take ids.length = ids := by
  induction ls generalizing r with
  | nil => simp at h
  | cons x ls ih =>
    cases r with
    | zero =>
      rw [getElem?_cons_zero] at h
      cases h
      simp
    | succ r =>
      rw [getElem?_cons_succ] at h
      rw [flatten_cons, map_cons, take_succ_cons, sum_cons, drop_length_add_append]
      exact ih h

end

/-- The arrays are long enough for what `ubatch_add` reads. -/
structure FullBatch.Ok {E : Type} (b : FullBatch E) (nEmbd nPosPerEmbd : Nat) : Prop where
  token : ∀ l ∈ b.token, l.length = b.nTokens
  embd : ∀ l ∈ b.embd, l.length = b.nTokens * nEmbd
  pos : b.nTokens * (if b.token.isSome then 1 else nPosPerEmbd) ≤ b.pos.length
  seqId : b.seqId.length = b.nTokens
  logits : b.logits.length = b.nTokens

/-- Row `r` of the ubatch is token `i` of the batch. -/
structure Row {E : Type} (a : BatchAllocr E) (u : LlamaUbatch E) (r i : Nat) : Prop where
  token : u.token.map (·[r]?) = a.batch.token.map (·[i]?)
  embd : ∀ e < a.nEmbd, u.embd.map (·[r * a.nEmbd + e]?) = a.batch.embd.map (·[i * a.nEmbd + e]?)
  pos : ∀ j < a.nPosPerEmbd, ∃ p, u.pos[j * u.nTokens + r]? = some p ∧
    a.batch.pos[(if a.batch.token.isSome then 0 else j * a.batch.nTokens) + i]? = some p
  seqId : a.batch.seqId[i]? = some (u.seqId r)
  output : ∃ x, u.output[r]? = some x ∧ a.batch.logits[i]? = some x

/-- The rows of the ubatch are the tokens `idxs` of the batch. -/
structure Carries {E : Type} (a : BatchAllocr E) (u : LlamaUbatch E) (idxs : List Nat) : Prop where
  nTokens : u.nTokens = idxs.length
  row : ∀ {r i : Nat}, idxs[r]? = some i → Row a u r i

namespace BatchAllocr

variable {E : Type} {a : BatchAllocr E} {idxs : List Nat}

theorem readOpt_some {α : Type} {l : Option (List α)} {is : List Nat}
    (h : ∀ x ∈ l, ∀ i ∈ is, i < x.length) : ∃ r, readOpt l is = some r := by
  cases l with
  | none => exact ⟨none, rfl⟩
  | some x =>
    obtain ⟨r, hr⟩ := readAll_some (h x rfl)
    exact ⟨some r, by rw [readOpt, hr]; rfl⟩

theorem readOpt_getElem {α : Type} {l r : Option (List α)} {is : List Nat}
    (h : readOpt l is = some r) {k i : Nat} (hk : is[k]? = some i) :
    r.map (·[k]?) = l.map (·[i]?) := by
  cases l with
  | none =>
    cases h
    rfl
  | some x =>
    obtain ⟨y, hy, rfl⟩ := Option.map_eq_some_iff.mp h
    exact congrArg some ((readAll_getElem hy).2 hk)

theorem posIdx_getElem {r i j : Nat} (hr : idxs[r]? = some i) (hj : j < a.nPosPerEmbd) :
    (a.posIdx idxs)[j * idxs.length + r]? =
      some ((if a.batch.token.isSome then 0 else j * a.batch.nTokens) + i) := by
  have hlt : r < idxs.length := (List.getElem?_eq_some_iff.mp hr).1
  unfold posIdx
  rw [getElem?_flatMap_blocks (fun _ _ => length_map _) (getElem?_range hj) hlt,
    getElem?_map, hr, Option.map_some]

theorem embdIdx_getElem {r i e : Nat} (hr : idxs[r]? = some i) (he : e < a.nEmbd) :
    (a.embdIdx idxs)[r * a.nEmbd + e]? = some (i * a.nEmbd + e) := by
  unfold embdIdx
  rw [getElem?_flatMap_blocks (fun _ _ => by simp) hr he, getElem?_map,
    getElem?_range he, Option.map_some]

/-- `ubatch_add` reads inside the arrays. -/
theorem reads_lt (hb : a.batch.Ok a.nEmbd a.nPosPerEmbd) (hi : ∀ i ∈ idxs, i < a.batch.nTokens) :
    (∀ x ∈ a.batch.embd, ∀ k ∈ a.embdIdx idxs, k < x.length) ∧
      ∀ k ∈ a.posIdx idxs, k < a.batch.pos.length := by
  constructor
  · intro x hx k hk
    obtain ⟨i, him, hk⟩ := mem_flatMap.mp hk
    obtain ⟨e, he, rfl⟩ := mem_map.mp hk
    rw [hb.embd x hx]
    calc i * a.nEmbd + e < i * a.nEmbd + a.nEmbd := by have := mem_range.mp he; omega
      _ = (i + 1) * a.nEmbd := (Nat.succ_mul i a.nEmbd).symm
      _ ≤ a.batch.nTokens * a.nEmbd := Nat.mul_le_mul_right _ (hi i him)
  · intro k hk
    obtain ⟨j, hj, hk⟩ := mem_flatMap.mp hk
    obtain ⟨i, him, rfl⟩ := mem_map.mp hk
    refine lt_of_lt_of_le ?_ hb.pos
    have hin := hi i him
    split
    · omega
    · calc j * a.batch.nTokens + i < j * a.batch.nTokens + a.batch.nTokens := by omega
        _ = (j + 1) * a.batch.nTokens := (Nat.succ_mul j a.batch.nTokens).symm
        _ ≤ a.nPosPerEmbd * a.batch.nTokens := Nat.mul_le_mul_right _ (mem_range.mp hj)
        _ = a.batch.nTokens * a.nPosPerEmbd := Nat.mul_comm ..

/-- `ubatch_add` makes a ubatch of the tokens and lists their outputs. -/
theorem ubatchAdd_carries (hb : a.batch.Ok a.nEmbd a.nPosPerEmbd)
    (hi : ∀ i ∈ idxs, i < a.batch.nTokens) (nSeqs : Nat) (equalSeqs : Bool) :
    ∃ u, a.ubatchAdd idxs nSeqs equalSeqs =
      .ok (some u, { a with outIds := a.outIds ++ idxs.filter a.isOutput }) ∧ Carries a u idxs := by
  obtain ⟨hembd, hpos⟩ := reads_lt hb hi
  obtain ⟨token, et⟩ := readOpt_some (l := a.batch.token) fun x hx i him =>
    (hi i him).trans_eq (hb.token x hx).symm
  obtain ⟨embd, ee⟩ := readOpt_some hembd
  obtain ⟨pos, ep⟩ := readAll_some hpos
  obtain ⟨seqId, es⟩ := readAll_some (l := a.batch.seqId) fun i him =>
    (hi i him).trans_eq hb.seqId.symm
  obtain ⟨output, eo⟩ := readAll_some (l := a.batch.logits) fun i him =>
    (hi i him).trans_eq hb.logits.symm
  unfold ubatchAdd
  rw [et, ee, ep, es, eo]
  refine ⟨_, rfl, rfl, fun {r i} hr => ?_⟩
  have hin := hi i (mem_of_getElem? hr)
  refine ⟨readOpt_getElem et hr, fun e he => readOpt_getElem ee (embdIdx_getElem hr he),
    fun j hj => ?_, ?_, ?_⟩
  · have hk := posIdx_getElem (a := a) hr hj
    have hlt := hpos _ (mem_of_getElem? hk)
    exact ⟨_, ((readAll_getElem ep).2 hk).trans (getElem?_eq_getElem hlt), getElem?_eq_getElem hlt⟩
  · have hids := (readAll_getElem es).2 hr
    have hlt := hin.trans_eq hb.seqId.symm
    rw [getElem?_eq_getElem hlt] at hids ⊢
    have hlen : (seqId.map List.length).getD r 0 = (a.batch.seqId[i]).length := by
      rw [getD_eq_getElem?_getD, getElem?_map, hids]
      rfl
    unfold LlamaUbatch.seqId
    rw [hlen, flatten_slice hids]
  · have hout := (readAll_getElem eo).2 hr
    rw [getElem?_eq_getElem (hin.trans_eq hb.logits.symm)] at hout ⊢
    exact ⟨_, hout, rfl⟩

end BatchAllocr
end BeeLlama
