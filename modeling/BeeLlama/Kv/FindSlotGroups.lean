import BeeLlama.Kv.SealedFlags

/-!
# The groups of a structured slot (`llama_kv_cache::find_slot`)

A structured search puts a token only into a group of its own exact set of sequences, and leaves
the groups that are sealed and not full. A group that it begins without a stage slot (`Exempt`) is
completed by the next tokens of the ubatch.

* `PlaceInv`: what the working arrays say after some of the tokens are placed.
* `PlaceInv.place`, `PlaceInv.placeAll`: a token keeps it, and so does the loop.
* `searchStructured_place`: it holds at the end, whatever the owners of the stage slots are.
* `reach_findSlot_groups`: what `find_slot` and `apply_ubatch` do to the groups of a cache that was
  reached by its calls and by restores.
-/

namespace BeeLlama.KvCache

open KvCells List Function SearchState

/-- Token `k` of `n` begins a group without its stage slot: the group is new when the token gets
`idx`, and `fills_here` holds. -/
structure Exempt (cfg : CacheCfg) (c : KvCells) (oneSeq : Bool) (n : Nat) (idxs : List Nat)
    (k idx : Nat) : Prop where
  cell : idxs[k]? = some idx
  empty : groupUsed cfg c (idx / cfg.allocationGroupSize) = 0
  first : ∀ i ∈ idxs.take k, i / cfg.allocationGroupSize ≠ idx / cfg.allocationGroupSize
  fills : SearchState.fillsHere cfg oneSeq (n - k) idx = true

/-- The group is partly filled, and sealed. -/
structure Shut (cfg : CacheCfg) (c : KvCells) (sealed : List Bool) (g : Nat) : Prop where
  pos : 0 < g
  used_pos : 0 < groupUsed cfg c g
  used_lt : groupUsed cfg c g < cfg.allocationGroupSize
  sealed_eq : sealed.getD g false = true

section Place

variable {cfg : CacheCfg} {c : KvCells} {oneSeq : Bool} {sealed : List Bool}

/-- What holds after the tokens `ds`, when `ts` are left. `sealed` are the flags before. -/
structure PlaceInv (cfg : CacheCfg) (c : KvCells) (oneSeq : Bool) (sealed : List Bool)
    (ds ts : List UToken) (a : SearchState) : Prop where
  idxs : a.idxs.length = ds.length
  length : a.sealed.length = cfg.nGroups
  used : Counted cfg c a
  reserved : ∀ i, a.reserved i = true ↔ i ∈ a.idxs
  one : oneSeq = true → ∃ s, ∀ t ∈ ts, t.seqIds = [s]
  claimed : ∀ g r, a.groupClaim g = some r → r ∈ ds
  /-- The cell of a token is in a group of its sequences. -/
  claim : ∀ (k : Nat) t idx, ds[k]? = some t → a.idxs[k]? = some idx →
    SearchState.compatible cfg c t (idx / cfg.allocationGroupSize) = true ∧
      ∃ r, a.groupClaim (idx / cfg.allocationGroupSize) = some r ∧ r.sameSeqSet t = true
  /-- A sealed group that is not full stays as it is. -/
  shut : ∀ g, Shut cfg c sealed g → (∀ i ∈ a.idxs, i / cfg.allocationGroupSize ≠ g) ∧
    a.groupUsed g = groupUsed cfg c g ∧ a.sealed.getD g false = true
  /-- A group that was empty is sealed when it is full. -/
  fresh : ∀ g, 1 ≤ g → g < cfg.nGroups → groupUsed cfg c g = 0 →
    a.groupUsed g < cfg.allocationGroupSize → a.sealed.getD g false = false
  /-- A group without a stage slot is full, or the next tokens fill it. -/
  exempt : ∀ k idx, Exempt cfg c oneSeq (ds.length + ts.length) a.idxs k idx →
    a.groupUsed (idx / cfg.allocationGroupSize) = cfg.allocationGroupSize ∨
      0 < a.groupUsed (idx / cfg.allocationGroupSize) ∧
        Filling cfg c oneSeq ts a (idx / cfg.allocationGroupSize)

variable {ds ts : List UToken} {t : UToken} {a a' : SearchState}

theorem sameSeqSet_refl (t : UToken) : t.sameSeqSet t = true := by
  unfold UToken.sameSeqSet
  rw [Bool.and_eq_true, beq_iff_eq, all_eq_true]
  exact ⟨rfl, fun s hs => contains_iff_mem.mpr hs⟩

theorem take_idxs (left idx : Nat) : (a.take cfg oneSeq left t idx).idxs = a.idxs ++ [idx] := rfl

/-- The item at `k` of a list with one more item. -/
theorem getElem?_snoc {α : Type} {l : List α} {x y : α} {k : Nat} (e : (l ++ [x])[k]? = some y) :
    l[k]? = some y ∨ k = l.length ∧ y = x := by
  rcases Nat.lt_trichotomy k l.length with hk | hk | hk
  · rw [getElem?_append_left hk] at e
    exact .inl e
  · rw [hk, getElem?_append_right (Nat.le_refl _), Nat.sub_self] at e
    exact .inr ⟨hk, (Option.some.inj e).symm⟩
  · rw [getElem?_eq_none (by rw [length_append, length_singleton]; omega)] at e
    cases e

/-- The claim of a group with a token stays, and a new group is claimed by its first token. -/
theorem PlaceInv.place_claim (h : PlaceInv cfg c oneSeq sealed ds (t :: ts) a) {idx left : Nat}
    (hu : a.usable cfg c oneSeq left t idx = true) (k : Nat) (r : UToken) (j : Nat)
    (hr : (ds ++ [t])[k]? = some r) (hj : (a.idxs ++ [idx])[k]? = some j) :
    SearchState.compatible cfg c r (j / cfg.allocationGroupSize) = true ∧
      ∃ q, (a.take cfg oneSeq left t idx).groupClaim (j / cfg.allocationGroupSize) = some q ∧
        q.sameSeqSet r = true := by
  obtain ⟨-, -, hclaim, hcompat, -⟩ := usable_iff.mp hu
  have hnew : (a.take cfg oneSeq left t idx).groupClaim =
      Function.update a.groupClaim (idx / cfg.allocationGroupSize)
        (some ((a.groupClaim (idx / cfg.allocationGroupSize)).getD t)) := rfl
  rw [hnew]
  rcases getElem?_snoc hj with hj | ⟨hk, rfl⟩
  · have hr : ds[k]? = some r := by
      rcases getElem?_snoc hr with hr | ⟨hk, -⟩
      · exact hr
      · have := (List.getElem?_eq_some_iff.mp hj).1
        have := h.idxs
        omega
    obtain ⟨hc, q, hq, hqr⟩ := h.claim k r j hr hj
    refine ⟨hc, q, ?_, hqr⟩
    rw [update_apply]
    split
    · next hg => rw [← hg, hq, Option.getD_some]
    · exact hq
  · have hr : r = t := by
      rcases getElem?_snoc hr with hr | ⟨-, hr⟩
      · have := (List.getElem?_eq_some_iff.mp hr).1
        have := h.idxs
        omega
      · exact hr
    rw [hr]
    refine ⟨hcompat, _, update_self _ _ _, ?_⟩
    cases hq : a.groupClaim (j / cfg.allocationGroupSize) with
    | none => exact sameSeqSet_refl t
    | some q => exact hclaim q hq

/-- A group that a token begins without a stage slot is filled from then on. -/
theorem PlaceInv.place_exempt (hG : Grouped cfg c)
    (h : PlaceInv cfg c oneSeq sealed ds (t :: ts) a) {idx : Nat} (hlt : idx < c.size)
    (hu : a.usable cfg c oneSeq (ts.length + 1) t idx = true)
    (e : a.place cfg c oneSeq (ts.length + 1) t =
      some (a.take cfg oneSeq (ts.length + 1) t idx)) {k j : Nat}
    (hx : Exempt cfg c oneSeq (ds.length + (t :: ts).length) (a.idxs ++ [idx]) k j) :
    (a.take cfg oneSeq (ts.length + 1) t idx).groupUsed (j / cfg.allocationGroupSize) =
        cfg.allocationGroupSize ∨
      0 < (a.take cfg oneSeq (ts.length + 1) t idx).groupUsed (j / cfg.allocationGroupSize) ∧
        Filling cfg c oneSeq ts (a.take cfg oneSeq (ts.length + 1) t idx)
          (j / cfg.allocationGroupSize) := by
  have hroom := Counted.used_lt hG h.used hu
  have hfills := hx.fills
  unfold fillsHere at hfills
  simp only [Bool.and_eq_true, decide_eq_true_eq] at hfills
  obtain ⟨⟨⟨-, hpos⟩, -⟩, -⟩ := hfills
  rcases getElem?_snoc hx.cell with hj | ⟨hk, rfl⟩
  · have hkl := (List.getElem?_eq_some_iff.mp hj).1
    have hold : Exempt cfg c oneSeq (ds.length + (t :: ts).length) a.idxs k j :=
      ⟨hj, hx.empty, by
        have := hx.first
        rwa [take_append_of_le_length (Nat.le_of_lt hkl)] at this, hx.fills⟩
    rcases h.exempt k j hold with hfull | ⟨hup, hf⟩
    · -- A full group has no usable cell.
      left
      rw [take_used, if_neg, hfull]
      intro hgj
      rw [hgj] at hfull
      omega
    · have hl : Live cfg a.groupUsed a.sealed (j / cfg.allocationGroupSize) :=
        ⟨hpos, hf.lt, hup, hf.used, h.fresh _ hpos hf.lt hx.empty hf.used⟩
      obtain ⟨hidx, hgi⟩ := hf.idx_eq hG hl e
      rw [take_used, if_pos hgi.symm]
      rw [hgi]
      by_cases hn : a.groupUsed (j / cfg.allocationGroupSize) + 1 < cfg.allocationGroupSize
      · refine .inr ⟨Nat.succ_pos _, ?_⟩
        rw [hidx]
        exact hf.step hG hn _
      · left
        have := hf.used
        omega
  · -- The group of this token is new.
    have hzero : a.groupUsed (j / cfg.allocationGroupSize) = 0 := by
      have hempty := hx.empty
      unfold groupUsed at hempty
      rw [h.used, countP_eq_zero]
      rw [countP_eq_zero] at hempty
      intro i hi
      rw [Bool.or_eq_true, not_or]
      refine ⟨hempty i hi, fun hr => ?_⟩
      have hfirst := hx.first
      rw [hk, take_left' rfl] at hfirst
      exact hfirst i ((h.reserved i).mp hr) ((mem_groupCells (by omega)).mp hi)
    have hf := hx.fills
    rw [hk, h.idxs, Nat.add_sub_cancel_left] at hf
    refine .inr ⟨?_, Counted.starts hG h.used hu h.one (hG.group_lt hlt) hzero hf⟩
    rw [take_used, if_pos rfl]
    exact Nat.succ_pos _

/-- The step of the search. -/
theorem PlaceInv.place (hG : Grouped cfg c) (h : PlaceInv cfg c oneSeq sealed ds (t :: ts) a)
    (e : a.place cfg c oneSeq (ts.length + 1) t = some a') :
    PlaceInv cfg c oneSeq sealed (ds ++ [t]) ts a' := by
  obtain ⟨idx, hm, hu, rfl⟩ := place_eq_some e
  have hlt := cellsFrom_lt hm
  have hgl := h.length ▸ hG.group_lt hlt
  obtain ⟨-, -, -, -, hsealed, -⟩ := usable_iff.mp hu
  have hn : (ds ++ [t]).length + ts.length = ds.length + (t :: ts).length := by
    rw [length_append, length_singleton, length_cons]
    omega
  refine ⟨?_, ?_, Counted.take hG h.used hu, fun i => ?_, fun ho => ?_, fun g r hr => ?_,
    fun k r j hr hj => ?_, fun g hs => ?_, fun g h1 hlt' h0 hroom => ?_, fun k j hx => ?_⟩
  · rw [take_idxs, length_append, length_append, h.idxs]
    rfl
  · exact (FlagZero.take a _ idx t).1.trans h.length
  · show Function.update a.reserved idx true i = true ↔ i ∈ a.idxs ++ [idx]
    rw [update_apply, mem_append, mem_singleton, ← h.reserved]
    split
    · next hi => exact ⟨fun _ => .inr hi, fun _ => rfl⟩
    · next hi => exact ⟨.inl, fun h => h.resolve_right hi⟩
  · obtain ⟨s, hs⟩ := h.one ho
    exact ⟨s, fun r hr => hs r (mem_cons_of_mem t hr)⟩
  · have hr : Function.update a.groupClaim (idx / cfg.allocationGroupSize)
        (some ((a.groupClaim (idx / cfg.allocationGroupSize)).getD t)) g = some r := hr
    rw [mem_append, mem_singleton]
    rw [update_apply] at hr
    split at hr
    · cases hq : a.groupClaim (idx / cfg.allocationGroupSize) with
      | none =>
        rw [hq] at hr
        exact .inr (Option.some.inj hr).symm
      | some q =>
        rw [hq] at hr
        exact .inl (Option.some.inj hr ▸ h.claimed _ q hq)
    · exact .inl (h.claimed g r hr)
  · exact h.place_claim hu k r j hr hj
  · obtain ⟨hnot, hused, hflag⟩ := h.shut g hs
    -- The token did not go to the group.
    have hne : idx / cfg.allocationGroupSize ≠ g := by
      intro hg
      rw [hg] at hsealed
      rw [hsealed hs.pos (hused ▸ hs.used_pos) (hused ▸ hs.used_lt)] at hflag
      cases hflag
    refine ⟨fun i hi => ?_, ?_, ?_⟩
    · rcases mem_append.mp hi with hi | hi
      · exact hnot i hi
      · rw [mem_singleton.mp hi]
        exact hne
    · rw [take_used, if_neg hne.symm, hused]
    · rw [take_sealed hgl, if_neg fun hc => hne hc.1.symm, hflag]
  · rw [take_used] at hroom
    rw [take_sealed hgl]
    by_cases hg : g = idx / cfg.allocationGroupSize
    · rw [if_pos hg, ← hg] at hroom
      rw [if_neg fun hc => by omega]
      exact h.fresh g h1 hlt' h0 (by omega)
    · rw [if_neg hg] at hroom
      rw [if_neg fun hc => hg hc.1]
      exact h.fresh g h1 hlt' h0 hroom
  · rw [hn] at hx
    exact h.place_exempt hG hlt hu e hx

/-- The loop over the tokens. -/
theorem PlaceInv.placeAll (hG : Grouped cfg c) :
    ∀ {ts ds : List UToken} {a : SearchState}, PlaceInv cfg c oneSeq sealed ds ts a →
      a.placeAll cfg c oneSeq ts = (a', .ok true) →
        PlaceInv cfg c oneSeq sealed (ds ++ ts) [] a' := by
  intro ts
  induction ts with
  | nil =>
    intro ds a h e
    cases e
    rwa [append_nil]
  | cons t ts ih =>
    intro ds a h e
    unfold SearchState.placeAll at e
    split at e
    · cases e
    split at e
    · cases e
    split at e
    · cases e
    · next a1 e1 =>
      have := ih (h.place hG e1) e
      rwa [append_assoc, singleton_append] at this

end Place

section Search

variable {st : KvCache} {u : Ubatch}

/-- The search from the seed on. The owners of the stage slots are not needed. -/
theorem searchStructured_place (hG : Grouped st.cfg (st.cells 0)) (hf : st.FlagsOk)
    {a : SearchState} (e : st.searchStructured u = (a, .ok true)) :
    PlaceInv st.cfg (st.cells 0) u.oneSeq st.allocationGroupSealed u.tokens [] a := by
  unfold searchStructured at e
  rw [seed_searchStart] at e
  split at e
  · cases e
  next a0 e0 =>
  obtain ⟨hstep, hempty⟩ := seedGroups_step (nodup_range.sublist (tail_sublist _))
    (fun g hg => by
      rw [searchStart_length]
      exact (mem_range_tail.mp hg).2) e0
  have hidxs : a0.idxs = [] := hstep.idxs
  have h₀ : PlaceInv st.cfg (st.cells 0) u.oneSeq st.allocationGroupSealed [] u.tokens a0 := by
    refine ⟨by rw [hidxs]; rfl, hstep.length.trans (searchStart_length st), fun g => ?_,
      fun i => ?_, oneSeq_spec, fun g r hr => ?_, fun k t idx ht => ?_,
      fun g hs => ⟨fun i hi => ?_, ?_, ?_⟩,
      fun g h1 hlt h0 _ => ?_, fun k idx hx => ?_⟩
    · rw [hstep.used, hstep.reserved]
      exact countP_congr fun i _ => by rw [searchStart, Bool.or_false]
    · rw [hstep.reserved, hidxs]
      simp [searchStart]
    · rw [hstep.claim] at hr
      cases hr
    · simp at ht
    · rw [hidxs] at hi
      cases hi
    · rw [hstep.used]
      rfl
    · rw [hstep.sealed_of_part g hs.used_pos hs.used_lt, searchStart_flag hf.length]
      exact hs.sealed_eq
    · exact hempty g (mem_range_tail.mpr ⟨h1, hlt⟩) h0
    · have := hx.cell
      rw [hidxs] at this
      cases this
  exact h₀.placeAll hG e

/-- Tokens of one group have the same set of sequences. -/
theorem sameSeqSet_toFinset {r t : UToken} (hr : r.seqIds.Nodup) (h : r.sameSeqSet t = true) :
    r.seqIds.toFinset = t.seqIds.toFinset := by
  unfold UToken.sameSeqSet at h
  rw [Bool.and_eq_true, beq_iff_eq, all_eq_true] at h
  refine Finset.eq_of_subset_of_card_le (fun s hs => ?_) ?_
  · rw [mem_toFinset] at hs ⊢
    exact contains_iff_mem.mp (h.2 s hs)
  · rw [toFinset_card_of_nodup hr, h.1]
    exact toFinset_card_le _

/-- An occupied cell of a compatible group has the sequences of the token. -/
theorem compatible_seq {cfg : CacheCfg} {c : KvCells} {t : UToken} {g i : Nat}
    (hnd : t.seqIds.Nodup) (h : SearchState.compatible cfg c t g = true)
    (hi : i ∈ groupCells cfg g) (ho : c.isEmpty i = false) :
    c.seq i = t.seqIds.toFinset := by
  have hc := all_eq_true.mp h i hi
  rw [ho, Bool.false_or, Bool.and_eq_true, beq_iff_eq, all_eq_true] at hc
  obtain ⟨hcount, hall⟩ := hc
  refine (Finset.eq_of_subset_of_card_le (fun s hs => ?_) ?_).symm
  · exact of_decide_eq_true (hall s (mem_toFinset.mp hs))
  · rw [toFinset_card_of_nodup hnd]
    exact hcount.le

end Search

/-! ## The slot and the ubatch -/

section Slot

variable {st st₁ st' : KvCache} {u : Ubatch} {i : SlotInfo} {a : SearchState}

/-- After the ubatch the cells of a group that it touched have one set of sequences. -/
theorem Decoded.one_set (h : Decoded st st' u i a) (hu : u.Ok st.cfg)
    (hp : PlaceInv st.cfg (st.cells 0) u.oneSeq st.allocationGroupSealed u.tokens [] a)
    (hg : 0 < st.cfg.allocationGroupSize) {j : Nat} (hj : j ∈ a.idxs) :
    ∃ q : Finset Nat, ∀ x ∈ groupCells st.cfg (j / st.cfg.allocationGroupSize),
      (st'.cells 0).isEmpty x = false → (st'.cells 0).seq x = q := by
  -- The token of a cell, and the claim of its group.
  have key : ∀ p ∈ i.placements u,
      compatible st.cfg (st.cells 0) p.token (p.cell / st.cfg.allocationGroupSize) =
        true ∧ ∃ r, a.groupClaim (p.cell / st.cfg.allocationGroupSize) = some r ∧
          r.sameSeqSet p.token = true := by
    intro p hm
    obtain ⟨hc, ht⟩ := SlotInfo.mem_placements hm
    refine hp.claim p.row p.token p.cell ht ?_
    rw [h.slot] at hc
    simp only [SlotInfo.cells, zip_cons_cons, zip_nil_left, flatMap_cons,
      flatMap_nil, append_nil, getElem?_map, Option.map_eq_some_iff] at hc
    obtain ⟨x, hx, hxe⟩ := hc
    rw [hx, (Prod.mk.inj hxe).2]
  have hnd : ∀ p ∈ i.placements u, p.token.seqIds.Nodup := fun p hm =>
    hu.nodup _ (mem_of_getElem? (SlotInfo.mem_placements hm).2)
  obtain ⟨-, p, hm, rfl⟩ := h.covers j hj
  obtain ⟨hcompat, r, hr, hrp⟩ := key p hm
  refine ⟨p.token.seqIds.toFinset, fun x hx ho => ?_⟩
  by_cases hxi : x ∈ a.idxs
  · obtain ⟨-, q, hq, rfl⟩ := h.covers x hxi
    obtain ⟨-, r', hr', hrq⟩ := key q hq
    rw [(mem_groupCells hg).mp hx, hr] at hr'
    cases hr'
    have hnr := hu.nodup r (hp.claimed _ r hr)
    rw [(h.placed q hq).2.2.2, ← sameSeqSet_toFinset hnr hrq, sameSeqSet_toFinset hnr hrp]
  · have hold := h.old x hxi
    rw [← cell_seq, hold, cell_seq]
    refine compatible_seq (hnd p hm) hcompat hx ?_
    unfold KvCells.isEmpty at ho ⊢
    rwa [← cell_pos, hold, cell_pos] at ho

/-- What a slot of the cells `idxs` for the ubatch says of the cells and of their groups. `st₁` is
the cache after the search. -/
structure SlotGroups (st st₁ : KvCache) (u : Ubatch) (idxs : List Nat) : Prop where
  length : idxs.length = u.tokens.length
  nodup : idxs.Nodup
  lt : ∀ j ∈ idxs, j < st.cfg.kvSize
  empty : ∀ j ∈ idxs, (st.cells 0).isEmpty j = true
  /-- No cell is in a group that is partly filled and sealed. -/
  unsealed : ∀ j ∈ idxs, ∀ g, g = j / st.cfg.allocationGroupSize →
    ¬ (0 < groupUsed st.cfg (st.cells 0) g ∧
      groupUsed st.cfg (st.cells 0) g < st.cfg.allocationGroupSize ∧
      st.allocationGroupSealed.getD g false = true)
  /-- After the ubatch the cells of a group that it touched have one set of sequences. -/
  oneSet : ∀ st', st₁.applyUbatch ⟨0, 0, [0], [idxs]⟩ u = (st', .ok ()) → ∀ j ∈ idxs,
    ∃ q : Finset Nat, ∀ x ∈ groupCells st.cfg (j / st.cfg.allocationGroupSize),
      (st'.cells 0).isEmpty x = false → (st'.cells 0).seq x = q
  /-- A group that was begun without its stage slot is full after the ubatch. -/
  full : ∀ st', st₁.applyUbatch ⟨0, 0, [0], [idxs]⟩ u = (st', .ok ()) →
    ∀ k idx, Exempt st.cfg (st.cells 0) u.oneSeq u.tokens.length idxs k idx →
      groupUsed st.cfg (st'.cells 0) (idx / st.cfg.allocationGroupSize) = st.cfg.allocationGroupSize

/-- In every run of a structured cache a slot keeps to the groups. -/
theorem reach_findSlot_groups (h : groupSys.Reach (fun st op => op.KeepsUsed st) st)
    (hu : u.Ok st.cfg) (e : st.findSlot u = (st₁, .ok (some i))) :
    ∃ idxs, i = ⟨0, 0, [0], [idxs]⟩ ∧ SlotGroups st st₁ u idxs := by
  have hi := h.inv groupInv_inductive
  have hG := hi.grouped
  have hg := hG.group
  obtain ⟨a, hsearch, rfl⟩ : ∃ a, st.searchStructured u = (a, .ok true) ∧
      i = ⟨0, 0, [0], [a.idxs]⟩ := by
    have e := e
    unfold KvCache.findSlot at e
    rw [if_pos hi.structured] at e
    unfold findSlotStructured at e
    dsimp only at e
    split at e
    · cases e
    · cases e
    · next hr =>
      exact ⟨_, Prod.ext rfl hr, (Option.some.inj (Except.ok.inj (Prod.mk.inj e).2)).symm⟩
  have hp := searchStructured_place hG hi.flags hsearch
  obtain ⟨hfound, hlen⟩ := searchStructured_found hsearch
  have hsize := (hi.inv.cells 0).size
  refine ⟨a.idxs, rfl, hlen, hfound.nodup, fun j hj => hsize ▸ hfound.lt j hj, hfound.empty,
    ?_, fun st' e' j hj => ?_, fun st' e' k idx hx => ?_⟩
  · rintro j hj g rfl ⟨hpos, hlt, hsealed⟩
    have h0 : 0 < j / st.cfg.allocationGroupSize := by
      by_contra h0
      rw [Nat.eq_zero_of_not_pos h0, hi.flags.zero] at hsealed
      cases hsealed
    exact (hp.shut _ ⟨h0, hpos, hlt, hsealed⟩).1 j hj rfl
  · obtain ⟨a', hd⟩ := decode_spec hi.inv hi.structured hu e e'
    obtain rfl : a' = a := congrArg Prod.fst (hd.search.symm.trans hsearch)
    exact hd.one_set hu hp (by omega) hj
  · obtain ⟨a', hd⟩ := decode_spec hi.inv hi.structured hu e e'
    obtain rfl : a' = a := congrArg Prod.fst (hd.search.symm.trans hsearch)
    rw [hd.groupUsed hp.used hp.reserved]
    rw [← Nat.add_zero u.tokens.length] at hx
    refine (hp.exempt k idx hx).resolve_right fun hf => ?_
    have hleft := hf.2.left
    have hused := hf.2.used
    rw [length_nil] at hleft
    omega

end Slot

/-- The first five tokens of a cache of nine groups: group `1` is begun without its stage slot. -/
theorem nineGroups_findSlot_groups :
    SlotGroups nineGroups (nineGroups.findSlot (prompt 0 5)).1 (prompt 0 5) [0, 1, 2, 3, 4] ∧
      Exempt nineGroups.cfg (nineGroups.cells 0) (prompt 0 5).oneSeq 5 [0, 1, 2, 3, 4] 2 2 := by
  have hr : groupSys.Reach (fun st op => op.KeepsUsed st) nineGroups :=
    .init ⟨⟨nineGroups.cfg, none, ⟨by decide, .inl rfl, fun _ => by decide⟩,
      fun _ h => absurd h (by simp), rfl⟩, rfl, by decide⟩
  have e : nineGroups.findSlot (prompt 0 5) = ((nineGroups.findSlot (prompt 0 5)).1,
      .ok (some ⟨0, 0, [0], [[0, 1, 2, 3, 4]]⟩)) := COut.eq_of_snd (by decide +kernel)
  obtain ⟨idxs, hi, h⟩ := reach_findSlot_groups hr (prompt_ok _ rfl (by decide) 5) e
  obtain rfl : [0, 1, 2, 3, 4] = idxs := singleton_inj.mp (congrArg SlotInfo.idxs hi)
  exact ⟨h, rfl, by decide +kernel, by decide, by decide +kernel⟩

end BeeLlama.KvCache
