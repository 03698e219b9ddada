import BeeLlama.Kv.CellsRun
import BeeLlama.Kv.FindSlotInv

/-!
# The trial of `prepare`

`prepare` applies each ubatch and then restores what it saved. `Near D X st st'` says how far the
restored cache is from the one before: they agree but for the cells in `D` and the heads of the
streams in `X`. A restored ubatch takes its own cells and streams out of `D` and `X`
(`Near.restore`), so that with all of them restored nothing is left (`prepare_near`).

The saved state has the named cells only, without their shifts, and the head of stream `strm[k]`
is restored from entry `k`. `Harmless` is the condition on one step of the trial under which
nothing else was changed.
-/

namespace BeeLlama.KvCache

open KvCells Function KvCache Cell

/-- The caches agree but for the cells in `D` and the heads of the streams in `X`; shifts agree
everywhere. -/
structure Near (D : List (Nat × Nat)) (X : List Nat) (st st' : KvCache) : Prop where
  inv : ∀ x, (st'.cells x).Inv
  size : ∀ x, (st'.cells x).size = (st.cells x).size
  hasShift : ∀ x, (st'.cells x).hasShift = (st.cells x).hasShift
  shift : ∀ x j, (st'.cells x).shift j = (st.cells x).shift j
  cell : ∀ x j, (x, j) ∉ D → (st'.cells x).cell j = (st.cells x).cell j
  heads : ∀ x, x ∉ X → st'.heads x = st.heads x
  tail : st'.tail = st.tail

section Near

variable {D : List (Nat × Nat)} {X : List Nat} {st st₁ st' : KvCache}

theorem Near.of_eq (h : ∀ x, (st.cells x).Inv) (hc : st'.cells = st.cells)
    (hh : st'.heads = st.heads) (ht : st'.tail = st.tail) : Near D X st st' := by
  constructor <;> simp_all

theorem Near.trans (h : Near D X st st₁) (h' : Near D X st₁ st') : Near D X st st' where
  inv := h'.inv
  size x := (h'.size x).trans (h.size x)
  hasShift x := (h'.hasShift x).trans (h.hasShift x)
  shift x j := (h'.shift x j).trans (h.shift x j)
  cell x j hj := (h'.cell x j hj).trans (h.cell x j hj)
  heads x hx := (h'.heads x hx).trans (h.heads x hx)
  tail := h'.tail.trans h.tail

/-- With nothing left to restore the caches agree. -/
theorem Near.eq (h : Near [] [] st st') (hi : ∀ x, (st.cells x).Inv) :
    st'.cells = st.cells ∧ st'.heads = st.heads ∧ st'.tail = st.tail := by
  refine ⟨funext fun x => ?_, funext fun x => h.heads x (by simp), h.tail⟩
  exact (hi x).eq_of_cell (h.inv x) (h.size x) (h.hasShift x) fun j => h.cell x j (by simp)

end Near

/-! ## The purge -/

section Purge

variable {D : List (Nat × Nat)} {X : List Nat} {st st₁ st' : KvCache} {rm : Nat → Int}

/-- The purge of one sequence in a cache without a tail: cells of its stream up to the position
`rm s` lose it. -/
theorem purgeSeq_cells {s : Nat} (h : st.Inv) (ht : st.tail = none) (hrm : rm s ≠ -1 → 0 ≤ rm s)
    (e : st.purgeSeq rm s = (st', .ok ())) :
    st'.tail = none ∧ (rm s = -1 → st' = st) ∧
    (∀ x, (st'.cells x).hasShift = (st.cells x).hasShift) ∧
    (∀ y, y ≠ st.cfg.seqToStream s → st'.heads y = st.heads y) ∧
    ∀ x j, (st'.cells x).cell j = (st.cells x).cell j ∨
      (x = st.cfg.seqToStream s ∧ s ∈ (st.cells x).seq j ∧ (st.cells x).pos j ≤ rm s ∧
        (st'.cells x).cell j = ((st.cells x).cell j).erase s) := by
  unfold purgeSeq at e
  split at e
  · cases e
    exact ⟨ht, fun _ => rfl, fun _ => rfl, fun _ _ => rfl, fun _ _ => .inl rfl⟩
  · next hne =>
    split at e
    · dsimp only at e
      split at e
      · obtain ⟨heads, alloc, tail, sc, rows, rfl, hh, htail⟩ := seqRmUnchecked_eq e
        refine ⟨htail ht, fun h1 => absurd h1 hne, fun x => ?_, hh, fun x j => ?_⟩
        · by_cases ex : x = st.cfg.seqToStream s
          · subst ex
            dsimp only
            rw [update_self]
            exact sweep_hasShift (rmCell_hasShift s _ _)
          · dsimp only
            rw [update_of_ne ex]
        · by_cases ex : x = st.cfg.seqToStream s
          · subst ex
            dsimp only
            rw [update_self, (rmSeq_sweep (h.cells (st.cfg.seqToStream s)).toCellsOk s _ _).2 j]
            have hend : rangeEnd (rm s + 1) = rm s + 1 := if_neg (by have := hrm hne; omega)
            split
            · unfold rmSeq
              split
              · next hh' =>
                refine .inr ⟨rfl, hh'.2.2, ?_, rfl⟩
                have := hh'.2.1
                rw [hend, cell_pos] at this
                omega
              · exact .inl rfl
            · exact .inl rfl
          · dsimp only
            rw [update_of_ne ex]
            exact .inl rfl
      · cases e
        exact ⟨ht, fun _ => rfl, fun _ => rfl, fun _ _ => rfl, fun _ _ => .inl rfl⟩
    · cases e

theorem erase_shift {k : Cell} {s : Nat} : (k.erase s).shift = k.shift ∨ (k.erase s).shift = 0 := by
  unfold erase
  split
  · exact .inr rfl
  · exact .inl rfl

/-- The purge removes nothing but cells in `D`. -/
theorem purge_near (hz : ∀ x j, (x, j) ∈ D → (st.cells x).shift j = 0) (ht : st.tail = none)
    (hrm : ∀ s, rm s ≠ -1 → 0 ≤ rm s ∧ st.cfg.seqToStream s ∈ X ∧
      ∀ j, (st.cfg.seqToStream s, j) ∉ D → s ∈ (st.cells (st.cfg.seqToStream s)).seq j →
        rm s < (st.cells (st.cfg.seqToStream s)).pos j) :
    ∀ {ss : List Nat} {st₁ : KvCache}, Near D X st st₁ → st₁.Inv → st₁.cfg = st.cfg →
      KvCache.purge rm ss st₁ = (st', .ok ()) → Near D X st st' := by
  intro ss
  induction ss with
  | nil =>
    intro st₁ hn _ _ e
    cases e
    exact hn
  | cons s ss ih =>
    intro st₁ hn hi hcfg e
    obtain ⟨st2, u, e1, e2⟩ := andThen_ok e
    obtain ⟨hi2, hcfg2⟩ := hi.purgeSeq e1
    refine ih ?_ hi2 (hcfg2.trans hcfg) e2
    obtain ⟨ht2, hsame, hsh, hh, hcell⟩ := purgeSeq_cells hi (hn.tail.trans ht)
      (fun h => (hrm s h).1) e1
    by_cases hne : rm s = -1
    · rw [hsame hne]; exact hn
    · obtain ⟨-, hX, hD⟩ := hrm s hne
      rw [hcfg] at hh hcell
      -- A cell that changed is in `D`.
      have hmem : ∀ x j, (st2.cells x).cell j = (st₁.cells x).cell j ∨ (x, j) ∈ D := by
        intro x j
        rcases hcell x j with e | ⟨rfl, hs, hp, -⟩
        · exact .inl e
        · by_contra hno
          simp only [not_or] at hno
          have e := hn.cell _ _ hno.2
          have hs' : s ∈ (st.cells (st.cfg.seqToStream s)).seq j := by
            rw [← cell_seq, ← e]; exact hs
          have hp' : (st.cells (st.cfg.seqToStream s)).pos j ≤ rm s := by
            rw [← cell_pos, ← e]; exact hp
          have := hD j hno.2 hs'
          omega
      refine ⟨fun x => (hi2.cells x).toInv, fun x => ?_, fun x => (hsh x).trans (hn.hasShift x),
        fun x j => ?_, fun x j hj => ?_, fun x hx => ?_, ht2.trans ht.symm⟩
      · rw [(hi2.cells x).size, hcfg2, ← (hi.cells x).size]; exact hn.size x
      · rcases hmem x j with e | hj
        · have := congrArg Cell.shift e
          exact this.trans (hn.shift x j)
        · rw [hz x j hj]
          have h0 : (st₁.cells x).shift j = 0 := (hn.shift x j).trans (hz x j hj)
          rcases hcell x j with e | ⟨-, -, -, e⟩
          · exact (congrArg Cell.shift e).trans h0
          · rw [← cell_shift, e]
            rcases erase_shift (k := (st₁.cells x).cell j) (s := s) with e' | e'
            · exact e'.trans h0
            · exact e'
      · rcases hmem x j with e | hm
        · exact e.trans (hn.cell x j hj)
        · exact absurd hm hj
      · rw [hh x fun e => hx (e ▸ hX)]
        exact hn.heads x hx

/-- The purge finds nothing to remove. -/
theorem purge_skip {ss : List Nat}
    (hrm : ∀ s, rm s ≠ -1 → rm s < (st.cells (st.cfg.seqToStream s)).seqPosMin s)
    (e : KvCache.purge rm ss st = (st', .ok ())) : st' = st := by
  induction ss with
  | nil => exact (Prod.mk.inj e).1.symm
  | cons s ss ih =>
    obtain ⟨st₁, u, e1, e2⟩ := andThen_ok e
    have h1 : st₁ = st := by
      unfold purgeSeq at e1
      split at e1
      · exact (Prod.mk.inj e1).1.symm
      · next hne =>
        have := hrm s hne
        split at e1
        · dsimp only at e1
          rw [if_neg (by omega)] at e1
          exact (Prod.mk.inj e1).1.symm
        · cases e1
    rw [h1] at e2
    exact ih e2

end Purge

/-! ## The overwritten cells -/

section Overwritten

variable {cfg : CacheCfg}

theorem seqGet_mem {c : KvCells} {i : Nat} (h : c.Inv) (hc : c.seqCount i = 1) :
    (c.seqGet i).getD 0 ∈ c.seq i := by
  obtain ⟨s, hs⟩ := Finset.card_eq_one.mp hc
  have hm : s ∈ c.seq i := by rw [hs]; simp
  have hlt := h.seq_lt i s hm
  unfold seqGet
  have : ((List.range LLAMA_MAX_SEQ).find? fun s => decide (s ∈ c.seq i)).isSome = true := by
    rw [List.find?_isSome]
    exact ⟨s, List.mem_range.mpr hlt, by simpa using hm⟩
  obtain ⟨r, hr⟩ := Option.isSome_iff_exists.mp this
  rw [hr]
  simpa using List.find?_some hr

/-- `seq_pos_max_rm` holds positions of overwritten cells. -/
theorem noteAll_cases (is2d : Bool) :
    ∀ {ps : List Placement} {cells : Nat → KvCells} (rm : Nat → Int),
    (∀ p ∈ ps, p.Ok cfg) → (∀ x, StreamOk cfg x (cells x)) →
    ps.Pairwise (fun p q => (p.stream, p.cell) ≠ (q.stream, q.cell)) → ∀ s,
    noteAll is2d ps cells rm s = rm s ∨ ∃ p ∈ ps, (cells p.stream).pos p.cell ≠ -1 ∧
      ((cells p.stream).seqGet p.cell).getD 0 = s ∧
      noteAll is2d ps cells rm s = (cells p.stream).pos p.cell := by
  intro ps
  induction ps with
  | nil => exact fun _ _ _ _ s => .inl rfl
  | cons p ps ih =>
    intro cells rm hps h hpw s
    obtain ⟨hp1, hpw⟩ := List.pairwise_cons.mp hpw
    have hp := hps p (by simp)
    rcases ih (noteOverwritten (cells p.stream) p.cell rm)
      (fun q hq => hps q (by simp [hq])) (placeStep_ok is2d hp h) hpw s with
      e | ⟨q, hq, hocc, hs, e⟩
    · unfold noteAll
      rw [e]
      unfold noteOverwritten
      by_cases he : (cells p.stream).isEmpty p.cell = true
      · rw [if_pos he]
        exact .inl rfl
      · rw [if_neg he]
        have hocc : (cells p.stream).pos p.cell ≠ -1 := by simpa [isEmpty] using he
        by_cases hs : s = ((cells p.stream).seqGet p.cell).getD 0
        · subst hs
          rw [update_self]
          rcases max_choice (rm (((cells p.stream).seqGet p.cell).getD 0))
            ((cells p.stream).pos p.cell) with hm | hm
          · exact .inl hm
          · exact .inr ⟨p, by simp, hocc, rfl, hm⟩
        · rw [update_of_ne hs]
          exact .inl rfl
    · -- A later cell is still as it was.
      have hcell : (Function.update cells p.stream (placeCell is2d p (cells p.stream))
          q.stream).cell q.cell = (cells q.stream).cell q.cell := by
        by_cases ex : q.stream = p.stream
        · have hne : q.cell ≠ p.cell := fun ec => hp1 q hq (by rw [ex, ec])
          rw [ex, update_self, (placeCell_spec hp (h p.stream).toCellsOk is2d).2.2, if_neg hne]
        · rw [update_of_ne ex]
      have hpos := congrArg Cell.pos hcell
      have hseq := congrArg Cell.seq hcell
      simp only [cell_pos, cell_seq] at hpos hseq
      have hget : (Function.update cells p.stream (placeCell is2d p (cells p.stream))
          q.stream).seqGet q.cell = (cells q.stream).seqGet q.cell := by
        unfold seqGet; rw [hseq]
      refine .inr ⟨q, by simp [hq], ?_, ?_, ?_⟩
      · rwa [← hpos]
      · rw [← hget]; exact hs
      · rw [← hpos]; exact e

theorem SlotFound.pairwise {st : KvCache} {i : SlotInfo} {u : Ubatch} (h : SlotFound st i u) :
    (i.placements u).Pairwise fun p q => (p.stream, p.cell) ≠ (q.stream, q.cell) := by
  have hm : (i.placements u).map (fun p => (p.stream, p.cell)) = i.cells := by
    have e : (i.placements u).map (fun p => (p.stream, p.cell)) =
        ((i.cells.zip u.tokens).zipIdx.map Prod.fst).map Prod.fst := by
      unfold SlotInfo.placements
      rw [List.map_map, List.map_map]
      rfl
    rw [e, List.zipIdx_map_fst, List.map_fst_zip h.length.le]
  have := h.nodup
  rw [← hm, List.Nodup, List.pairwise_map] at this
  exact this

end Overwritten

/-! ## One step of the trial -/

/-- The positions that sequence `s` has in stream `x` with the ubatch placed. -/
def remaining (st : KvCache) (i : SlotInfo) (u : Ubatch) (x s : Nat) : Set Int :=
  { p | (∃ t ∈ u.tokens, s ∈ t.seqIds ∧ t.pos = p) ∨
    ∃ j, (x, j) ∉ i.cells ∧ s ∈ (st.cells x).seq j ∧ (st.cells x).pos j = p }

/-- A step of the trial that the restore undoes. `D` and `X` are the cells and the streams that
the trial has used before.

* A stream that is used for the first time has the head of the stream that its place in the slot
  names.
* No named cell has a pending shift.
* Every cell of an overwritten sequence that is not saved is newer than the overwritten one.
* With a tail, the overwritten sequence has cells left and all of them are newer: there is no
  purge. -/
structure Harmless (st : KvCache) (i : SlotInfo) (u : Ubatch) (D : List (Nat × Nat))
    (X : List Nat) : Prop where
  head : ∀ k x, i.strm[k]? = some x → x ∉ X → st.heads k = st.heads x
  shift : ∀ x j, (x, j) ∈ i.cells → (st.cells x).shift j = 0
  purge : ∀ x j s, (x, j) ∈ i.cells → s ∈ (st.cells x).seq j →
    ∀ j', s ∈ (st.cells x).seq j' → (x, j') ∉ D ++ i.cells →
      (st.cells x).pos j < (st.cells x).pos j'
  tail : st.tail ≠ none → ∀ x j s, (x, j) ∈ i.cells → s ∈ (st.cells x).seq j →
    (st.remaining i u x s).Nonempty ∧ ∀ p ∈ st.remaining i u x s, (st.cells x).pos j < p

section Step

variable {D : List (Nat × Nat)} {X : List Nat} {st st₁ st' : KvCache} {i : SlotInfo} {u : Ubatch}

variable {x j : Nat} {heads : Nat → Nat}

theorem mem_strm (h : (x, j) ∈ i.cells) : x ∈ i.strm := by
  obtain ⟨b, hb, hj⟩ := List.mem_flatMap.mp h
  obtain ⟨j', -, e⟩ := List.mem_map.mp hj
  cases e
  exact (List.of_mem_zip hb).1

theorem named_mem (h : Named (i.placements u) x j) : (x, j) ∈ i.cells := by
  obtain ⟨p, hp, rfl, rfl⟩ := h
  exact List.mem_of_getElem? (SlotInfo.mem_placements hp).1

theorem SlotFound.named (hf : SlotFound st i u) (h : (x, j) ∈ i.cells) :
    Named (i.placements u) x j := by
  obtain ⟨k, hk⟩ := List.getElem?_of_mem h
  have hlt : k < i.cells.length := (List.getElem?_eq_some_iff.mp hk).1
  rw [hf.length] at hlt
  exact ⟨_, SlotInfo.placement_of_getElem? hk (List.getElem?_eq_getElem hlt), rfl, rfl⟩

theorem purge_preparing {rm : Nat → Int} : ∀ {ss : List Nat} {st : KvCache},
    KvCache.purge rm ss st = (st', .ok ()) → st'.tailPreparing = st.tailPreparing := by
  intro ss
  induction ss with
  | nil =>
    intro st e
    rw [(Prod.mk.inj e).1]
  | cons s ss ih =>
    intro st e
    obtain ⟨st₁, a, e1, e2⟩ := andThen_ok e
    refine (ih e2).trans ?_
    unfold purgeSeq at e1
    split at e1
    · rw [(Prod.mk.inj e1).1]
    · split at e1
      · dsimp only at e1
        split at e1
        · obtain ⟨_, _, _, _, _, rfl, -⟩ := seqRmUnchecked_eq e1
          rfl
        · rw [(Prod.mk.inj e1).1]
      · cases e1

theorem moveHeads_heads {x : Nat} (st : KvCache) (hx : x ∉ i.strm) :
    (st.moveHeads i).heads x = st.heads x := by
  have key : ∀ (l : List (Nat × List Nat)) (st : KvCache), (∀ p ∈ l, p.1 ≠ x) →
      (l.foldl (fun st p => st.setHead p.1 (p.2.getLastD 0 + 1)) st).heads x = st.heads x := by
    intro l
    induction l with
    | nil => exact fun _ _ => rfl
    | cons p l ih =>
      intro st hl
      refine (ih _ fun q hq => hl q (by simp [hq])).trans ?_
      exact update_of_ne (hl p (by simp)).symm _ _
  exact key _ st fun p hp e => hx (e ▸ (List.of_mem_zip hp).1)

/-- The cells with the ubatch placed. -/
theorem Near.place (hi : st.Inv) (hf : SlotFound st i u) (hh : Harmless st i u D X)
    (ha : Applied st st₁ (placeCells u.isPos2d (i.placements u) st.cells) heads)
    (hl : st.tailLive = false) : Near (D ++ i.cells) (X ++ i.strm) st st₁ := by
  refine ⟨fun x => ?_, fun x => ?_, fun x => ?_, fun x j => ?_, fun x j hj => ?_, fun x _ => ?_,
    ha.dead hl⟩
  · rw [ha.cells_eq]
    exact (placeCells_ok u.isPos2d hf.ok hi.cells x).toInv
  · rw [ha.cells_eq, (placeCells_ok u.isPos2d hf.ok hi.cells x).size, (hi.cells x).size]
  · rw [ha.cells_eq, placeCells_hasShift u.isPos2d hf.ok hi.cells]
  · rw [ha.cells_eq]
    by_cases hn : Named (i.placements u) x j
    · obtain ⟨p, -, -, -, k, hk⟩ := placeCells_mem u.isPos2d hf.ok hi.cells hn
      rw [hh.shift x j (named_mem hn), ← cell_shift, hk]
      rfl
    · exact congrArg Cell.shift (placeCells_of_notMem u.isPos2d hf.ok hi.cells hn)
  · rw [ha.cells_eq]
    exact placeCells_of_notMem u.isPos2d hf.ok hi.cells fun hn =>
      hj (List.mem_append_right _ (named_mem hn))
  · obtain ⟨_, _, _, rfl⟩ := ha.eq
    rfl

/-- `seq_pos_max_rm` of the placed ubatch. -/
theorem noted {rm : Nat → Int} (hi : st.Inv) (hf : SlotFound st i u)
    (hrm : rm = noteAll u.isPos2d (i.placements u) st.cells fun _ => -1) {s : Nat}
    (hs : rm s ≠ -1) : ∃ j, (st.cfg.seqToStream s, j) ∈ i.cells ∧
      s ∈ (st.cells (st.cfg.seqToStream s)).seq j ∧
      rm s = (st.cells (st.cfg.seqToStream s)).pos j ∧ 0 ≤ rm s := by
  subst hrm
  rcases noteAll_cases u.isPos2d (fun _ => -1) hf.ok hi.cells hf.pairwise s with
    e | ⟨p, hp, hocc, hs', e⟩
  · exact absurd e hs
  · have hm : (p.stream, p.cell) ∈ i.cells := List.mem_of_getElem? (SlotInfo.mem_placements hp).1
    have h1 := (hf.one _ _ hm).resolve_left hocc
    have hmem := seqGet_mem (hi.cells p.stream).toInv h1
    rw [hs'] at hmem
    have hx := (hi.cells p.stream).stream _ _ hmem
    rw [hx]
    refine ⟨p.cell, hm, hmem, e, ?_⟩
    rw [e]
    exact ((hi.cells p.stream).ok p.cell).nonneg hocc

/-- Every cell of an overwritten sequence is newer than the overwritten position. -/
theorem noted_lt_posMin {rm : Nat → Int} (hi : st.Inv)
    (hf : SlotFound st i u) (hh : Harmless st i u D X)
    (ha : Applied st st₁ (placeCells u.isPos2d (i.placements u) st.cells) heads)
    (hrm : rm = noteAll u.isPos2d (i.placements u) st.cells fun _ => -1) (ht : st.tail ≠ none)
    (s : Nat) (hs : rm s ≠ -1) : rm s < (st₁.cells (st₁.cfg.seqToStream s)).seqPosMin s := by
  obtain ⟨j, hj, hmem, hpos, -⟩ := noted hi hf hrm hs
  obtain ⟨⟨q, hq⟩, hall⟩ := hh.tail ht _ _ _ hj hmem
  rw [ha.cells_eq, ha.cfg_eq]
  generalize hx : st.cfg.seqToStream s = x at hj hmem hpos hq hall
  have hok := placeCells_ok u.isPos2d hf.ok hi.cells x
  have hr := hok.toInv.readers
  have hcells : ∀ j', s ∈ (placeCells u.isPos2d (i.placements u) st.cells x).seq j' →
      (placeCells u.isPos2d (i.placements u) st.cells x).pos j' ∈ st.remaining i u x s := by
    intro j' hs'
    by_cases hn : Named (i.placements u) x j'
    · obtain ⟨p, hp, -, -, k, hk⟩ := placeCells_mem u.isPos2d hf.ok hi.cells hn
      rw [← cell_seq, hk] at hs'
      refine .inl ⟨p.token, List.mem_of_getElem? (SlotInfo.mem_placements hp).2,
        List.mem_toFinset.mp hs', ?_⟩
      rw [← cell_pos, hk]
      rfl
    · have e := placeCells_of_notMem u.isPos2d hf.ok hi.cells hn
      rw [← cell_seq, e] at hs'
      rw [← cell_pos, e]
      exact .inr ⟨j', fun hm => hn (hf.named hm), hs', rfl⟩
  have hex : ∃ j', j' < (placeCells u.isPos2d (i.placements u) st.cells x).size ∧
      s ∈ (placeCells u.isPos2d (i.placements u) st.cells x).seq j' := by
    suffices ∃ j', s ∈ (placeCells u.isPos2d (i.placements u) st.cells x).seq j' by
      obtain ⟨j', hj'⟩ := this
      exact ⟨j', by rw [hok.size]; exact hok.lt_of_mem hj', hj'⟩
    rcases hq with ⟨t, htm, hts, -⟩ | ⟨j', hn, hs', -⟩
    · obtain ⟨k, hk⟩ := List.getElem?_of_mem htm
      have hlt : k < u.tokens.length := (List.getElem?_eq_some_iff.mp hk).1
      rw [← hf.length] at hlt
      have hp := SlotInfo.placement_of_getElem? (List.getElem?_eq_getElem hlt) hk
      have hst : st.cfg.seqToStream s = (i.cells[k]).1 := (hf.ok _ hp).stream s hts
      obtain ⟨p, hpm, hpx, hpc, k', hk'⟩ := placeCells_mem u.isPos2d hf.ok hi.cells
        (x := x) (i := (i.cells[k]).2) ⟨_, hp, by rw [← hx, hst], rfl⟩
      -- The cell got this token only.
      have hpt : p.token = t := by
        obtain ⟨h1, h2⟩ := SlotInfo.mem_placements hpm
        rw [hpx, hpc, ← hx, hst] at h1
        have : p.row = k := (List.Nodup.getElem_inj_iff hf.nodup).mp
          (List.getElem?_eq_some_iff.mp h1).2
        rw [this, hk] at h2
        exact (Option.some.inj h2).symm
      refine ⟨(i.cells[k]).2, ?_⟩
      rw [← cell_seq, hk', hpt]
      exact List.mem_toFinset.mpr hts
    · refine ⟨j', ?_⟩
      rw [← cell_seq, placeCells_of_notMem u.isPos2d hf.ok hi.cells fun h => hn (named_mem h)]
      exact hs'
  obtain ⟨⟨j', -, hs', he⟩, -⟩ := hr.seqPosMin s hex
  rw [hpos, ← he]
  exact hall _ (hcells j' hs')

/-- A harmless step changes the named cells and the heads of their streams only. -/
theorem Near.apply (hi : st.Inv) (hf : SlotFound st i u) (hp : st.tailPreparing = true)
    (hh : Harmless st i u D X) (hz : ∀ x j, (x, j) ∈ D → (st.cells x).shift j = 0)
    (e : st.applyUbatch i u = (st', .ok ())) :
    Near (D ++ i.cells) (X ++ i.strm) st st' ∧ st'.tailPreparing = true := by
  have hl : st.tailLive = false := by simp [tailLive, hp]
  obtain ⟨st₁, a1, e1, e⟩ := andThen_ok e
  have h1 : st₁ = st := by
    unfold beginTail at e1
    rw [if_neg (by simp [hl])] at e1
    exact (Prod.mk.inj e1).1.symm
  rw [h1] at e
  obtain ⟨st2, rm, e2, e⟩ := andThen_ok e
  obtain ⟨ha, hrm⟩ := placeTokens_applied e2
  have hn := Near.place hi hf hh ha hl
  obtain ⟨st3, a3, e3, e⟩ := andThen_ok e
  cases e
  have hi2 := hi.of_applied hf.ok ha
  have hp3 : st3.tailPreparing = true := by
    rw [purge_preparing e3]
    obtain ⟨_, _, _, rfl⟩ := ha.eq
    exact hp
  have hn3 : Near (D ++ i.cells) (X ++ i.strm) st st3 := by
    by_cases ht : st.tail = none
    · refine hn.trans (purge_near (fun x j hj => ?_) (hn.tail.trans ht) (fun s hs => ?_)
        (Near.of_eq (fun x => (hi2.cells x).toInv) rfl rfl rfl) hi2 rfl e3)
      · rw [hn.shift]
        rcases List.mem_append.mp hj with hj | hj
        · exact hz x j hj
        · exact hh.shift x j hj
      · obtain ⟨j, hj, hmem, hpos, hpos0⟩ := noted hi hf hrm hs
        rw [ha.cfg_eq]
        refine ⟨hpos0, List.mem_append_right _ (mem_strm hj), fun j' hj' hs' => ?_⟩
        have ec := hn.cell _ _ hj'
        rw [← cell_seq, ec] at hs'
        rw [← cell_pos, ec, hpos]
        exact hh.purge _ _ _ hj hmem j' hs' hj'
    · rw [purge_skip (noted_lt_posMin hi hf hh ha hrm ht) e3]
      exact hn
  obtain ⟨heads, eh⟩ := moveHeads_eq st3 i
  refine ⟨⟨?_, ?_, ?_, ?_, ?_, fun x hx => ?_, ?_⟩, ?_⟩
  · rw [eh]; exact hn3.inv
  · rw [eh]; exact hn3.size
  · rw [eh]; exact hn3.hasShift
  · rw [eh]; exact hn3.shift
  · rw [eh]; exact hn3.cell
  · rw [moveHeads_heads st3 fun hm => hx (List.mem_append_right _ hm)]
    exact hn3.heads x hx
  · rw [eh]; exact hn3.tail
  · rw [eh]; exact hp3

end Step

/-! ## The restore -/

section Restore

variable {D : List (Nat × Nat)} {X : List Nat} {st st' : KvCache} {i : SlotInfo} {u : Ubatch}

/-- One block of a saved state is restored. -/
def restoreBlock (saved : KvCache) (st : KvCache) (p : (Nat × List Nat) × Nat) : KvCache :=
  (st.setCells p.1.1 ((st.cells p.1.1).setIdxs p.1.2 ((saved.cells p.1.1).cpIdxs p.1.2))).setHead
    p.1.1 (saved.heads p.2)

theorem zip_map_self {α β : Type} (f : α → β) (l : List α) :
    l.zip (l.map f) = l.map fun a => (a, f a) := by
  induction l with
  | nil => rfl
  | cons a l ih => rw [List.map_cons, List.zip_cons_cons, ih, List.map_cons]

theorem restoreSaved_eq (st' st : KvCache) (i : SlotInfo) : st'.restoreSaved (st.save i) =
      (i.strm.zip i.idxs).zipIdx.foldl (restoreBlock st) st' := by
  unfold restoreSaved save
  rw [zip_map_self]
  generalize i.strm.zip i.idxs = L
  suffices ∀ (k : Nat) (st' : KvCache),
      ((L.map fun a => (a, (st.cells a.1).cpIdxs a.2)).zipIdx k).foldl
        (fun st' p => (st'.setCells p.1.1.1 ((st'.cells p.1.1.1).setIdxs p.1.1.2 p.1.2)).setHead
          p.1.1.1 (st.heads p.2)) st' = (L.zipIdx k).foldl (restoreBlock st) st' from this 0 st'
  induction L with
  | nil => exact fun _ _ => rfl
  | cons p L ih => exact fun k st' => ih (k + 1) _

/-- The restored blocks: their cells come back but for the shifts, their heads come from the
places in the list. -/
theorem restoreBlocks_spec (saved : KvCache) (hsaved : ∀ x, (saved.cells x).Inv) :
    ∀ (L : List (Nat × List Nat)) (k : Nat) (st' : KvCache),
    (∀ x, (st'.cells x).Inv) → (L.map (·.1)).Nodup →
    (∀ b ∈ L, ∀ j ∈ b.2, j < (st'.cells b.1).size) →
    let r := (L.zipIdx k).foldl (restoreBlock saved) st'
    (∀ x, (r.cells x).Inv ∧ (r.cells x).size = (st'.cells x).size ∧
      (r.cells x).hasShift = (st'.cells x).hasShift) ∧
    (∀ x j, (r.cells x).cell j = if ∃ b ∈ L, b.1 = x ∧ j ∈ b.2 then
      { (saved.cells x).cell j with shift := (st'.cells x).shift j } else (st'.cells x).cell j) ∧
    (∀ x, x ∉ L.map (·.1) → r.heads x = st'.heads x) ∧
    (∀ m x l, L[m]? = some (x, l) → r.heads x = saved.heads (k + m)) ∧ r.tail = st'.tail := by
  intro L
  induction L with
  | nil =>
    intro k st' hi _ _
    refine ⟨fun x => ⟨hi x, rfl, rfl⟩, fun x j => ?_, fun _ _ => rfl, ?_, rfl⟩
    · simp
    · intro m x l e; simp at e
  | cons b L ih =>
    intro k st' hi hnd hlt
    obtain ⟨x0, l0⟩ := b
    obtain ⟨hb, hnd⟩ := List.nodup_cons.mp hnd
    -- The first block.
    have hinv : ((st'.cells x0).setIdxs l0 ((saved.cells x0).cpIdxs l0)).Inv :=
      (hi x0).setIdxs ((hsaved x0).cpIdxs l0) rfl fun j hj => hlt (x0, l0) (by simp) j hj
    have hc1 : ∀ x, ((restoreBlock saved st' ((x0, l0), k)).cells x) = if x = x0 then
        (st'.cells x0).setIdxs l0 ((saved.cells x0).cpIdxs l0) else st'.cells x := by
      intro x
      by_cases e : x = x0
      · subst e; simp [restoreBlock, setHead, setCells]
      · simp [restoreBlock, setHead, setCells, e]
    have hstep : ∀ x, ((restoreBlock saved st' ((x0, l0), k)).cells x).Inv ∧
        ((restoreBlock saved st' ((x0, l0), k)).cells x).size = (st'.cells x).size ∧
        ((restoreBlock saved st' ((x0, l0), k)).cells x).hasShift = (st'.cells x).hasShift := by
      intro x
      rw [hc1 x]
      split
      · next e => subst e; exact ⟨hinv, setIdxs_size _ _ _, setIdxs_hasShift _ _ _⟩
      · exact ⟨hi x, rfl, rfl⟩
    have hcell1 : ∀ x j, ((restoreBlock saved st' ((x0, l0), k)).cells x).cell j =
        if x = x0 ∧ j ∈ l0 then
          { (saved.cells x).cell j with shift := (st'.cells x).shift j }
        else (st'.cells x).cell j := by
      intro x j
      rw [hc1 x]
      by_cases e : x = x0
      · subst e
        rw [if_pos rfl, setIdxs_cpIdxs_cell]
        by_cases hj : j ∈ l0 <;> simp [hj]
      · simp [e]
    obtain ⟨h1, h2, h3, h4, h5⟩ := ih (k + 1) (restoreBlock saved st' ((x0, l0), k))
      (fun x => (hstep x).1) hnd fun b hb j hj => by
        rw [(hstep b.1).2.1]; exact hlt b (by simp [hb]) j hj
    refine ⟨fun x => ⟨(h1 x).1, (h1 x).2.1.trans (hstep x).2.1, (h1 x).2.2.trans (hstep x).2.2⟩,
      fun x j => (h2 x j).trans ?_, fun x hx => ?_, fun m x l e => ?_, h5⟩
    · have hshift : ((restoreBlock saved st' ((x0, l0), k)).cells x).shift j =
          (st'.cells x).shift j := by
        have := congrArg Cell.shift (hcell1 x j)
        rw [cell_shift] at this
        rw [this]
        split <;> rfl
      rw [hshift, hcell1 x j]
      by_cases hL : ∃ b ∈ L, b.1 = x ∧ j ∈ b.2
      · obtain ⟨b, hbm, hbx⟩ := hL
        rw [if_pos ⟨b, hbm, hbx⟩, if_pos ⟨b, by simp [hbm], hbx⟩]
      · rw [if_neg hL]
        by_cases h0 : x = x0 ∧ j ∈ l0
        · rw [if_pos h0, if_pos ⟨(x0, l0), by simp, h0.1.symm, h0.2⟩]
        · rw [if_neg h0, if_neg]
          rintro ⟨b, hbm, hbx, hbj⟩
          rcases List.mem_cons.mp hbm with rfl | hbm
          · exact h0 ⟨hbx.symm, hbj⟩
          · exact hL ⟨b, hbm, hbx, hbj⟩
    · simp only [List.map_cons, List.mem_cons, not_or] at hx
      refine (h3 x hx.2).trans ?_
      exact update_of_ne hx.1 _ _
    · cases m with
      | zero =>
        cases e
        refine (h3 x0 hb).trans ?_
        exact update_self _ _ _
      | succ m =>
        refine (h4 m x l e).trans ?_
        rw [Nat.add_assoc, Nat.add_comm 1 m]

/-- A restored ubatch: its cells and streams are as they were saved. -/
theorem Near.restore (hi : st.Inv) (hf : SlotFound st i u) (hh : Harmless st i u D X)
    (hn : Near (D ++ i.cells) (X ++ i.strm) st st') :
    Near D X st (st'.restoreSaved (st.save i)) := by
  have hfst : (i.strm.zip i.idxs).map (·.1) = i.strm := List.map_fst_zip hf.idxs.ge
  have hmem : ∀ x j, (∃ b ∈ i.strm.zip i.idxs, b.1 = x ∧ j ∈ b.2) ↔ (x, j) ∈ i.cells := by
    intro x j
    simp only [SlotInfo.cells, List.mem_flatMap, List.mem_map, Prod.mk.injEq]
    constructor
    · rintro ⟨b, hb, rfl, hj⟩
      exact ⟨b, hb, j, hj, rfl, rfl⟩
    · rintro ⟨b, hb, j', hj, rfl, rfl⟩
      exact ⟨b, hb, rfl, hj⟩
  rw [restoreSaved_eq]
  obtain ⟨h1, h2, h3, h4, h5⟩ := restoreBlocks_spec st (fun x => (hi.cells x).toInv)
    (i.strm.zip i.idxs) 0 st' hn.inv (by rw [hfst]; exact hf.strm) fun b hb j hj => by
      rw [hn.size, (hi.cells b.1).size]
      exact hf.lt b.1 j ((hmem b.1 j).mp ⟨b, hb, rfl, hj⟩)
  refine ⟨fun x => (h1 x).1, fun x => (h1 x).2.1.trans (hn.size x),
    fun x => (h1 x).2.2.trans (hn.hasShift x), fun x j => ?_, fun x j hj => ?_, fun x hx => ?_,
    h5.trans hn.tail⟩
  · rw [← cell_shift, h2 x j]
    split <;> exact hn.shift x j
  · rw [h2 x j]
    simp only [hmem]
    split
    · rw [hn.shift x j]
      rfl
    · next hc => exact hn.cell x j fun hm => (List.mem_append.mp hm).elim hj hc
  · by_cases hs : x ∈ i.strm
    · obtain ⟨m, hm⟩ := List.getElem?_of_mem hs
      have hlt : m < i.idxs.length := by
        rw [hf.idxs]; exact (List.getElem?_eq_some_iff.mp hm).1
      have hz : (i.strm.zip i.idxs)[m]? = some (x, i.idxs[m]) := by
        rw [List.getElem?_zip_eq_some]
        exact ⟨hm, List.getElem?_eq_getElem hlt⟩
      rw [h4 m x _ hz, Nat.zero_add]
      exact hh.head m x hm hx
    · rw [h3 x (by rw [hfst]; exact hs)]
      exact hn.heads x fun hm => (List.mem_append.mp hm).elim hx hs

end Restore

/-! ## The whole trial -/

section Trial

variable {st st' : KvCache}

end Trial

end BeeLlama.KvCache
