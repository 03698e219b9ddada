import BeeLlama.Kv.CacheInv

/-!
# A placed ubatch, cell by cell

`placeCells` is what the loop of `apply_ubatch` does to the cells: the cell of a token holds the
token (`Cell.place`), the others stay (`placeCells_mem`, `placeCells_of_notMem`). `Applied` is
the rest of the cache after the loop, `applyUbatch_ok` after the whole function.
-/

namespace BeeLlama

open List hiding isEmpty

/-- What `apply_ubatch` relies on for a token and its cell. -/
structure Placement.Ok (cfg : CacheCfg) (p : Placement) : Prop where
  cell : p.cell < cfg.kvSize
  pos : 0 ≤ p.token.pos
  nodup : p.token.seqIds.Nodup
  lt : ∀ s ∈ p.token.seqIds, s < LLAMA_MAX_SEQ
  stream : ∀ s ∈ p.token.seqIds, cfg.seqToStream s = p.stream

/-- The cell with a token of the ubatch. Without 2D positions an empty cell keeps its `ext`. -/
def Cell.place (is2d : Bool) (t : UToken) (k : Cell) : Cell :=
  ⟨t.pos, if is2d then t.ext else if k.pos = -1 then k.ext else {}, 0, t.seqIds.toFinset⟩

namespace KvCache

open KvCells

/-! ## One cell -/

section Place

variable {n : Nat} {c : KvCells}

theorem fillCell_spec (h : c.CellsOk n) {i : Nat} {t : UToken} (hi : i < n) (ht : 0 ≤ t.pos)
    (is2d : Bool) :
    (fillCell is2d c i t).CellsOk n ∧ (fillCell is2d c i t).hasShift = c.hasShift ∧
    ∀ j, (fillCell is2d c i t).cell j =
      if j = i then { (c.cell i).place is2d t with seq := ∅ } else c.cell j := by
  have hi' : i < c.size := by rw [h.size]; exact hi
  -- The cell is free, with its old `ext` if it was free before.
  obtain ⟨c1, hc1, hinv, hsize, hshift, hcell⟩ : ∃ c1, c1 = (if c.isEmpty i then c else c.rm i) ∧
      c1.Inv ∧ c1.size = c.size ∧ c1.hasShift = c.hasShift ∧ ∀ j, c1.cell j =
        if j = i then ⟨-1, if c.pos i = -1 then c.ext i else {}, 0, ∅⟩ else c.cell j := by
    refine ⟨_, rfl, ?_⟩
    by_cases he : c.pos i = -1
    · have : c.isEmpty i = true := by simp [isEmpty, he]
      rw [if_pos this]
      refine ⟨h.toInv, rfl, rfl, fun j => ?_⟩
      split
      · next e =>
        subst e
        have hs : c.shift j = 0 := (h.ok j).shift he
        simp only [KvCells.cell, he, hs, h.toInv.empty j he]
      · rfl
    · have : ¬ c.isEmpty i = true := by simp [isEmpty, he]
      rw [if_neg this]
      refine ⟨h.toInv.rm hi', rm_size c i, rm_hasShift c i, fun j => ?_⟩
      rw [rm_cell, if_neg he]
      rfl
  have hpos : c1.pos i = -1 := by simpa using congrArg Cell.pos (hcell i)
  have hinv2 : (c1.posSet i t.pos).Inv := hinv.posSet (by omega) hpos (by omega)
  have hcell2 : ∀ j, (c1.posSet i t.pos).cell j = if j = i then
      ⟨t.pos, if c.pos i = -1 then c.ext i else {}, 0, ∅⟩ else c.cell j := by
    intro j
    rw [posSet_cell, hcell, hcell]
    by_cases e : j = i <;> simp [e]
  have hok : ∀ x : CellExt, (⟨t.pos, x, 0, ∅⟩ : Cell).Ok := fun x => ⟨fun _ => ht, fun _ => rfl⟩
  unfold fillCell
  rw [← hc1]
  cases is2d with
  | true =>
    simp only [if_true]
    have hcell3 : ∀ j, ((c1.posSet i t.pos).extSet i t.ext).cell j =
        if j = i then { (c.cell i).place true t with seq := ∅ } else c.cell j := by
      intro j
      rw [extSet_cell, hcell2, hcell2]
      by_cases e : j = i <;> simp [e, Cell.place]
    exact ⟨h.update hi hinv2.extSet hsize hcell3 (hok _), hshift, hcell3⟩
  | false =>
    simp only [Bool.false_eq_true, if_false]
    have hcell3 : ∀ j, (c1.posSet i t.pos).cell j =
        if j = i then { (c.cell i).place false t with seq := ∅ } else c.cell j := by
      intro j
      rw [hcell2]
      rfl
    exact ⟨h.update hi hinv2 hsize hcell3 (hok _), hshift, hcell3⟩

/-- The owners of a token in its cell. -/
theorem addSeqs_spec {i : Nat} (hi : i < n) : ∀ {ss : List Nat} {c : KvCells}, c.CellsOk n →
    c.pos i ≠ -1 → ss.Nodup → (∀ s ∈ ss, s ∉ c.seq i) → (∀ s ∈ ss, s < LLAMA_MAX_SEQ) →
    (ss.foldl (fun c s => c.seqAdd i s) c).CellsOk n ∧
    (ss.foldl (fun c s => c.seqAdd i s) c).hasShift = c.hasShift ∧
    ∀ j, (ss.foldl (fun c s => c.seqAdd i s) c).cell j =
      if j = i then { c.cell i with seq := c.seq i ∪ ss.toFinset } else c.cell j := by
  intro ss
  induction ss with
  | nil =>
    intro c h _ _ _ _
    refine ⟨h, rfl, fun j => ?_⟩
    by_cases e : j = i
    · subst e; simp [KvCells.cell]
    · simp [e]
  | cons s ss ih =>
    intro c h hp hn hd hlt
    obtain ⟨hs, hn⟩ := List.nodup_cons.mp hn
    have hinv := h.toInv.seqAdd (by rwa [h.size]) hp (hd s (by simp)) (hlt s (by simp))
    have hc := h.update hi hinv rfl (fun j => seqAdd_cell c i j s)
      ⟨(h.ok i).nonneg, (h.ok i).shift⟩
    have hseq : (c.seqAdd i s).seq i = insert s (c.seq i) := by simp [KvCells.seqAdd, setSeq,
      seqPosInc]
    obtain ⟨hok, hsh, hcell⟩ := ih hc hp hn (fun r hr hm => by
      rw [hseq] at hm
      rcases Finset.mem_insert.mp hm with rfl | hm
      · exact hs hr
      · exact hd r (by simp [hr]) hm) fun r hr => hlt r (by simp [hr])
    refine ⟨hok, hsh, fun j => ?_⟩
    rw [foldl_cons, hcell, seqAdd_cell, seqAdd_cell, hseq]
    by_cases e : j = i
    · simp [e]
    · simp [e]

/-- The cells of a stream with one more token. -/
def placeCell (is2d : Bool) (p : Placement) (c : KvCells) : KvCells :=
  p.token.seqIds.foldl (fun c s => c.seqAdd p.cell s) (fillCell is2d c p.cell p.token)

theorem placeCell_spec {cfg : CacheCfg} {p : Placement} (hp : p.Ok cfg)
    (h : c.CellsOk cfg.kvSize) (is2d : Bool) :
    (placeCell is2d p c).CellsOk cfg.kvSize ∧ (placeCell is2d p c).hasShift = c.hasShift ∧
    ∀ j, (placeCell is2d p c).cell j =
      if j = p.cell then (c.cell j).place is2d p.token else c.cell j := by
  obtain ⟨h1, hs1, hcell1⟩ := fillCell_spec h hp.cell hp.pos is2d
  have hp1 := congrArg Cell.pos (hcell1 p.cell)
  have hq1 := congrArg Cell.seq (hcell1 p.cell)
  simp only [cell_pos, cell_seq, if_true, Cell.place] at hp1 hq1
  have hpos := hp.pos
  obtain ⟨h2, hs2, hcell2⟩ := addSeqs_spec hp.cell h1 (by omega) hp.nodup
    (fun s _ hm => by rw [hq1] at hm; exact Finset.notMem_empty s hm) hp.lt
  refine ⟨h2, hs2.trans hs1, fun j => (hcell2 j).trans ?_⟩
  rw [hcell1, hcell1, hq1, Finset.empty_union]
  by_cases e : j = p.cell
  · subst e
    rw [if_pos rfl, if_pos rfl, if_pos rfl]
    rfl
  · rw [if_neg e, if_neg e, if_neg e]

end Place

/-! ## All cells of a ubatch -/

section PlaceCells

/-- The cells of the streams with the tokens of a ubatch. -/
def placeCells (is2d : Bool) (ps : List Placement) (cells : Nat → KvCells) : Nat → KvCells :=
  ps.foldl (fun cells p =>
    Function.update cells p.stream (placeCell is2d p (cells p.stream))) cells

/-- `seq_pos_max_rm` after the loop over the tokens. -/
def noteAll (is2d : Bool) : List Placement → (Nat → KvCells) → (Nat → Int) → Nat → Int
  | [], _, rm => rm
  | p :: ps, cells, rm =>
    noteAll is2d ps (Function.update cells p.stream (placeCell is2d p (cells p.stream)))
      (noteOverwritten (cells p.stream) p.cell rm)

variable {cfg : CacheCfg} (is2d : Bool) {ps : List Placement} {cells : Nat → KvCells}

/-- Cell `i` of stream `x` gets a token. -/
def Named (ps : List Placement) (x i : Nat) : Prop := ∃ p ∈ ps, p.stream = x ∧ p.cell = i

theorem placeStep_ok {p : Placement} (hp : p.Ok cfg) (h : ∀ x, StreamOk cfg x (cells x)) (x : Nat) :
    StreamOk cfg x (Function.update cells p.stream (placeCell is2d p (cells p.stream)) x) := by
  by_cases e : x = p.stream
  · subst e
    rw [Function.update_self]
    obtain ⟨hok, -, hcell⟩ := placeCell_spec hp (h p.stream).toCellsOk is2d
    refine ⟨hok, fun i s hs => ?_⟩
    rw [← cell_seq, hcell i] at hs
    split at hs
    · exact hp.stream s (mem_toFinset.mp hs)
    · exact (h p.stream).stream i s hs
  · rw [Function.update_of_ne e]
    exact h x

theorem placeCells_ok (hps : ∀ p ∈ ps, p.Ok cfg) (h : ∀ x, StreamOk cfg x (cells x)) (x : Nat) :
    StreamOk cfg x (placeCells is2d ps cells x) := by
  induction ps generalizing cells with
  | nil => exact h x
  | cons p ps ih =>
    exact ih (fun q hq => hps q (by simp [hq])) (placeStep_ok is2d (hps p (by simp)) h)

theorem placeCells_of_notMem (hps : ∀ p ∈ ps, p.Ok cfg) (h : ∀ x, StreamOk cfg x (cells x))
    {x i : Nat} (hn : ¬ Named ps x i) :
    (placeCells is2d ps cells x).cell i = (cells x).cell i := by
  induction ps generalizing cells with
  | nil => rfl
  | cons p ps ih =>
    have hp := hps p (by simp)
    unfold placeCells
    rw [foldl_cons]
    refine (ih (fun q hq => hps q (by simp [hq])) (placeStep_ok is2d hp h)
      fun ⟨q, hq, hx⟩ => hn ⟨q, by simp [hq], hx⟩).trans ?_
    by_cases e : x = p.stream
    · subst e
      rw [Function.update_self, (placeCell_spec hp (h p.stream).toCellsOk is2d).2.2 i, if_neg]
      exact fun ei => hn ⟨p, by simp, rfl, ei.symm⟩
    · rw [Function.update_of_ne e]

theorem placeCells_hasShift (hps : ∀ p ∈ ps, p.Ok cfg) (h : ∀ x, StreamOk cfg x (cells x))
    (x : Nat) : (placeCells is2d ps cells x).hasShift = (cells x).hasShift := by
  induction ps generalizing cells with
  | nil => rfl
  | cons p ps ih =>
    have hp := hps p (by simp)
    unfold placeCells
    rw [foldl_cons]
    refine (ih (fun q hq => hps q (by simp [hq])) (placeStep_ok is2d hp h)).trans ?_
    by_cases e : x = p.stream
    · subst e
      rw [Function.update_self, (placeCell_spec hp (h p.stream).toCellsOk is2d).2.1]
    · rw [Function.update_of_ne e]

/-- A named cell holds the last token that it got. -/
theorem placeCells_mem (hps : ∀ p ∈ ps, p.Ok cfg) (h : ∀ x, StreamOk cfg x (cells x))
    {x i : Nat} (hn : Named ps x i) : ∃ p ∈ ps, p.stream = x ∧ p.cell = i ∧
      ∃ k, (placeCells is2d ps cells x).cell i = Cell.place is2d p.token k := by
  induction ps generalizing cells with
  | nil => obtain ⟨p, hp, -⟩ := hn; cases hp
  | cons p ps ih =>
    have hp := hps p (by simp)
    have hps' : ∀ q ∈ ps, q.Ok cfg := fun q hq => hps q (by simp [hq])
    unfold placeCells
    rw [foldl_cons]
    by_cases hm : Named ps x i
    · obtain ⟨q, hq, hx, hi, k, hk⟩ := ih hps' (placeStep_ok is2d hp h) hm
      exact ⟨q, by simp [hq], hx, hi, k, hk⟩
    · have hpx : p.stream = x ∧ p.cell = i := by
        obtain ⟨q, hq, hqx⟩ := hn
        rcases mem_cons.mp hq with rfl | hq
        · exact hqx
        · exact absurd ⟨q, hq, hqx⟩ hm
      refine ⟨p, by simp, hpx.1, hpx.2, (cells x).cell i, ?_⟩
      refine (placeCells_of_notMem is2d hps' (placeStep_ok is2d hp h) hm).trans ?_
      obtain ⟨rfl, rfl⟩ := hpx
      rw [Function.update_self, (placeCell_spec hp (h p.stream).toCellsOk is2d).2.2, if_pos rfl]

end PlaceCells

/-! ## The rest of the cache -/

/-- The tail store, if there is one, keeps its invariant. -/
def TailOk (o : Option TailStore) : Prop := ∀ t, o = some t → t.Inv

/-- The allocation heads after a token: behind its cell for its owners. -/
def ownerHeads (cfg : CacheCfg) (cell : Nat) (ss : List Nat) (heads : Nat → Nat) : Nat → Nat :=
  fun s => if cfg.structured = true ∧ s ∈ ss then cell + 1 else heads s

/-- The cache after the loop over the tokens: other cells, allocation heads, and if the tail is
live another tail and generations. -/
structure Applied (st st' : KvCache) (cells : Nat → KvCells) (heads : Nat → Nat) : Prop where
  eq : ∃ gens tail ord, st' = { st with
    cells := cells
    allocationSeqHeads := heads
    tailGenerations := gens
    tail := tail
    tailOrdinal := ord }
  dead : st.tailLive = false → st'.tail = st.tail
  tail : TailOk st.tail → TailOk st'.tail
  isSome : st'.tail.isSome = st.tail.isSome

section Applied

variable {st st₁ st' : KvCache} {cells cells' : Nat → KvCells} {heads heads' : Nat → Nat}

theorem Applied.cells_eq (h : Applied st st' cells heads) : st'.cells = cells := by
  obtain ⟨_, _, _, rfl⟩ := h.eq; rfl

theorem Applied.alloc_eq (h : Applied st st' cells heads) : st'.allocationSeqHeads = heads := by
  obtain ⟨_, _, _, rfl⟩ := h.eq; rfl

theorem Applied.cfg_eq (h : Applied st st' cells heads) : st'.cfg = st.cfg := by
  obtain ⟨_, _, _, rfl⟩ := h.eq; rfl

theorem Applied.live_eq (h : Applied st st' cells heads) : st'.tailLive = st.tailLive := by
  have hs := h.isSome
  obtain ⟨_, _, _, rfl⟩ := h.eq
  unfold tailLive
  rw [hs]

theorem Applied.refl (st : KvCache) : Applied st st st.cells st.allocationSeqHeads :=
  ⟨⟨_, _, _, rfl⟩, fun _ => rfl, id, rfl⟩

theorem Applied.trans (h : Applied st st₁ cells heads) (h' : Applied st₁ st' cells' heads') :
    Applied st st' cells' heads' where
  eq := by
    obtain ⟨_, _, _, rfl⟩ := h.eq
    obtain ⟨_, _, _, e⟩ := h'.eq
    exact ⟨_, _, _, e⟩
  dead hl := (h'.dead (h.live_eq.trans hl)).trans (h.dead hl)
  tail ht := h'.tail (h.tail ht)
  isSome := h'.isSome.trans h.isSome

theorem setCells_applied (st : KvCache) (x : Nat) (c : KvCells) :
    Applied st (st.setCells x c) (Function.update st.cells x c) st.allocationSeqHeads :=
  ⟨⟨_, _, _, rfl⟩, fun _ => rfl, id, rfl⟩

theorem recycleCell_applied (st : KvCache) (x idx : Nat) :
    Applied st (st.recycleCell x idx) st.cells st.allocationSeqHeads := by
  unfold recycleCell
  split
  · next hl =>
    refine ⟨⟨_, _, _, rfl⟩, fun hn => ?_, fun ht t e => ?_, ?_⟩
    · rw [hl] at hn; cases hn
    · obtain ⟨t0, h0, rfl⟩ := Option.map_eq_some_iff.mp e
      exact (ht t0 h0).recycle
    · simp
  · exact Applied.refl st

theorem addOwner_applied {p : Placement} {s : Nat} (e : st.addOwner p s = (st', .ok ())) :
    Applied st st'
      (Function.update st.cells p.stream ((st.cells p.stream).seqAdd p.cell s))
      (ownerHeads st.cfg p.cell [s] st.allocationSeqHeads) := by
  have hheads : ownerHeads st.cfg p.cell [s] st.allocationSeqHeads =
      if st.cfg.structured = true then Function.update st.allocationSeqHeads s (p.cell + 1)
      else st.allocationSeqHeads := by
    funext r
    unfold ownerHeads
    by_cases hc : st.cfg.structured = true
    · by_cases hr : r = s
      · simp [hc, hr]
      · simp [hc, hr]
    · simp [hc]
  rw [hheads]
  have key : ∀ st₁ : KvCache, (∃ heads, heads = (if st.cfg.structured = true then
        Function.update st.allocationSeqHeads s (p.cell + 1) else st.allocationSeqHeads) ∧
      st₁ = { st with
        cells := Function.update st.cells p.stream ((st.cells p.stream).seqAdd p.cell s)
        allocationSeqHeads := heads }) →
      ((if st₁.tailLive = true then
        { st₁ with tailOrdinal := st₁.tailOrdinal + 1 }.onTail fun t =>
          t.commit s ⟨p.stream, p.cell, st₁.tailGenerations p.stream p.cell⟩ p.token.pos
            st₁.tailOrdinal (if st₁.hasCompactTail then p.row else UINT32_MAX)
        else (st₁, .ok ())) = (st', .ok ())) →
      Applied st st' (Function.update st.cells p.stream ((st.cells p.stream).seqAdd p.cell s))
        (if st.cfg.structured = true then Function.update st.allocationSeqHeads s (p.cell + 1)
          else st.allocationSeqHeads) := by
    rintro st₁ ⟨heads, hh, rfl⟩ e
    rw [← hh]
    split at e
    · next hl =>
      rcases onTail_ok e with ⟨hn, rfl⟩ | ⟨t, t', a, ht, ha, rfl⟩
      · exact ⟨⟨_, _, _, rfl⟩, fun _ => rfl, id, rfl⟩
      · refine ⟨⟨_, _, _, rfl⟩, fun hn => ?_, fun hi t1 h1 => ?_, ?_⟩
        · have hl' : st.tailLive = true := hl
          rw [hl'] at hn; cases hn
        · cases h1
          have := (hi t ht).commit s
            ⟨p.stream, p.cell, st.tailGenerations p.stream p.cell⟩ p.token.pos st.tailOrdinal
            (if st.hasCompactTail then p.row else UINT32_MAX)
          have ha' : t.commit s ⟨p.stream, p.cell, st.tailGenerations p.stream p.cell⟩ p.token.pos
              st.tailOrdinal (if st.hasCompactTail then p.row else UINT32_MAX) = (t', .ok a) := ha
          rwa [ha'] at this
        · have ht' : st.tail = some t := ht
          rw [ht']; rfl
    · cases e
      exact ⟨⟨_, _, _, rfl⟩, fun _ => rfl, id, rfl⟩
  refine key _ ?_ e
  by_cases hc : st.cfg.structured = true
  · refine ⟨_, rfl, ?_⟩
    have : (st.setCells p.stream ((st.cells p.stream).seqAdd p.cell s)).cfg.structured = true := hc
    rw [if_pos this, if_pos hc]
    rfl
  · refine ⟨_, rfl, ?_⟩
    have : ¬ (st.setCells p.stream ((st.cells p.stream).seqAdd p.cell s)).cfg.structured =
      true := hc
    rw [if_neg this, if_neg hc]
    rfl

theorem ownerHeads_cons (cfg : CacheCfg) (cell s : Nat) (ss : List Nat) (heads : Nat → Nat) :
    ownerHeads cfg cell ss (ownerHeads cfg cell [s] heads) =
      ownerHeads cfg cell (s :: ss) heads := by
  funext r
  unfold ownerHeads
  grind

theorem addOwners_applied {p : Placement} : ∀ {ss : List Nat} {st : KvCache},
    addOwners p ss st = (st', .ok ()) → Applied st st'
      (Function.update st.cells p.stream
        (ss.foldl (fun c s => c.seqAdd p.cell s) (st.cells p.stream)))
      (ownerHeads st.cfg p.cell ss st.allocationSeqHeads) := by
  intro ss
  induction ss with
  | nil =>
    intro st e
    obtain ⟨rfl, -⟩ := Prod.mk.inj e
    have hh : ownerHeads st.cfg p.cell [] st.allocationSeqHeads = st.allocationSeqHeads := by
      funext r; simp [ownerHeads]
    rw [hh, foldl_nil, Function.update_eq_self]
    exact Applied.refl st
  | cons s ss ih =>
    intro st e
    obtain ⟨st₁, u, e1, e2⟩ := andThen_ok e
    have h1 := addOwner_applied e1
    have h2 := ih e2
    rw [h1.cells_eq, h1.alloc_eq, h1.cfg_eq, Function.update_self, Function.update_idem,
      ownerHeads_cons] at h2
    exact h1.trans h2

theorem placeToken_applied {p : Placement} {is2d : Bool}
    (e : st.placeToken is2d p = (st', .ok ())) : Applied st st'
      (Function.update st.cells p.stream (placeCell is2d p (st.cells p.stream)))
      (ownerHeads st.cfg p.cell p.token.seqIds st.allocationSeqHeads) := by
  have h1 := recycleCell_applied st p.stream p.cell
  have h2 := h1.trans (setCells_applied (st.recycleCell p.stream p.cell) p.stream
    (fillCell is2d ((st.recycleCell p.stream p.cell).cells p.stream) p.cell p.token))
  have h3 := addOwners_applied e
  rw [h2.cells_eq, h2.alloc_eq, h2.cfg_eq, Function.update_self, Function.update_idem] at h3
  have h := h2.trans h3
  rwa [h1.cells_eq, h1.alloc_eq] at h

/-- The allocation heads after the loop over the tokens. -/
def placeHeads (cfg : CacheCfg) (ps : List Placement) (heads : Nat → Nat) : Nat → Nat :=
  ps.foldl (fun heads p => ownerHeads cfg p.cell p.token.seqIds heads) heads

theorem placeTokens_applied {is2d : Bool} {rm' : Nat → Int} :
    ∀ {ps : List Placement} {st : KvCache} {rm : Nat → Int},
    placeTokens is2d ps st rm = (st', .ok rm') →
      Applied st st' (placeCells is2d ps st.cells)
        (placeHeads st.cfg ps st.allocationSeqHeads) ∧ rm' = noteAll is2d ps st.cells rm := by
  intro ps
  induction ps with
  | nil =>
    intro st rm e
    obtain ⟨rfl, e'⟩ := Prod.mk.inj e
    exact ⟨Applied.refl st, (Except.ok.inj e').symm⟩
  | cons p ps ih =>
    intro st rm e
    obtain ⟨st₁, u, e1, e2⟩ := andThen_ok e
    have h1 := placeToken_applied e1
    obtain ⟨h2, hrm⟩ := ih e2
    rw [h1.cells_eq, h1.alloc_eq, h1.cfg_eq] at h2
    rw [h1.cells_eq] at hrm
    exact ⟨h1.trans h2, hrm⟩

end Applied

/-! ## The invariant -/

section Inv

variable {st st₁ st' : KvCache}

/-- The slot and the ubatch meet what `apply_ubatch` relies on. -/
def SlotOk (cfg : CacheCfg) (i : SlotInfo) (u : Ubatch) : Prop := ∀ p ∈ i.placements u, p.Ok cfg

theorem Inv.of_applied {ps : List Placement} {is2d : Bool} {heads : Nat → Nat} (h : st.Inv)
    (hps : ∀ p ∈ ps, p.Ok st.cfg) (ha : Applied st st' (placeCells is2d ps st.cells) heads) :
    st'.Inv := by
  refine ⟨fun x => ?_, ha.tail h.tail⟩
  rw [ha.cells_eq, ha.cfg_eq]
  exact placeCells_ok is2d hps h.cells x

theorem Inv.beginTail (h : st.Inv) (e : st.beginTail = (st', .ok ())) :
    st'.Inv ∧ st'.cfg = st.cfg ∧ st'.cells = st.cells := by
  unfold KvCache.beginTail at e
  split at e
  · have key : ∀ st0 : KvCache, st0.Inv → st0.cfg = st.cfg → st0.cells = st.cells →
        (st0.onTail fun t => t.beginBatch) = (st', .ok ()) →
        st'.Inv ∧ st'.cfg = st.cfg ∧ st'.cells = st.cells := by
      intro st0 h0 hcfg hcells e
      obtain ⟨h', hcfg'⟩ := h0.onTail (fun t t' a ht et => ht.beginBatch et) e
      refine ⟨h', hcfg'.trans hcfg, ?_⟩
      rcases onTail_ok e with ⟨-, rfl⟩ | ⟨t, t', a, -, -, rfl⟩ <;> exact hcells
    refine key _ ?_ ?_ ?_ e
    all_goals split
    · exact ⟨h.cells, h.tail⟩
    · exact h
    all_goals rfl
  · cases e
    exact ⟨h, rfl, rfl⟩

theorem Inv.purgeSeq {rm : Nat → Int} {s : Nat} (h : st.Inv)
    (e : st.purgeSeq rm s = (st', .ok ())) : st'.Inv ∧ st'.cfg = st.cfg := by
  unfold KvCache.purgeSeq at e
  split at e
  · cases e
    exact ⟨h, rfl⟩
  · split at e
    · dsimp only at e
      split at e
      · exact h.seqRmUnchecked e
      · cases e
        exact ⟨h, rfl⟩
    · cases e

theorem Inv.purge {rm : Nat → Int} : ∀ {ss : List Nat} {st : KvCache}, st.Inv →
    KvCache.purge rm ss st = (st', .ok ()) → st'.Inv ∧ st'.cfg = st.cfg := by
  intro ss
  induction ss with
  | nil =>
    intro st h e
    cases e
    exact ⟨h, rfl⟩
  | cons s ss ih =>
    intro st h e
    obtain ⟨st₁, u, e1, e2⟩ := andThen_ok e
    obtain ⟨h1, hcfg1⟩ := h.purgeSeq e1
    obtain ⟨h2, hcfg2⟩ := ih h1 e2
    exact ⟨h2, hcfg2.trans hcfg1⟩

theorem moveHeads_eq (st : KvCache) (i : SlotInfo) :
    ∃ heads, st.moveHeads i = { st with heads := heads } := by
  unfold moveHeads
  induction i.strm.zip i.idxs generalizing st with
  | nil => exact ⟨_, rfl⟩
  | cons p l ih =>
    obtain ⟨heads, e⟩ := ih (st.setHead p.1 (p.2.getLastD 0 + 1))
    exact ⟨heads, e⟩

theorem Inv.applyUbatch {i : SlotInfo} {u : Ubatch} (h : st.Inv) (hi : SlotOk st.cfg i u)
    (e : st.applyUbatch i u = (st', .ok ())) : st'.Inv ∧ st'.cfg = st.cfg := by
  obtain ⟨st₁, a1, e1, e⟩ := andThen_ok e
  obtain ⟨h1, hcfg1, -⟩ := h.beginTail e1
  obtain ⟨st2, rm, e2, e⟩ := andThen_ok e
  obtain ⟨ha, -⟩ := placeTokens_applied e2
  have h2 := h1.of_applied (by rw [hcfg1]; exact hi) ha
  obtain ⟨st3, a3, e3, e⟩ := andThen_ok e
  obtain ⟨h3, hcfg3⟩ := h2.purge e3
  cases e
  obtain ⟨heads, eh⟩ := moveHeads_eq st3 i
  rw [eh]
  exact ⟨⟨h3.cells, h3.tail⟩, hcfg3.trans (ha.cfg_eq.trans hcfg1)⟩

theorem Inv.finishTailBatch {success payload : Bool} (h : st.Inv)
    (e : st.finishTailBatch success payload = (st', .ok ())) : st'.Inv ∧ st'.cfg = st.cfg := by
  unfold KvCache.finishTailBatch at e
  split at e
  · obtain ⟨st₁, a1, e1, e⟩ := andThen_ok e
    obtain ⟨h1, hcfg1⟩ := h.onTail (fun t t' a ht et => ht.finishBatch et) e1
    cases e
    exact ⟨⟨h1.cells, h1.tail⟩, hcfg1⟩
  · cases e
    exact ⟨h, rfl⟩

end Inv

end KvCache
end BeeLlama
