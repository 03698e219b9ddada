import BeeLlama.Kv.UbatchInv
import Mathlib.Data.Nat.ModEq

/-!
# What `find_slot` returns

`findSlot_ok`: the search changes the flags of the sealed groups only. The cells that it returns
are in range and differ, each token gets one, and an occupied one among them belongs to exactly
one sequence.
-/

namespace BeeLlama

open List Bool

/-- What the batch allocator promises of a ubatch. With several streams the tokens of a sequence
follow each other, as many for each sequence. -/
structure Ubatch.Ok (cfg : CacheCfg) (u : Ubatch) : Prop where
  pos : ∀ t ∈ u.tokens, 0 ≤ t.pos
  nodup : ∀ t ∈ u.tokens, t.seqIds.Nodup
  lt : ∀ t ∈ u.tokens, ∀ s ∈ t.seqIds, s < LLAMA_MAX_SEQ
  unq : u.seqIdUnq.Nodup
  ne : u.seqIdUnq ≠ []
  equal : cfg.nStream > 1 → ∀ k t, u.tokens[k]? = some t →
    t.seqIds = [u.seqIdUnq.getD (k / (u.tokens.length / u.seqIdUnq.length)) 0]

/-- The placement of a token is at its place in the ubatch. -/
theorem SlotInfo.mem_placements {i : SlotInfo} {u : Ubatch} {p : Placement}
    (hp : p ∈ i.placements u) :
    i.cells[p.row]? = some (p.stream, p.cell) ∧ u.tokens[p.row]? = some p.token := by
  obtain ⟨⟨⟨⟨x, j⟩, t⟩, k⟩, hk, rfl⟩ := mem_map.mp hp
  have := mem_zipIdx_iff_getElem?.mp hk
  rw [getElem?_zip_eq_some] at this
  exact this

theorem SlotInfo.placement_of_getElem? {i : SlotInfo} {u : Ubatch} {k : Nat} {c : Nat × Nat}
    {t : UToken} (hc : i.cells[k]? = some c) (ht : u.tokens[k]? = some t) :
    (⟨c.1, c.2, t, k⟩ : Placement) ∈ i.placements u := by
  refine mem_map.mpr ⟨((c, t), k), ?_, rfl⟩
  rw [mem_zipIdx_iff_getElem?, getElem?_zip_eq_some]
  exact ⟨hc, ht⟩

namespace KvCache

/-! ## The order of the search -/

theorem cellsFrom_lt {size head i : Nat} (h : i ∈ SearchState.cellsFrom size head) : i < size := by
  obtain ⟨k, hk, rfl⟩ := mem_map.mp h
  have : k < size := mem_range.mp hk
  exact Nat.mod_lt _ (by omega)

theorem cellsFrom_nodup (size head : Nat) : (SearchState.cellsFrom size head).Nodup := by
  refine List.Nodup.map_on (fun a ha b hb e => ?_) nodup_range
  have ha := mem_range.mp ha
  have hb := mem_range.mp hb
  exact Nat.ModEq.eq_of_lt_of_lt (Nat.ModEq.add_left_cancel' _ e) ha hb

/-! ## The cells of a slot -/

section Blocks

variable {α : Type}

/-- The cells of blocks of `n` cells: the one at `k` is in block `k / n`. -/
theorem blocks_getElem? {n : Nat} : ∀ {L : List (Nat × List α)}, (∀ b ∈ L, b.2.length = n) →
    ∀ {k : Nat} {c : Nat × α}, (L.flatMap fun b => b.2.map fun j => (b.1, j))[k]? = some c →
      ∃ b, L[k / n]? = some b ∧ b.1 = c.1 ∧ c.2 ∈ b.2 := by
  intro L
  induction L with
  | nil => intro _ k c e; simp at e
  | cons b L ih =>
    intro hL k c e
    have hb : b.2.length = n := hL b (by simp)
    rw [flatMap_cons] at e
    by_cases hk : k < n
    · rw [getElem?_append_left (by simpa [hb] using hk), getElem?_map] at e
      obtain ⟨j, hj, rfl⟩ := Option.map_eq_some_iff.mp e
      refine ⟨b, ?_, rfl, mem_of_getElem? hj⟩
      rw [Nat.div_eq_of_lt hk]
      rfl
    · have hle : n ≤ k := by omega
      rw [getElem?_append_right (by simpa [hb] using hle), length_map, hb] at e
      obtain ⟨b', hb', hx⟩ := ih (fun b hb => hL b (by simp [hb])) e
      refine ⟨b', ?_, hx⟩
      have hn : 0 < n := by
        rcases Nat.eq_zero_or_pos n with h0 | h0
        · subst h0
          have : ∀ b ∈ L, b.2 = [] := fun b hb => length_eq_zero_iff.mp (hL b (by simp [hb]))
          rw [show (L.flatMap fun b => b.2.map fun j => (b.1, j)) = [] from
            flatMap_eq_nil_iff.mpr fun b hb => by rw [this b hb]; rfl] at e
          simp at e
        · exact h0
      rw [show k / n = (k - n) / n + 1 by
        rw [← Nat.add_div_right _ hn, Nat.sub_add_cancel hle], getElem?_cons_succ]
      exact hb'

theorem blocks_length {n : Nat} {L : List (Nat × List α)} (hL : ∀ b ∈ L, b.2.length = n) :
    (L.flatMap fun b => b.2.map fun j => (b.1, j)).length = L.length * n := by
  induction L with
  | nil => simp
  | cons b L ih =>
    rw [flatMap_cons, length_append, ih fun b hb => hL b (by simp [hb]),
      length_map, hL b (by simp), length_cons, Nat.succ_mul, Nat.add_comm]

theorem blocks_nodup {L : List (Nat × List α)} (hx : (L.map (·.1)).Nodup)
    (hL : ∀ b ∈ L, b.2.Nodup) : (L.flatMap fun b => b.2.map fun j => (b.1, j)).Nodup := by
  rw [nodup_flatMap]
  refine ⟨fun b hb => (hL b hb).map fun i j e => (Prod.mk.inj e).2, ?_⟩
  rw [List.Nodup, pairwise_map] at hx
  refine hx.imp fun {a b} hne c ha hb => ?_
  obtain ⟨i, -, rfl⟩ := mem_map.mp ha
  obtain ⟨j, -, e⟩ := mem_map.mp hb
  exact hne (Prod.mk.inj e).1.symm

end Blocks

/-- What the cache knows of a slot that the search returned. -/
structure SlotFound (st : KvCache) (i : SlotInfo) (u : Ubatch) : Prop where
  ok : SlotOk st.cfg i u
  strm : i.strm.Nodup
  idxs : i.idxs.length = i.strm.length
  nodup : i.cells.Nodup
  length : i.cells.length = u.tokens.length
  lt : ∀ x j, (x, j) ∈ i.cells → j < st.cfg.kvSize
  one : ∀ x j, (x, j) ∈ i.cells → (st.cells x).pos j = -1 ∨ (st.cells x).seqCount j = 1

/-! ## The structured search -/

section Structured

variable {cfg : CacheCfg} {c : KvCells} {a a' : SearchState} {oneSeq : Bool}

/-- The cells found so far are reserved, differ, are in range and empty. -/
structure SearchState.Found (c : KvCells) (a : SearchState) : Prop where
  reserved : ∀ i ∈ a.idxs, a.reserved i = true
  nodup : a.idxs.Nodup
  lt : ∀ i ∈ a.idxs, i < c.size
  empty : ∀ i ∈ a.idxs, c.isEmpty i = true

/-- The inversion of `place`: the first usable cell in the order of the search is taken. -/
theorem SearchState.place_eq_some {left : Nat} {t : UToken}
    (e : a.place cfg c oneSeq left t = some a') :
    ∃ idx, idx ∈ cellsFrom c.size (a.heads (t.seqIds.foldl min (t.seqIds.headD 0))) ∧
      a.usable cfg c oneSeq left t idx = true ∧ a' = a.take cfg oneSeq left t idx := by
  obtain ⟨idx, hf, rfl⟩ := Option.map_eq_some_iff.mp e
  exact ⟨idx, mem_of_find?_eq_some hf, find?_some hf, rfl⟩

theorem SearchState.usable_free {left idx : Nat} {t : UToken}
    (h : a.usable cfg c oneSeq left t idx = true) :
    a.reserved idx = false ∧ c.isEmpty idx = true := by
  unfold SearchState.usable at h
  simp only [and_eq_true, not_eq_true'] at h
  exact ⟨h.1.1.1.1.1, h.1.1.1.1.2⟩

theorem SearchState.Found.place {left : Nat} {t : UToken} (h : a.Found c)
    (e : a.place cfg c oneSeq left t = some a') :
    a'.Found c ∧ a'.idxs.length = a.idxs.length + 1 := by
  obtain ⟨idx, hm, hu, rfl⟩ := SearchState.place_eq_some e
  obtain ⟨hr, he⟩ := SearchState.usable_free hu
  have hni : idx ∉ a.idxs := fun hi => by rw [h.reserved idx hi] at hr; cases hr
  refine ⟨⟨fun i hi => ?_, ?_, fun i hi => ?_, fun i hi => ?_⟩, by simp [SearchState.take]⟩
  · rcases mem_append.mp hi with hi | hi
    · by_cases hii : i = idx
      · simp [SearchState.take, hii]
      · simpa [SearchState.take, hii] using h.reserved i hi
    · simp [SearchState.take, mem_singleton.mp hi]
  · exact nodup_append.mpr ⟨h.nodup, by simp, fun i hi j hj e => by
      rw [mem_singleton.mp hj] at e
      exact hni (e ▸ hi)⟩
  · rcases mem_append.mp hi with hi | hi
    · exact h.lt i hi
    · rw [mem_singleton.mp hi]; exact cellsFrom_lt hm
  · rcases mem_append.mp hi with hi | hi
    · exact h.empty i hi
    · rw [mem_singleton.mp hi]; exact he

theorem SearchState.Found.placeAll : ∀ {ts : List UToken} {a : SearchState}, a.Found c →
    a.placeAll cfg c oneSeq ts = (a', .ok true) →
    a'.Found c ∧ a'.idxs.length = a.idxs.length + ts.length := by
  intro ts
  induction ts with
  | nil =>
    intro a h e
    cases e
    exact ⟨h, rfl⟩
  | cons t ts ih =>
    intro a h e
    unfold SearchState.placeAll at e
    split at e
    · cases e
    · split at e
      · cases e
      · split at e
        · cases (Except.ok.inj (Prod.mk.inj e).2)
        · next a1 e1 =>
          obtain ⟨h1, hl1⟩ := h.place e1
          obtain ⟨h2, hl2⟩ := ih h1 e
          exact ⟨h2, by rw [hl2, hl1, length_cons]; omega⟩

theorem SearchState.seedGroup_idxs (cfg : CacheCfg) (a : SearchState) (g : Nat) :
    (a.seedGroup cfg g).1.idxs = a.idxs := by
  unfold SearchState.seedGroup
  split
  · rfl
  · split
    · rfl
    · split
      · rfl
      · dsimp only
        split <;> rfl

theorem SearchState.seedGroups_idxs (cfg : CacheCfg) (gs : List Nat) : ∀ a : SearchState,
    (SearchState.seedGroups cfg gs a).1.idxs = a.idxs := by
  induction gs with
  | nil => exact fun _ => rfl
  | cons g gs ih =>
    intro a
    unfold SearchState.seedGroups
    split
    · next e => rw [← SearchState.seedGroup_idxs cfg a g, e]
    · next a1 e =>
      rw [ih, ← SearchState.seedGroup_idxs cfg a g, e]

theorem searchStructured_found {st : KvCache} {u : Ubatch} {a : SearchState}
    (e : st.searchStructured u = (a, .ok true)) :
    a.Found (st.cells 0) ∧ a.idxs.length = u.tokens.length := by
  unfold searchStructured at e
  split at e
  · cases e
  · next a0 e0 =>
    have hi : a0.idxs = [] := by
      have := SearchState.seedGroups_idxs st.cfg (List.range st.cfg.nGroups).tail
        { heads := st.allocationSeqHeads
          groupUsed := KvCache.groupUsed st.cfg (st.cells 0)
          stageOwners := fun slot =>
            if slot = 0 ∧ (st.cells 0).isEmpty 0 = false then some 0 else none
          sealed := if st.allocationGroupSealed.length ≠ st.cfg.nGroups then
            List.replicate st.cfg.nGroups false else st.allocationGroupSealed }
      unfold SearchState.seed at e0
      rw [e0] at this
      exact this
    have h0 : a0.Found (st.cells 0) := by
      constructor <;> simp [hi]
    obtain ⟨h, hl⟩ := h0.placeAll e
    exact ⟨h, by rw [hl, hi]; simp⟩

end Structured

/-! ## The plain search -/

section Plain

variable {st : KvCache} {u : Ubatch} {i : SlotInfo}

theorem canUse_one {cfg : CacheCfg} {c : KvCells} {s idx : Nat} (h : canUse cfg c s idx = true) :
    c.pos idx = -1 ∨ c.seqCount idx = 1 := by
  unfold canUse at h
  simp only [or_eq_true, and_eq_true, decide_eq_true_eq, KvCells.isEmpty, beq_iff_eq] at h
  rcases h with ⟨h, -⟩ | ⟨h, -⟩
  · exact .inl h
  · exact .inr h

theorem findInStream_some {n s : Nat} {idxs : List Nat} (e : st.findInStream n s = some idxs) :
    idxs.length = n ∧ idxs.Nodup ∧
      ∀ j ∈ idxs, j < (st.cells (st.cfg.seqToStream s)).size ∧
        canUse st.cfg (st.cells (st.cfg.seqToStream s)) s j = true := by
  unfold findInStream at e
  dsimp only at e
  generalize (if st.heads _ > _ then 0 else st.heads _) = head at e
  split at e
  · cases e
  · split at e
    · next hl =>
      cases e
      refine ⟨hl, ?_, fun j hj => ?_⟩
      · exact ((cellsFrom_nodup _ _).filter _).sublist (take_sublist _ _)
      · obtain ⟨hm, hc⟩ := mem_filter.mp (mem_of_mem_take hj)
        exact ⟨cellsFrom_lt hm, hc⟩
    · cases e

theorem mapM_forall₂ {α β : Type} {f : α → Option β} : ∀ {l : List α} {r : List β},
    l.mapM f = some r → List.Forall₂ (fun a b => f a = some b) l r := by
  intro l
  induction l with
  | nil =>
    intro r e
    obtain rfl : [] = r := Option.some.inj e
    exact List.Forall₂.nil
  | cons a l ih =>
    intro r e
    rw [mapM_cons] at e
    obtain ⟨b, hb, e⟩ := Option.bind_eq_some_iff.mp e
    obtain ⟨bs, hbs, e⟩ := Option.bind_eq_some_iff.mp e
    cases e
    exact List.Forall₂.cons hb (ih hbs)

/-- What the plain search returns: for each sequence the cells of its stream. -/
theorem findSlotPlain_some (e : st.findSlotPlain u = .ok (some i)) :
    ∃ seqs n, seqs = (if st.cfg.nStream > 1 then u.seqIdUnq else u.seqIdUnq.take 1) ∧
      n = (if st.cfg.nStream > 1 then u.tokens.length / u.seqIdUnq.length else u.tokens.length) ∧
      st.streamsAssert u n = true ∧ i.strm = seqs.map st.cfg.seqToStream ∧
      List.Forall₂ (fun s idxs => st.findInStream n s = some idxs) seqs i.idxs := by
  unfold findSlotPlain at e
  dsimp only at e
  generalize hs : (if st.cfg.nStream > 1 then u.seqIdUnq else u.seqIdUnq.take 1) = seqs at e
  generalize hn : (if st.cfg.nStream > 1 then u.tokens.length / u.seqIdUnq.length
    else u.tokens.length) = n at e
  split at e
  · cases e
  · next ha =>
    obtain ⟨idxs, hm, rfl⟩ := Option.map_eq_some_iff.mp (Except.ok.inj e)
    exact ⟨seqs, n, rfl, rfl, by simpa using ha, rfl, mapM_forall₂ hm⟩

/-- The blocks of a slot: each one is of a sequence. -/
theorem mem_blocks {seqs : List Nat} {idxs : List (List Nat)} {f : Nat → Nat}
    {R : Nat → List Nat → Prop} (h : List.Forall₂ R seqs idxs) :
    ∀ b ∈ (seqs.map f).zip idxs, ∃ s ∈ seqs, b.1 = f s ∧ R s b.2 := by
  induction h with
  | nil => intro b hb; cases hb
  | @cons s l ss ls hR _ ih =>
    intro b hb
    rw [map_cons, zip_cons_cons] at hb
    rcases mem_cons.mp hb with rfl | hb
    · exact ⟨s, by simp, rfl, hR⟩
    · obtain ⟨s', hs', hb⟩ := ih b hb
      exact ⟨s', by simp [hs'], hb⟩

theorem findSlotPlain_found (h : st.Inv) (hu : u.Ok st.cfg)
    (e : st.findSlotPlain u = .ok (some i)) : SlotFound st i u := by
  obtain ⟨seqs, n, hseqs, hn, ha, hstrm, hidx⟩ := findSlotPlain_some e
  have hblocks : ∀ b ∈ i.strm.zip i.idxs, ∃ s ∈ seqs, b.1 = st.cfg.seqToStream s ∧
      st.findInStream n s = some b.2 := by
    rw [hstrm]; exact mem_blocks hidx
  have hlen : ∀ b ∈ i.strm.zip i.idxs, b.2.length = n := fun b hb => by
    obtain ⟨s, -, -, hf⟩ := hblocks b hb
    exact (findInStream_some hf).1
  have hil : i.idxs.length = i.strm.length := by rw [hstrm, length_map, hidx.length_eq]
  have hfst : (i.strm.zip i.idxs).map (·.1) = i.strm := map_fst_zip hil.ge
  have hcell : ∀ x j, (x, j) ∈ i.cells → j < (st.cells x).size ∧
      ∃ s, canUse st.cfg (st.cells x) s j = true := by
    intro x j hm
    obtain ⟨b, hb, hj⟩ := mem_flatMap.mp hm
    obtain ⟨j', hj', e⟩ := mem_map.mp hj
    obtain ⟨rfl, rfl⟩ := Prod.mk.inj e
    obtain ⟨s, -, hs, hf⟩ := hblocks b hb
    obtain ⟨hlt, hc⟩ := (findInStream_some hf).2.2 j' hj'
    rw [hs]
    exact ⟨hlt, s, hc⟩
  have hlt : ∀ x j, (x, j) ∈ i.cells → j < st.cfg.kvSize := fun x j hm => by
    rw [← (h.cells x).size]; exact (hcell x j hm).1
  have hstrmN : i.strm.Nodup := by
    rw [hstrm, hseqs]
    split
    · next h1 =>
      have : ∀ s, st.cfg.seqToStream s = s := fun s => if_pos h1
      rw [map_congr_left (g := id) fun s _ => this s, map_id]
      exact hu.unq
    · cases u.seqIdUnq <;> simp
  refine ⟨fun p hp => ?_, hstrmN, hil, ?_, ?_, hlt, fun x j hm => ?_⟩
  · obtain ⟨hpc, hpt⟩ := SlotInfo.mem_placements hp
    have htm := mem_of_getElem? hpt
    refine ⟨hlt _ _ (mem_of_getElem? hpc), hu.pos _ htm, hu.nodup _ htm, hu.lt _ htm, ?_⟩
    intro s hs
    obtain ⟨b, hb, hx, -⟩ := blocks_getElem? hlen hpc
    replace hx : b.1 = p.stream := hx
    by_cases h1 : st.cfg.nStream > 1
    · rw [hu.equal h1 _ _ hpt, mem_singleton] at hs
      rw [if_pos h1] at hn hseqs
      have hb1 : i.strm[p.row / n]? = some b.1 := by
        rw [getElem?_zip_eq_some] at hb
        exact hb.1
      rw [hstrm, hseqs, getElem?_map] at hb1
      obtain ⟨s', hs', e'⟩ := Option.map_eq_some_iff.mp hb1
      rw [← hx, ← e', hs, ← hn, getD_eq_getElem?_getD, hs', Option.getD_some]
    · obtain ⟨s', -, hs', -⟩ := hblocks b (mem_of_getElem? hb)
      have h0 : ∀ r, st.cfg.seqToStream r = 0 := fun r => if_neg h1
      rw [← hx, hs', h0, h0]
  · refine blocks_nodup (by rw [hfst]; exact hstrmN) fun b hb => ?_
    obtain ⟨s, -, -, hf⟩ := hblocks b hb
    exact (findInStream_some hf).2.1
  · have hl : i.cells.length = (i.strm.zip i.idxs).length * n := blocks_length hlen
    rw [hl, length_zip, hil, Nat.min_self, hstrm, length_map, hseqs, hn]
    by_cases h1 : st.cfg.nStream > 1
    · rw [if_pos h1, if_pos h1]
      unfold streamsAssert at ha
      simp only [or_eq_true, decide_eq_true_eq, and_eq_true] at ha
      rcases ha with ha | ⟨ha, -⟩
      · omega
      · exact Nat.mul_div_cancel' (Nat.dvd_of_mod_eq_zero ha)
    · rw [if_neg h1, if_neg h1]
      have := hu.ne
      cases hq : u.seqIdUnq with
      | nil => exact absurd hq this
      | cons s l => simp
  · obtain ⟨-, s, hc⟩ := hcell x j hm
    exact canUse_one hc

end Plain

/-- The search changes the flags of the sealed groups only. -/
theorem findSlot_eq {st st' : KvCache} {u : Ubatch} {r : Except KvError (Option SlotInfo)}
    (e : st.findSlot u = (st', r)) :
    ∃ sealed, st' = { st with allocationGroupSealed := sealed } := by
  unfold findSlot at e
  split at e
  · unfold findSlotStructured at e
    dsimp only at e
    split at e <;> exact ⟨_, (Prod.mk.inj e).1.symm⟩
  · exact ⟨_, (Prod.mk.inj e).1.symm⟩

theorem findSlot_ok {st st' : KvCache} {u : Ubatch} {i : SlotInfo} (h : st.Inv)
    (hu : u.Ok st.cfg) (e : st.findSlot u = (st', .ok (some i))) :
    (∃ sealed, st' = { st with allocationGroupSealed := sealed }) ∧ SlotFound st i u := by
  unfold findSlot at e
  split at e
  · next hs =>
    unfold findSlotStructured at e
    dsimp only at e
    split at e
    · cases e
    · cases e
    · next hr =>
      obtain ⟨rfl, e'⟩ := Prod.mk.inj e
      obtain rfl := Option.some.inj (Except.ok.inj e')
      refine ⟨⟨_, rfl⟩, ?_⟩
      obtain ⟨hf, hl⟩ := searchStructured_found (a := (st.searchStructured u).1) (Prod.ext rfl hr)
      have hcells : ∀ j, (0, j) ∈ (⟨0, 0, [0], [(st.searchStructured u).1.idxs]⟩ : SlotInfo).cells ↔
          j ∈ (st.searchStructured u).1.idxs := by
        intro j; simp [SlotInfo.cells]
      have hz : ∀ x j, (x, j) ∈ (⟨0, 0, [0], [(st.searchStructured u).1.idxs]⟩ :
          SlotInfo).cells → x = 0 := by
        intro x j hm; simp [SlotInfo.cells] at hm; exact hm.2.symm
      have hlt : ∀ x j, (x, j) ∈ (⟨0, 0, [0], [(st.searchStructured u).1.idxs]⟩ :
          SlotInfo).cells → j < st.cfg.kvSize := by
        intro x j hm
        obtain rfl := hz x j hm
        rw [← (h.cells 0).size]
        exact hf.lt j ((hcells j).mp hm)
      refine ⟨fun p hp => ?_, by simp, rfl, ?_, ?_, hlt, fun x j hm => ?_⟩
      · obtain ⟨hpc, hpt⟩ := SlotInfo.mem_placements hp
        have htm := mem_of_getElem? hpt
        have hpm := mem_of_getElem? hpc
        refine ⟨hlt _ _ hpm, hu.pos _ htm, hu.nodup _ htm, hu.lt _ htm, fun s _ => ?_⟩
        have h1 : ¬ st.cfg.nStream > 1 := by
          unfold CacheCfg.structured at hs
          have := (of_decide_eq_true hs).2
          omega
        rw [hz _ _ hpm]
        exact if_neg h1
      · simpa [SlotInfo.cells] using hf.nodup.map fun a b (e : (0, a) = (0, b)) =>
          (Prod.mk.inj e).2
      · simpa [SlotInfo.cells] using hl
      · obtain rfl := hz x j hm
        have := hf.empty j ((hcells j).mp hm)
        exact .inl (by simpa [KvCells.isEmpty] using this)
  · obtain ⟨rfl, e'⟩ := Prod.mk.inj e
    exact ⟨⟨_, rfl⟩, findSlotPlain_found h hu e'⟩

end KvCache
end BeeLlama
