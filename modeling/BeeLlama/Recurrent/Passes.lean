import BeeLlama.Recurrent.Inv

/-!
# What the passes of `find_slot` do

The passes on a memory in which a sequence is at most in the cell at its tail (`Held`); a tail may
also be left over from a sequence that is gone, as after a removal of all sequences.

* `claim_spec`: every first sequence of a set gets a cell that no other sequence uses. There are as
  many cells as sequence ids, so there is a free cell when one is needed (`exists_free`). The search
  for the next empty cell could come to a cell that a set before has taken and that is still empty;
  it does not, because the free cells come first on the way round (`Ahead`).
* `gather_spec`: the swaps are a permutation of the cells, which the tails follow.
* `place_spec`: only the cells of the slot change.
* `exists_unread`: a cell of the slot that no cell has as its source, for the zeroed state.

`passes_spec` puts them together. A sequence that is not in the ubatch keeps its position, its
source and the other sequences of its cell that are not in the ubatch (`Kept`).
-/

namespace BeeLlama

open List Function Int

/-- The sequence sets of a ubatch, as the splitters of the batch make them. -/
structure RsUbatch.Ok (u : RsUbatch) : Prop where
  ne : u.sets ≠ []
  ids : ∀ s ∈ u.sets, s.seqIds ≠ []
  disjoint : u.sets.Pairwise fun a b => ∀ x ∈ a.seqIds, x ∉ b.seqIds

/-- The sequences of a ubatch. -/
def RsUbatch.seqs (u : RsUbatch) : Finset Nat := (u.sets.flatMap (·.seqIds.map Int.toNat)).toFinset

/-- The first sequences of the sets. -/
def RsUbatch.firsts (u : RsUbatch) : List Nat := u.sets.map RsSet.first

/-- The sequences that are not the first of their set. -/
def RsUbatch.others (u : RsUbatch) : Finset Nat :=
  (u.sets.flatMap (·.seqIds.tail.map Int.toNat)).toFinset

/-- The first sequences of the sets are different, and they are nowhere else in the ubatch. -/
structure RsUbatch.Apart (u : RsUbatch) : Prop where
  ne : u.sets ≠ []
  ids : ∀ s ∈ u.sets, s.seqIds ≠ []
  firsts : u.firsts.Nodup
  others : ∀ x ∈ u.firsts, x ∉ u.others

section

variable {u : RsUbatch}

theorem RsUbatch.mem_seqs {x : Nat} : x ∈ u.seqs ↔ ∃ s ∈ u.sets, x ∈ s.seqIds.map Int.toNat := by
  simp [RsUbatch.seqs]

theorem RsSet.first_mem {s : RsSet} (h : s.seqIds ≠ []) : s.first ∈ s.seqIds.map Int.toNat := by
  obtain ⟨id, rest, e⟩ := exists_cons_of_ne_nil h
  rw [RsSet.first, e]
  exact mem_cons_self

theorem RsUbatch.firsts_get {k : Nat} {s : RsSet} (hk : u.sets[k]? = some s) :
    u.firsts[k]? = some s.first := by
  rw [RsUbatch.firsts, getElem?_map, hk]
  rfl

theorem RsUbatch.Ok.first_mem (hu : u.Ok) {s : RsSet} (hs : s ∈ u.sets)
    (h0 : ∀ id ∈ s.seqIds, 0 ≤ id) : ((RsSet.first s : Nat) : Int) ∈ s.seqIds := by
  obtain ⟨id, rest, e⟩ := exists_cons_of_ne_nil (hu.ids s hs)
  have := h0 id (e ▸ mem_cons_self)
  rw [RsSet.first, e, headD_cons, toNat_of_nonneg this]
  exact List.mem_cons_self

/-- A sequence is in one set only. -/
theorem RsUbatch.Ok.eq_of_mem (hu : u.Ok) {j k : Nat} {s t : RsSet} (hs : u.sets[j]? = some s)
    (ht : u.sets[k]? = some t) {x : Int} (hxs : x ∈ s.seqIds) (hxt : x ∈ t.seqIds) : j = k := by
  have hp := List.pairwise_iff_getElem.mp hu.disjoint
  obtain ⟨hj, rfl⟩ := List.getElem?_eq_some_iff.mp hs
  obtain ⟨hk, rfl⟩ := List.getElem?_eq_some_iff.mp ht
  rcases lt_trichotomy j k with h | h | h
  · exact absurd hxt (hp j k hj hk h x hxs)
  · exact h
  · exact absurd hxs (hp k j hk hj h x hxt)

theorem RsUbatch.Ok.firsts_nodup (hu : u.Ok) (h0 : ∀ s ∈ u.sets, ∀ id ∈ s.seqIds, 0 ≤ id) :
    u.firsts.Nodup := by
  rw [RsUbatch.firsts, nodup_iff_pairwise_ne, pairwise_map]
  refine List.Pairwise.imp_of_mem (fun {s t} hs ht hd e => ?_) hu.disjoint
  have hx := hu.first_mem hs (h0 s hs)
  rw [e] at hx
  exact hd _ hx (hu.first_mem ht (h0 t ht))

end

/-- An injective map of a finite set to itself reaches everything. -/
theorem exists_preimage {S : Finset Nat} {f : Nat → Nat} {P : Nat → Nat → Prop}
    (hf : ∀ c ∈ S, f c ∈ S) (hP : ∀ c ∈ S, P (f c) c) (hinj : ∀ x c d, P x c → P x d → c = d)
    {x : Nat} (hx : x ∈ S) : ∃ c ∈ S, f c = x := by
  have hon : Set.InjOn f S := fun c hc d hd e => by
    have := hP d hd
    rw [← e] at this
    exact hinj _ c d (hP c hc) this
  obtain ⟨c, hc, e⟩ := Finset.surjOn_of_injOn_of_card_le f (fun c hc => hf c hc) hon le_rfl hx
  exact ⟨c, hc, e⟩

namespace RecurrentMemory

/-! ## What stays -/

/-- The configuration and the rollback indexes stay. -/
structure Frame (m m' : RecurrentMemory) : Prop where
  size : m'.size = m.size
  nSeqMax : m'.nSeqMax = m.nSeqMax
  nRsSeq : m'.nRsSeq = m.nRsSeq
  rsIdx : m'.rsIdx = m.rsIdx

theorem Frame.rfl {m : RecurrentMemory} : Frame m m := ⟨Eq.refl _, Eq.refl _, Eq.refl _, Eq.refl _⟩

theorem Frame.trans {m m' m'' : RecurrentMemory} (h : Frame m m') (h' : Frame m' m'') :
    Frame m m'' :=
  ⟨h'.size.trans h.size, h'.nSeqMax.trans h.nSeqMax, h'.nRsSeq.trans h.nRsSeq,
    h'.rsIdx.trans h.rsIdx⟩

/-- A sequence is at most in the cell at its tail. -/
structure Held (m : RecurrentMemory) : Prop where
  own : ∀ c, c < m.size → ∀ s ∈ m.seqId c, s < m.size ∧ m.tail s = c
  tail_lt : ∀ s, s < m.size → m.tail s < m.size

/-- The sequence is in the cell at its tail. -/
def Lives (m : RecurrentMemory) (x : Nat) : Prop :=
  0 ≤ m.tail x ∧ m.tail x < m.size ∧ x ∈ m.seqId (m.tail x).toNat

/-- The cell of sequence `x`, wherever it is now, is the one it was, without the sequences of
`out`. -/
structure Kept (m m' : RecurrentMemory) (out : Finset Nat) (x : Nat) : Prop where
  lives : m'.Lives x
  pos : m'.pos (m'.tail x).toNat = m.pos (m.tail x).toNat
  src : m'.src (m'.tail x).toNat = m.src (m.tail x).toNat
  seqId : m'.seqId (m'.tail x).toNat = m.seqId (m.tail x).toNat \ out

theorem Kept.trans {m m' m'' : RecurrentMemory} {out out' : Finset Nat} {x : Nat}
    (h : Kept m m' out x) (h' : Kept m' m'' out' x) : Kept m m'' (out ∪ out') x :=
  ⟨h'.lives, h'.pos.trans h.pos, h'.src.trans h.src, by
    rw [h'.seqId, h.seqId]
    exact sdiff_sdiff_left⟩

section

variable {m : RecurrentMemory}

theorem Held.not_mem (h : m.Held) {s c : Nat} (hc : c < m.size) (ht : m.tail s ≠ (c : Nat)) :
    s ∉ m.seqId c := fun hi => ht (h.own c hc s hi).2

theorem Held.lives (h : m.Held) {s c : Nat} (hc : c < m.size) (hs : s ∈ m.seqId c) : m.Lives s := by
  obtain ⟨-, e⟩ := h.own c hc s hs
  rw [Lives, e, toNat_natCast]
  exact ⟨by omega, by omega, hs⟩

variable {s : Nat} {e : Nat} {m' : RecurrentMemory} {a : Claims}

theorem Lives.lt (h : m.Held) (hs : m.Lives s) : s < m.size := by
  obtain ⟨h0, hlt, hmem⟩ := hs
  exact (h.own _ (by omega) s hmem).1

theorem Tails.held {waits : Nat → Prop} (h : m.Tails waits) : m.Held where
  own := h.own
  tail_lt s hs := by
    rcases h.tail s hs with e | ⟨c, hc, e, -⟩ <;> omega

theorem Inv.lives (h : m.Inv) (hs : s < m.size) (ht : 0 ≤ m.tail s) : m.Lives s := by
  obtain ⟨hc, hi⟩ := h.tails.mem_of_tail hs not_false ht
  exact ⟨ht, by omega, hi⟩

/-! ## Free cells -/

/-- The cell is empty, and it was not taken for a sequence of `done`. -/
def Free (m : RecurrentMemory) (done : List Nat) (c : Nat) : Prop :=
  c < m.size ∧ m.seqId c = ∅ ∧ ∀ x ∈ done, m.tail x ≠ (c : Nat)

variable {done : List Nat}

/-- If every cell were used or taken, every sequence would have a cell of its own. -/
theorem Held.exists_free (h : m.Held) (hdone : ∀ x ∈ done, x < m.size) (hs : s < m.size)
    (hneed : m.tail s < 0 ∨ ∃ t, m.Lives t ∧ t ≠ s ∧ m.tail t = m.tail s) :
    ∃ c, m.Free done c := by
  by_contra hno
  have hall : ∀ c, c < m.size → ∃ x, x < m.size ∧ m.tail x = (c : Nat) := by
    intro c hc
    by_cases he : m.seqId c = ∅
    · by_contra hx
      exact hno ⟨c, hc, he, fun x hxd e => hx ⟨x, hdone x hxd, e⟩⟩
    · obtain ⟨x, hx⟩ := Finset.nonempty_iff_ne_empty.mpr he
      exact ⟨x, h.own c hc x hx⟩
  choose! f hf using hall
  have hsurj : ∀ x, x < m.size → ∃ c, c < m.size ∧ f c = x := by
    intro x hx
    obtain ⟨c, hc, e⟩ := exists_preimage (S := Finset.range m.size) (f := f)
      (P := fun x c => m.tail x = (c : Nat))
      (fun c hc => Finset.mem_range.mpr (hf c (Finset.mem_range.mp hc)).1)
      (fun c hc => (hf c (Finset.mem_range.mp hc)).2) (fun x c d e e' => by omega)
      (Finset.mem_range.mpr hx)
    exact ⟨c, Finset.mem_range.mp hc, e⟩
  obtain ⟨c, hc, hcs⟩ := hsurj s hs
  have htc := (hf c hc).2
  rw [hcs] at htc
  rcases hneed with hneg | ⟨t, ht, hne, e⟩
  · omega
  · obtain ⟨c', hc', hct⟩ := hsurj t (ht.lt h)
    have htc' := (hf c' hc').2
    rw [hct] at htc'
    refine hne ?_
    rw [← hct, ← hcs]
    exact congrArg f (by omega)

/-! ## The searches -/

/-- How far cell `c` is ahead of cell `e` on the way round `n` cells. -/
def ahead (n e c : Nat) : Nat := if e ≤ c then c - e else c + n - e

theorem ahead_lt {n e c : Nat} (he : e < n) (hc : c < n) : ahead n e c < n := by
  unfold ahead
  split <;> omega

theorem ahead_inj {n e c d : Nat} (he : e < n) (hc : c < n) (hd : d < n)
    (h : ahead n e c = ahead n e d) :
    c = d := by
  unfold ahead at h
  split at h <;> split at h <;> omega

theorem ahead_succ {n e c : Nat} (he : e < n) (hc : c < n) (h : ahead n e c + 1 < n) :
    ahead n e (if c + 1 ≥ n then c + 1 - n else c + 1) = ahead n e c + 1 := by
  unfold ahead at *
  grind

/-- From the next empty cell on, the empty cells come in the same order. -/
theorem ahead_sub {n e d c : Nat} (he : e < n) (hd : d < n) (hc : c < n)
    (h : ahead n e d ≤ ahead n e c) : ahead n d c = ahead n e c - ahead n e d := by
  unfold ahead at *
  grind

theorem ahead_back {n e d : Nat} (he : e < n) (hd : d < n) (h : e ≠ d) :
    ahead n d e = n - ahead n e d := by
  unfold ahead
  grind

theorem nextEmpty_from (he : e < m.size) (k : Nat) :
    ∀ {p : Nat}, p < m.size → ahead m.size e p + k = m.size →
      (∀ y, y < m.size → y ≠ e → m.seqId y = ∅ → ahead m.size e p < ahead m.size e y) →
      (∃ x, x < m.size ∧ x ≠ e ∧ m.seqId x = ∅) →
      m.nextEmpty k p < m.size ∧ m.nextEmpty k p ≠ e ∧ m.seqId (m.nextEmpty k p) = ∅ ∧
        ∀ y, y < m.size → y ≠ e → m.seqId y = ∅ →
          ahead m.size e (m.nextEmpty k p) ≤ ahead m.size e y := by
  induction k with
  | zero =>
    intro p hp hk
    have := ahead_lt he hp
    omega
  | succ k ih =>
    rintro p hp hk hno ⟨x, hx, hxe, hxem⟩
    have hlt := ahead_lt he hx
    have hpx := hno x hx hxe hxem
    have hstep := ahead_succ he hp (by omega)
    unfold nextEmpty
    dsimp only
    set q := if p + 1 ≥ m.size then p + 1 - m.size else p + 1 with hq
    have hqlt : q < m.size := by
      rw [hq]
      split <;> omega
    have hqe : q ≠ e := by
      intro e'
      have : ahead m.size e e = 0 := by simp [ahead]
      rw [e', this] at hstep
      omega
    split
    · rename_i hem
      refine ⟨hqlt, hqe, decide_eq_true_iff.mp hem, fun y hy hye hyem => ?_⟩
      have := hno y hy hye hyem
      omega
    · rename_i hem
      refine ih hqlt (by omega) (fun y hy hye hyem => ?_) ⟨x, hx, hxe, hxem⟩
      have hlt' := hno y hy hye hyem
      have hne : ahead m.size e y ≠ ahead m.size e q := fun e' => by
        rw [ahead_inj he hy hqlt e'] at hyem
        exact hem (decide_eq_true hyem)
      omega

theorem firstEmpty_from (he : e < m.size) (k : Nat) :
    ∀ {p q : Nat}, q = (if p ≥ m.size then p - m.size else p) → q < m.size →
      ahead m.size e q + k = m.size →
      (∀ y, y < m.size → m.seqId y = ∅ → ahead m.size e q ≤ ahead m.size e y) →
      (∃ x, x < m.size ∧ m.seqId x = ∅) →
      m.firstEmpty k p < m.size ∧ m.seqId (m.firstEmpty k p) = ∅ := by
  induction k with
  | zero =>
    intro p q _ hq hk
    have := ahead_lt he hq
    omega
  | succ k ih =>
    rintro p q hpq hq hk hno ⟨x, hx, hxem⟩
    unfold firstEmpty
    dsimp only
    rw [← hpq]
    split
    · rename_i hem
      exact ⟨hq, decide_eq_true_iff.mp hem⟩
    · rename_i hem
      have hmore : ∀ y, y < m.size → m.seqId y = ∅ → ahead m.size e q < ahead m.size e y := by
        intro y hy hyem
        refine lt_of_le_of_ne (hno y hy hyem) fun e' => ?_
        rw [← ahead_inj he hq hy e'] at hyem
        exact hem (decide_eq_true hyem)
      have hxa := hmore x hx hxem
      have hlt := ahead_lt he hx
      have hstep := ahead_succ he hq (by omega)
      refine ih (p := q + 1) rfl (by split <;> omega) (by omega) (fun y hy hyem => ?_)
        ⟨x, hx, hxem⟩
      have := hmore y hy hyem
      omega

/-- The first search finds an empty cell if there is one. -/
theorem firstEmpty_spec (he : e < m.size) (h : ∃ x, x < m.size ∧ m.seqId x = ∅) :
    m.firstEmpty m.size e < m.size ∧ m.seqId (m.firstEmpty m.size e) = ∅ := by
  refine firstEmpty_from he m.size (q := e) (by rw [if_neg (by omega)]) he (by simp [ahead])
    (fun y _ _ => ?_) h
  simp [ahead]

/-- The next search finds the first empty cell after `e`. -/
theorem nextEmpty_spec (he : e < m.size) (h : ∃ x, x < m.size ∧ x ≠ e ∧ m.seqId x = ∅) :
    m.nextEmpty m.size e < m.size ∧ m.nextEmpty m.size e ≠ e ∧
      m.seqId (m.nextEmpty m.size e) = ∅ ∧
      ∀ y, y < m.size → y ≠ e → m.seqId y = ∅ →
        ahead m.size e (m.nextEmpty m.size e) ≤ ahead m.size e y := by
  refine nextEmpty_from he m.size he (by simp [ahead]) (fun y hy hye _ => ?_) h
  have h0 : ahead m.size e e = 0 := by simp [ahead]
  have : ahead m.size e y ≠ ahead m.size e e := fun e' => hye (ahead_inj he hy he e')
  omega

/-! ## The second pass -/

/-- What `moveTo` does with an empty cell. -/
structure Moved (m : RecurrentMemory) (s e : Nat) (m' : RecurrentMemory) : Prop where
  frame : Frame m m'
  tail : m'.tail = Function.update m.tail s e
  cell : m'.seqId e ⊆ {s}
  others : ∀ c, c < m.size → c ≠ e → m'.seqId c = (m.seqId c).erase s
  pos : ∀ c, c ≠ e → m'.pos c = m.pos c
  src : ∀ c, c ≠ e → m'.src c = m.src c
  moves : 0 ≤ m.tail s → m'.src e = m.src (m.tail s).toNat ∧ m'.seqId e = {s}
  stays : m.tail s < 0 → m'.src e = m.src e ∧ m'.pos e = m.pos e

/-- The sequence has no cell, or it shares its cell with another one. -/
def Needs (m : RecurrentMemory) (s : Nat) : Prop :=
  m.tail s < 0 ∨ (m.Lives s ∧ ∃ t ∈ m.seqId (m.tail s).toNat, t ≠ s)

variable {s e : Nat}

theorem Held.moveTo (h : m.Held) (he : m.seqId e = ∅) (hn : m.Needs s) :
    ∃ m', m.moveTo s e = .ok m' ∧ Moved m s e m' := by
  have hnot : ∀ c, c < m.size → m.tail s ≠ (c : Nat) → (m.seqId c).erase s = m.seqId c :=
    fun c hc ht => Finset.erase_eq_of_notMem (h.not_mem hc ht)
  unfold RecurrentMemory.moveTo
  rw [if_neg (by simp [isEmpty, he])]
  rcases hn with ht | ⟨⟨h0, hlt, hi⟩, t, htm, hts⟩
  · rw [if_neg (by omega)]
    refine ⟨_, rfl, ⟨rfl, rfl, rfl, rfl⟩, rfl, by simp [he], fun c hc hce => ?_, fun _ _ => rfl,
      fun _ _ => rfl, fun h0 => by omega, fun _ => ⟨rfl, rfl⟩⟩
    exact (hnot c hc (by omega)).symm
  · have hce : (m.tail s).toNat ≠ e := fun e' => by
      rw [e', he] at hi
      exact Finset.notMem_empty s hi
    have hleft : (m.seqId (m.tail s).toNat).erase s ≠ ∅ :=
      Finset.ne_empty_of_mem (Finset.mem_erase.mpr ⟨hts, htm⟩)
    simp only [isEmpty, ge_iff_le, if_pos h0, update_of_ne hce, update_self,
      hleft, decide_false, Bool.false_eq_true, if_false, update_of_ne hce.symm, he]
    refine ⟨_, rfl, ⟨rfl, rfl, rfl, rfl⟩, rfl, ?_, fun c hc hne => ?_, fun c hc => ?_,
      fun c hc => ?_, fun _ => ⟨?_, ?_⟩, fun hneg => by omega⟩
    · simp
    · dsimp only
      rw [update_of_ne hne]
      rcases eq_or_ne c (m.tail s).toNat with rfl | hct
      · rw [update_self]
      · rw [update_of_ne hct, hnot c hc (by omega)]
    · exact update_of_ne hc ..
    · exact update_of_ne hc ..
    · exact update_self ..
    · simp

theorem Moved.tail_self (hm : Moved m s e m') : m'.tail s = (e : Nat) := by
  rw [hm.tail, update_self]

theorem Moved.tail_other {s e x : Nat} (hm : Moved m s e m') (hx : x ≠ s) :
    m'.tail x = m.tail x := by
  rw [hm.tail, update_of_ne hx]

/-- A cell is not emptied by the move. -/
theorem Moved.nonempty (h : m.Held) {s e c : Nat} (hm : Moved m s e m')
    (hn : m.Needs s) (hc : c < m.size) (hce : c ≠ e) (hne : m.seqId c ≠ ∅) : m'.seqId c ≠ ∅ := by
  rw [hm.others c hc hce]
  by_cases hs : s ∈ m.seqId c
  · have e' := (h.own c hc s hs).2
    rcases hn with hneg | ⟨-, t, ht, hts⟩
    · omega
    · rw [e', toNat_natCast] at ht
      exact Finset.ne_empty_of_mem (Finset.mem_erase.mpr ⟨hts, ht⟩)
  · rwa [Finset.erase_eq_of_notMem hs]

/-- The free cells after the move. -/
theorem Moved.free (h : m.Held) (hm : Moved m s e m') (hn : m.Needs s) (hsd : s ∉ done) {c : Nat} :
    m'.Free (s :: done) c ↔ m.Free done c ∧ c ≠ e := by
  have hsize := hm.frame.size
  have htail : ∀ x ∈ done, m'.tail x = m.tail x := fun x hx =>
    hm.tail_other fun e' => hsd (e' ▸ hx)
  constructor
  · rintro ⟨hc, hem, hno⟩
    have hce : c ≠ e := fun e' => hno s mem_cons_self (e' ▸ hm.tail_self)
    rw [hsize] at hc
    refine ⟨⟨hc, ?_, fun x hx => ?_⟩, hce⟩
    · by_contra hne
      exact hm.nonempty h hn hc hce hne hem
    · rw [← htail x hx]
      exact hno x (mem_cons_of_mem s hx)
  · rintro ⟨⟨hc, hem, hno⟩, hce⟩
    refine ⟨hsize.symm ▸ hc, ?_, forall_mem_cons.mpr ⟨?_, fun x hx => ?_⟩⟩
    · rw [hm.others c hc hce, hem]
      rfl
    · rw [hm.tail_self]
      omega
    · rw [htail x hx]
      exact hno x hx

/-- From `e` on, the free cells come before the empty cells that are taken, and `e` is free if any
cell is. -/
def Ahead (m : RecurrentMemory) (done : List Nat) (e : Nat) : Prop :=
  ∀ c, m.Free done c → m.Free done e ∧ ∀ d, d < m.size → m.seqId d = ∅ → ¬ m.Free done d →
    ahead m.size e c < ahead m.size e d

theorem ahead_firstEmpty (hhead : m.head < m.size) : m.Ahead [] (m.firstEmpty m.size m.head) := by
  intro c hc
  obtain ⟨hlt, hem⟩ := firstEmpty_spec hhead ⟨c, hc.1, hc.2.1⟩
  exact ⟨⟨hlt, hem, by simp⟩, fun d hd hde hno => absurd ⟨hd, hde, by simp⟩ hno⟩

theorem Moved.ahead (h : m.Held) (hm : Moved m s e m') (hn : m.Needs s) (hsd : s ∉ done)
    (hf : m.Free done e) (ha : m.Ahead done e) : m'.Ahead (s :: done) (m'.nextEmpty m'.size e) := by
  have hsize := hm.frame.size
  have hfree : ∀ {c}, m'.Free (s :: done) c ↔ m.Free done c ∧ c ≠ e := hm.free h hn hsd
  have hempty : ∀ d, d < m.size → d ≠ e → m'.seqId d = ∅ → m.seqId d = ∅ := by
    intro d hd hde hem
    by_contra hne
    exact hm.nonempty h hn hd hde hne hem
  intro c hc
  have hcm := hfree.mp hc
  have he' : e < m'.size := hsize.symm ▸ hf.1
  obtain ⟨hnlt, hne, hnem, hmin⟩ := nextEmpty_spec he' ⟨c, hc.1, hcm.2, hc.2.1⟩
  generalize m'.nextEmpty m'.size e = d at hnlt hne hnem hmin ⊢
  have hdc := hmin c hc.1 hcm.2 hc.2.1
  rw [hsize] at hnlt hdc he' ⊢
  have hcl := hcm.1.1
  refine ⟨?_, fun x hx hxem hxf => ?_⟩
  · by_contra hno
    have hnot : ¬ m.Free done d := fun hfd => hno (hfree.mpr ⟨hfd, hne⟩)
    have := (ha c hcm.1).2 d hnlt (hempty d hnlt hne hnem) hnot
    omega
  · have h1 := ahead_sub he' hnlt hcl hdc
    have hlt := ahead_lt he' hcl
    rcases eq_or_ne x e with rfl | hxe
    · have h2 := ahead_back he' hnlt hne.symm
      omega
    · have hnot : ¬ m.Free done x := fun hfx => hxf (hfree.mpr ⟨hfx, hxe⟩)
      have h2 := (ha c hcm.1).2 x hx (hempty x hx hxe hxem) hnot
      have h3 := ahead_sub he' hnlt hx (by omega)
      omega

/-- The second pass after the sets of the sequences in `done`. -/
structure Claimed (m : RecurrentMemory) (done : List Nat) (a : Claims) : Prop where
  frame : Frame m a.mem
  held : a.mem.Held
  same : ∀ x, x ∉ done → a.mem.tail x = m.tail x
  cell : ∀ s ∈ done, 0 ≤ a.mem.tail s ∧ a.mem.tail s < m.size ∧
    a.mem.seqId (a.mem.tail s).toNat ⊆ {s} ∧ a.min ≤ a.mem.tail s ∧ a.mem.tail s ≤ a.max
  inj : ∀ s ∈ done, ∀ t ∈ done, a.mem.tail s = a.mem.tail t → s = t
  rest : ∀ c, c < m.size → (∀ s ∈ done, a.mem.tail s ≠ (c : Nat)) →
    a.mem.seqId c = m.seqId c \ done.toFinset ∧ a.mem.pos c = m.pos c ∧ a.mem.src c = m.src c
  stays : ∀ c, c < m.size → ∀ x ∈ m.seqId c, x ∉ done → x ∈ a.mem.seqId c
  nonempty : ∀ c, c < m.size → m.seqId c ≠ ∅ → a.mem.seqId c ≠ ∅
  lived : ∀ s ∈ done, m.Lives s → a.mem.src (a.mem.tail s).toNat = m.src (m.tail s).toNat
  fresh : ∀ s ∈ done, m.tail s < 0 → ∃ e, e < m.size ∧ m.seqId e = ∅ ∧
    a.mem.src (a.mem.tail s).toNat = m.src e
  range : 0 ≤ a.min ∧ a.max < m.size

/-- The cell of a sequence that is still to come is not taken. -/
theorem Claimed.untaken (h : Claimed m done a) {c : Nat}
    (hs : s ∈ a.mem.seqId c) (hsd : s ∉ done) : ∀ t ∈ done, a.mem.tail t ≠ (c : Nat) := by
  intro t ht e
  have hsub := (h.cell t ht).2.2.1
  rw [e, toNat_natCast] at hsub
  obtain rfl := Finset.mem_singleton.mp (hsub hs)
  exact hsd ht

theorem Claimed.lives (h : Claimed m done a) (hs : m.Lives s) (hsd : s ∉ done) : a.mem.Lives s := by
  obtain ⟨h0, hlt, hmem⟩ := hs
  rw [Lives, h.same s hsd, h.frame.size]
  exact ⟨h0, hlt, h.stays _ (by omega) s hmem hsd⟩

/-- `min` and `max` are updated. -/
theorem Claimed.bound
    (h : Claimed m done ⟨a.mem, a.e, min a.min (a.mem.tail s), max a.max (a.mem.tail s)⟩) :
    Claimed m done (a.bound s) := by
  have e : a.bound s = ⟨a.mem, a.e, min a.min (a.mem.tail s), max a.max (a.mem.tail s)⟩ := by
    unfold Claims.bound
    congr 1
    · rw [min_def]
      split <;> split <;> omega
    · rw [max_def]
      split <;> split <;> omega
  rw [e]
  exact h

/-- A sequence that is alone in its cell keeps it. -/
theorem Claimed.owns (h : Claimed m done a)
    (hsd : s ∉ done) (hl : a.mem.Lives s) (hcard : (a.mem.seqId (a.mem.tail s).toNat).card = 1) :
    Claimed m (s :: done) (a.bound s) := by
  obtain ⟨h0, hlt, hmem⟩ := hl
  rw [h.frame.size] at hlt
  have hun := h.untaken hmem hsd
  obtain ⟨y, hy⟩ := Finset.card_eq_one.mp hcard
  have hsub : a.mem.seqId (a.mem.tail s).toNat ⊆ {s} := by
    rw [hy, Finset.mem_singleton] at hmem
    rw [hy, hmem]
  have hrange := h.range
  refine .bound ⟨h.frame, h.held, fun x hx => h.same x fun hx' => hx (mem_cons_of_mem s hx'),
    ?_, ?_, fun c hc hno => ?_, fun c hc x hx hxd => ?_, h.nonempty, ?_, ?_, ?_⟩
  · refine forall_mem_cons.mpr ⟨⟨h0, hlt, hsub, ?_⟩, fun t ht => ?_⟩
    · exact ⟨min_le_right _ _, le_max_right _ _⟩
    · obtain ⟨h1, h2, h3, h4, h5⟩ := h.cell t ht
      exact ⟨h1, h2, h3, (min_le_left _ _).trans h4, h5.trans (le_max_left _ _)⟩
  · have hne : ∀ t ∈ done, a.mem.tail t ≠ a.mem.tail s := fun t ht e => hun t ht (by omega)
    intro x hx y hy e
    rcases mem_cons.mp hx with rfl | hxd <;> rcases mem_cons.mp hy with rfl | hyd
    · rfl
    · exact absurd e.symm (hne y hyd)
    · exact absurd e (hne x hxd)
    · exact h.inj x hxd y hyd e
  · obtain ⟨e, hp, hsrc⟩ := h.rest c hc fun t ht => hno t (mem_cons_of_mem s ht)
    refine ⟨e.trans ?_, hp, hsrc⟩
    rw [toFinset_cons, Finset.sdiff_insert, Finset.erase_eq_of_notMem]
    intro hs
    exact hno s mem_cons_self (h.held.own c (h.frame.size.symm ▸ hc) s (e ▸ hs)).2
  · rw [mem_cons, not_or] at hxd
    exact h.stays c hc x hx hxd.2
  · refine forall_mem_cons.mpr ⟨fun hs => ?_, h.lived⟩
    have := (h.rest (a.mem.tail s).toNat (by omega) hun).2.2
    rw [this, h.same s hsd]
  · refine forall_mem_cons.mpr ⟨fun hneg => ?_, h.fresh⟩
    rw [h.same s hsd] at h0
    omega
  · exact ⟨le_min hrange.1 h0, max_lt hrange.2 hlt⟩

/-- Any other sequence moves to a free cell. -/
theorem Claimed.moves (h : Claimed m done a) {s e e' : Nat} (hs : s < m.size) (hsd : s ∉ done)
    (hn : a.mem.Needs s) (hf : a.mem.Free done e) (hm : Moved a.mem s e m') :
    Claimed m (s :: done) (Claims.bound ⟨m', e', a.min, a.max⟩ s) := by
  have hsize := h.frame.size
  have hrange := h.range
  obtain ⟨hlt, hem, hun⟩ := hf
  rw [hsize] at hlt
  have htd : ∀ t ∈ done, m'.tail t = a.mem.tail t ∧ (m'.tail t).toNat ≠ e := by
    intro t ht
    have h1 := hm.tail_other (x := t) fun e' => hsd (e' ▸ ht)
    have h2 := hun t ht
    have h3 := (h.cell t ht).1
    exact ⟨h1, by omega⟩
  have hts := hm.tail_self
  have heto : (m'.tail s).toNat = e := by omega
  refine .bound ⟨h.frame.trans hm.frame, ⟨fun c hc x hx => ?_, fun x hx => ?_⟩, fun x hx => ?_,
    ?_, ?_, fun c hc hno => ?_, fun c hc x hx hxd => ?_, fun c hc hne => ?_, ?_, ?_, ?_⟩
  · rw [hm.frame.size, hsize] at hc ⊢
    rcases eq_or_ne c e with rfl | hce
    · obtain rfl := Finset.mem_singleton.mp (hm.cell hx)
      exact ⟨hs, hts⟩
    · rw [hm.others c (hsize.symm ▸ hc) hce, Finset.mem_erase] at hx
      rw [hm.tail_other hx.1, ← hsize]
      exact h.held.own c (hsize.symm ▸ hc) x hx.2
  · rw [hm.frame.size] at hx ⊢
    rcases eq_or_ne x s with rfl | hxs
    · rw [hts]
      omega
    · rw [hm.tail_other hxs]
      exact h.held.tail_lt x hx
  · rw [mem_cons, not_or] at hx
    exact (hm.tail_other hx.1).trans (h.same x hx.2)
  · refine forall_mem_cons.mpr ⟨⟨?_, ?_, heto.symm ▸ hm.cell, ?_⟩, fun t ht => ?_⟩
    · exact hts.symm ▸ natCast_nonneg e
    · exact hts.symm ▸ ofNat_lt.mpr hlt
    · exact ⟨min_le_right _ _, le_max_right _ _⟩
    · obtain ⟨h1, h2, h3, h4, h5⟩ := h.cell t ht
      obtain ⟨e1, hne⟩ := htd t ht
      refine ⟨e1 ▸ h1, e1 ▸ h2, ?_, e1 ▸ (min_le_left _ _).trans h4,
        e1 ▸ h5.trans (le_max_left _ _)⟩
      rw [hm.others _ (by omega) hne, e1]
      exact (Finset.erase_subset _ _).trans h3
  · have hne : ∀ t ∈ done, m'.tail t ≠ m'.tail s := fun t ht e' => (htd t ht).2 (by rw [e', heto])
    intro x hx y hy exy
    rcases mem_cons.mp hx with rfl | hxd <;> rcases mem_cons.mp hy with rfl | hyd
    · rfl
    · exact absurd exy.symm (hne y hyd)
    · exact absurd exy (hne x hxd)
    · exact h.inj x hxd y hyd (by rw [← (htd x hxd).1, ← (htd y hyd).1, exy])
  · have hce : c ≠ e := fun e' => hno s mem_cons_self (e' ▸ hts)
    obtain ⟨e1, hp, hsrc⟩ := h.rest c hc fun t ht =>
      (htd t ht).1 ▸ hno t (mem_cons_of_mem s ht)
    refine ⟨?_, (hm.pos c hce).trans hp, (hm.src c hce).trans hsrc⟩
    rw [hm.others c (hsize.symm ▸ hc) hce, e1, toFinset_cons, Finset.sdiff_insert]
  · rw [mem_cons, not_or] at hxd
    have hx' := h.stays c hc x hx hxd.2
    have hce : c ≠ e := by
      rintro rfl
      rw [hem] at hx'
      exact Finset.notMem_empty x hx'
    rw [hm.others c (hsize.symm ▸ hc) hce]
    exact Finset.mem_erase.mpr ⟨hxd.1, hx'⟩
  · have hne' := h.nonempty c hc hne
    exact hm.nonempty h.held hn (hsize.symm ▸ hc) (fun e' => hne' (e' ▸ hem)) hne'
  · refine forall_mem_cons.mpr ⟨fun hl => ?_, fun t ht hl => ?_⟩
    · have hl' := h.lives hl hsd
      rw [heto, (hm.moves hl'.1).1, ← h.same s hsd]
      refine (h.rest _ ?_ (h.untaken hl'.2.2 hsd)).2.2
      have := hl'.2.1
      omega
    · obtain ⟨e1, hne⟩ := htd t ht
      rw [hm.src _ hne, e1]
      exact h.lived t ht hl
  · refine forall_mem_cons.mpr ⟨fun hneg => ⟨e, hlt, ?_, ?_⟩, fun t ht hneg => ?_⟩
    · by_contra hne
      exact h.nonempty e hlt hne hem
    · rw [heto, (hm.stays (by rwa [h.same s hsd])).1]
      exact (h.rest e hlt hun).2.2
    · obtain ⟨e1, hne⟩ := htd t ht
      rw [hm.src _ hne, e1]
      exact h.fresh t ht hneg
  · show 0 ≤ min a.min (m'.tail s) ∧ max a.max (m'.tail s) < m.size
    rw [hts]
    exact ⟨le_min hrange.1 (by omega), max_lt hrange.2 (by omega)⟩

/-- The sequence has no cell, or it is in its cell: its tail is not a left one. -/
def Fit (m : RecurrentMemory) (s : Nat) : Prop := m.tail s < 0 ∨ m.Lives s

/-- The cell of a sequence that owns it is not empty, so it is not free. -/
theorem Ahead.owns (hl : m.Lives s) (ha : m.Ahead done e) : m.Ahead (s :: done) e := by
  have hfree : ∀ c, m.Free (s :: done) c ↔ m.Free done c := by
    intro c
    refine ⟨fun h => ⟨h.1, h.2.1, fun x hx => h.2.2 x (mem_cons_of_mem s hx)⟩,
      fun h => ⟨h.1, h.2.1, forall_mem_cons.mpr ⟨fun e' => ?_, h.2.2⟩⟩⟩
    have hmem := hl.2.2
    rw [e', toNat_natCast, h.2.1] at hmem
    exact Finset.notMem_empty s hmem
  intro c hc
  simp only [hfree] at hc ⊢
  exact ha c hc

theorem claimOne_spec (h : Claimed m done a) (hs : s < m.size) (hsd : s ∉ done) (hfit : m.Fit s)
    (hdone : ∀ x ∈ done, x < m.size) (ha : a.mem.Ahead done a.e) (more : Bool) :
    ∃ a', claimOne a s more = .ok a' ∧ Claimed m (s :: done) a' ∧
      (more = true → a'.mem.Ahead (s :: done) a'.e) := by
  have hfit' : a.mem.Fit s := hfit.imp (fun hn => by rwa [h.same s hsd]) fun hl => h.lives hl hsd
  unfold claimOne
  rw [if_neg fun hno => hno.2 (hfit'.resolve_left (by omega)).2.2]
  split
  · rename_i ho
    obtain ⟨ht, hcard⟩ := Bool.and_eq_true_iff.mp ho
    have ht' : 0 ≤ a.mem.tail s := of_decide_eq_true ht
    have hl := hfit'.resolve_left (by omega)
    exact ⟨_, rfl, h.owns hsd hl (of_decide_eq_true hcard), fun _ => ha.owns hl⟩
  · rename_i ho
    have hn : a.mem.Needs s := by
      refine hfit'.imp_right fun hl => ⟨hl, ?_⟩
      by_contra hno
      have hsingle : a.mem.seqId (a.mem.tail s).toNat = {s} := by
        refine Finset.eq_singleton_iff_unique_mem.mpr ⟨hl.2.2, fun x hx => ?_⟩
        by_contra hxs
        exact hno ⟨x, hx, hxs⟩
      refine ho ?_
      rw [ownsCell, hsingle, decide_eq_true hl.1]
      rfl
    have hs' : s < a.mem.size := h.frame.size.symm ▸ hs
    obtain ⟨c, hc⟩ := h.held.exists_free (fun x hx => h.frame.size.symm ▸ hdone x hx) hs'
      (hn.imp_right fun ⟨hl, t, ht, hts⟩ => by
        obtain ⟨-, e⟩ := h.held.own _ (by have := hl.1; have := hl.2.1; omega) t ht
        exact ⟨t, h.held.lives (by have := hl.1; have := hl.2.1; omega) ht, hts, by
          have := hl.1
          omega⟩)
    have hfree := (ha c hc).1
    obtain ⟨m', e, hm⟩ := h.held.moveTo hfree.2.1 hn
    rw [e]
    refine ⟨_, rfl, h.moves hs hsd hn hfree hm, fun hmore => ?_⟩
    rw [hmore]
    exact hm.ahead h.held hn hsd hfree ha

theorem claimOne_left (h : Claimed m done a)
    (hsd : s ∉ done) (hlt : m.tail s < m.size) (hfit : ¬ m.Fit s) (more : Bool) :
    claimOne a s more = .error .tailHasSeqId := by
  unfold Fit at hfit
  rw [not_or] at hfit
  unfold claimOne
  refine if_pos ⟨by rw [h.same s hsd]; omega, fun hmem => hfit.2 ⟨by omega, hlt, ?_⟩⟩
  have hun := h.untaken hmem hsd
  rw [h.same s hsd] at hmem hun
  rw [(h.rest (m.tail s).toNat (by omega) hun).1] at hmem
  exact (Finset.mem_sdiff.mp hmem).1

/-- The second pass fails at its assert on the tail, or it gives every sequence a cell. -/
theorem claim_spec (hm : m.Held) (l : List Nat) : ∀ {a : Claims} {done : List Nat},
    Claimed m done a → (∀ x ∈ done ++ l, x < m.size) → (done ++ l).Nodup →
    (l ≠ [] → a.mem.Ahead done a.e) →
    ((∃ s ∈ l, ¬ m.Fit s) ∧ claim a l = .error .tailHasSeqId) ∨
      ∃ a', claim a l = .ok a' ∧ Claimed m (l.reverse ++ done) a' := by
  induction l with
  | nil => intro a done h _ _ _; exact .inr ⟨a, rfl, h⟩
  | cons s l ih =>
    intro a done h hlt hnd ha
    have hsd : s ∉ done := fun hs =>
      (nodup_append.mp hnd).2.2 s hs s mem_cons_self rfl
    have hs : s < m.size := hlt s (by simp)
    unfold claim
    by_cases hfit : m.Fit s
    · obtain ⟨a', e, h', ha'⟩ := claimOne_spec h hs hsd hfit (fun x hx => hlt x (by simp [hx]))
        (ha (by simp)) !l.isEmpty
      have hperm : (s :: done ++ l).Perm (done ++ s :: l) := by
        simpa using (perm_middle).symm
      rw [e]
      have hnext := ih h' (fun x hx => hlt x (hperm.mem_iff.mp hx)) (hperm.nodup_iff.mpr hnd)
        fun hl => ha' (by simpa using hl)
      refine hnext.imp (And.imp_left fun ⟨t, ht, hno⟩ => ⟨t, mem_cons_of_mem s ht, hno⟩) ?_
      rintro ⟨a'', e'', h''⟩
      exact ⟨a'', e'', by simpa using h''⟩
    · rw [claimOne_left h hsd (hm.tail_lt s hs) hfit]
      exact .inl ⟨⟨s, mem_cons_self, hfit⟩, rfl⟩

/-! ## The third pass -/

/-- Cell `c` goes to `σ c`, and the tails follow. -/
def permute (m : RecurrentMemory) (σ : Equiv.Perm Nat) : RecurrentMemory :=
  { m with
    pos := m.pos ∘ σ.symm
    src := m.src ∘ σ.symm
    seqId := m.seqId ∘ σ.symm
    tail := fun j =>
      if j < m.size ∧ 0 ≤ m.tail j then (σ (m.tail j).toNat : Nat) else m.tail j }

section Permute

variable {σ : Equiv.Perm Nat}

theorem permute_tail {x c : Nat} (hx : x < m.size) (ht : m.tail x = (c : Nat)) :
    (m.permute σ).tail x = (σ c : Nat) := by
  show (if x < m.size ∧ 0 ≤ m.tail x then ((σ (m.tail x).toNat : Nat) : Int) else m.tail x) = _
  rw [if_pos ⟨hx, by omega⟩, ht, toNat_natCast]

theorem permute_tail_none {x : Nat} (h : ¬ (x < m.size ∧ 0 ≤ m.tail x)) :
    (m.permute σ).tail x = m.tail x := if_neg h

theorem permute_src {c : Nat} : (m.permute σ).src (σ c) = m.src c :=
  congrArg m.src (σ.symm_apply_apply c)

theorem permute_pos {c : Nat} : (m.permute σ).pos (σ c) = m.pos c :=
  congrArg m.pos (σ.symm_apply_apply c)

theorem permute_seqId {c : Nat} : (m.permute σ).seqId (σ c) = m.seqId c :=
  congrArg m.seqId (σ.symm_apply_apply c)

/-- A memory is a permutation of another one if its cells are, and its tails follow. -/
theorem eq_permute {m' : RecurrentMemory} (h : m' = { m with
      pos := m.pos ∘ σ.symm, src := m.src ∘ σ.symm, seqId := m.seqId ∘ σ.symm, tail := m'.tail })
    (ht : ∀ x c : Nat, x < m.size → m.tail x = c → m'.tail x = (σ c : Nat))
    (hn : ∀ x, ¬ (x < m.size ∧ 0 ≤ m.tail x) → m'.tail x = m.tail x) : m' = m.permute σ := by
  have : m'.tail = (m.permute σ).tail := by
    funext x
    by_cases hx : x < m.size ∧ 0 ≤ m.tail x
    · obtain ⟨c, hc⟩ : ∃ c : Nat, m.tail x = c := ⟨(m.tail x).toNat, by omega⟩
      rw [ht x c hx.1 hc, permute_tail hx.1 hc]
    · rw [hn x hx, permute_tail_none hx]
  rw [h, this]
  rfl

theorem permute_refl : m = m.permute (Equiv.refl Nat) :=
  eq_permute rfl (fun _ _ _ h => h) fun _ _ => rfl

theorem permute_permute (σ τ : Equiv.Perm Nat) :
    (m.permute σ).permute τ = m.permute (σ.trans τ) := by
  refine eq_permute rfl (fun x c hx hc => ?_) fun x hx => ?_
  · exact permute_tail hx (permute_tail hx hc)
  · rw [permute_tail_none, permute_tail_none hx]
    rwa [permute_tail_none hx]

theorem swapCells_eq (a b : Nat) : m.swapCells a b = m.permute (Equiv.swap a b) := by
  refine eq_permute ?_ (fun x c hx hc => ?_) fun x hx => ?_
  · rw [Equiv.symm_swap]
    rfl
  · show (if x < m.size then
      if m.tail x = (b : Nat) then (a : Int) else if m.tail x = (a : Nat) then b else m.tail x
      else m.tail x) = _
    rw [if_pos hx, hc, Equiv.swap_apply_def]
    grind
  · show (if x < m.size then
      if m.tail x = (b : Nat) then (a : Int) else if m.tail x = (a : Nat) then b else m.tail x
      else m.tail x) = _
    split
    · rw [if_neg (by omega), if_neg (by omega)]
    · rfl

end Permute

/-- The third pass when the cells from `dst` on are to be filled with those of `l`. -/
theorem gather_spec {hi : Nat} (l : List Nat) : ∀ {m : RecurrentMemory} {dst : Nat}, l.Nodup →
    (∀ s ∈ l, s < m.size ∧ (dst : Int) ≤ m.tail s ∧ m.tail s ≤ hi) →
    (∀ s ∈ l, ∀ t ∈ l, m.tail s = m.tail t → s = t) →
    ∃ σ : Equiv.Perm Nat, m.gather dst l = m.permute σ ∧
      (∀ c, c < dst ∨ hi < c → σ c = c) ∧
      ∀ k s, l[k]? = some s → σ (m.tail s).toNat = dst + k ∧ dst + k ≤ hi := by
  induction l with
  | nil =>
    intro m dst _ _ _
    exact ⟨Equiv.refl Nat, permute_refl, fun _ _ => rfl, fun k s e => by simp at e⟩
  | cons s l ih =>
    intro m dst hnd hl hinj
    obtain ⟨hsl, hnd'⟩ := nodup_cons.mp hnd
    obtain ⟨hs, hlo, hup⟩ := hl s mem_cons_self
    obtain ⟨c, hc⟩ : ∃ c : Nat, m.tail s = c := ⟨(m.tail s).toNat, by omega⟩
    have hswap : (if dst ≠ (m.tail s).toNat then m.swapCells dst (m.tail s).toNat else m) =
        m.permute (Equiv.swap dst c) := by
      rw [hc, toNat_natCast]
      split
      · exact swapCells_eq dst c
      · rename_i e
        rw [not_not.mp e, Equiv.swap_self]
        exact permute_refl
    -- the cell of `s` comes to `dst`; the sequence there gets the old cell of `s`
    have hother : ∀ x ∈ l, ∃ d : Nat, m.tail x = d ∧ (m.permute (Equiv.swap dst c)).tail x =
        (Equiv.swap dst c d : Nat) ∧ dst + 1 ≤ Equiv.swap dst c d ∧ Equiv.swap dst c d ≤ hi := by
      intro x hx
      obtain ⟨hxlt, hxlo, hxup⟩ := hl x (mem_cons_of_mem s hx)
      obtain ⟨d, hd⟩ : ∃ d : Nat, m.tail x = d := ⟨(m.tail x).toNat, by omega⟩
      have hdc : d ≠ c := by
        rintro rfl
        obtain rfl := hinj s mem_cons_self x (mem_cons_of_mem s hx) (hc.trans hd.symm)
        exact hsl hx
      refine ⟨d, hd, permute_tail hxlt hd, ?_⟩
      rw [Equiv.swap_apply_def, if_neg hdc]
      split <;> omega
    obtain ⟨σ, e, hfix, hpos⟩ := @ih (m.permute (Equiv.swap dst c)) (dst + 1) hnd'
      (fun x hx => by
        obtain ⟨d, -, e, h1, h2⟩ := hother x hx
        rw [e]
        exact ⟨(hl x (mem_cons_of_mem s hx)).1, by omega, by omega⟩)
      (fun x hx y hy exy => by
        obtain ⟨d, hd, e, -⟩ := hother x hx
        obtain ⟨d', hd', e', -⟩ := hother y hy
        rw [e, e'] at exy
        refine hinj x (mem_cons_of_mem s hx) y (mem_cons_of_mem s hy) ?_
        rw [hd, hd', (Equiv.swap dst c).injective (ofNat_inj.mp exy)])
    refine ⟨(Equiv.swap dst c).trans σ, ?_, fun d hd => ?_, fun k x hk => ?_⟩
    · unfold gather
      dsimp only
      rw [hswap, e, permute_permute]
    · rw [Equiv.trans_apply, Equiv.swap_apply_of_ne_of_ne (by omega) (by omega)]
      exact hfix d (by omega)
    · rw [Equiv.trans_apply]
      cases k with
      | zero =>
        cases hk
        rw [hc, toNat_natCast, Equiv.swap_apply_right, hfix dst (by omega)]
        exact ⟨rfl, by omega⟩
      | succ k =>
        obtain ⟨d, hd, e, -⟩ := hother x (mem_of_getElem? hk)
        have := hpos k x hk
        rw [e, toNat_natCast] at this
        rw [hd, toNat_natCast]
        omega

/-! ## The fourth pass -/

/-- Cells outside of the slot and sequences outside of the sets do not change. -/
theorem place_frame (sets : List RsSet) : ∀ (m : RecurrentMemory) (c : Nat),
    Frame m (m.place c sets) ∧ (m.place c sets).src = m.src ∧
      (∀ i, i < c ∨ c + sets.length ≤ i →
        (m.place c sets).seqId i = m.seqId i ∧ (m.place c sets).pos i = m.pos i) ∧
      ∀ x, (∀ s ∈ sets, x ∉ s.seqIds.map Int.toNat) → (m.place c sets).tail x = m.tail x := by
  induction sets with
  | nil => exact fun m c => ⟨.rfl, rfl, fun _ _ => ⟨rfl, rfl⟩, fun _ _ => rfl⟩
  | cons s sets ih =>
    intro m c
    obtain ⟨hf, hs, hi, ht⟩ := ih (m.placeSet c s) (c + 1)
    refine ⟨⟨hf.size, hf.nSeqMax, hf.nRsSeq, hf.rsIdx⟩, hs, fun i hic => ?_, fun x hx => ?_⟩
    · rw [length_cons] at hic
      obtain ⟨h1, h2⟩ := hi i (by omega)
      exact ⟨h1.trans (update_of_ne (by omega) ..),
        h2.trans (update_of_ne (by omega) ..)⟩
    · obtain ⟨hxs, hxr⟩ := forall_mem_cons.mp hx
      exact (ht x hxr).trans (if_neg hxs)

/-- The cells of the sets. -/
theorem place_cell (sets : List RsSet) : ∀ {m : RecurrentMemory} {c k : Nat} {s : RsSet},
    sets[k]? = some s →
    (m.place c sets).seqId (c + k) = (s.seqIds.map Int.toNat).toFinset ∧
      (m.place c sets).pos (c + k) = s.lastPos := by
  induction sets with
  | nil => intro m c k s e; simp at e
  | cons t sets ih =>
    intro m c k s e
    cases k with
    | zero =>
      cases e
      obtain ⟨h1, h2⟩ := (place_frame sets (m.placeSet c t) (c + 1)).2.2.1 c (by omega)
      exact ⟨h1.trans (update_self ..), h2.trans (update_self ..)⟩
    | succ k =>
      have := ih (m := m.placeSet c t) (c := c + 1) (k := k) (s := s) e
      rwa [Nat.add_assoc, Nat.add_comm 1 k] at this

/-- The tail of a sequence of the sets: the cell of the last set with it. -/
theorem place_tail (sets : List RsSet) : ∀ {m : RecurrentMemory} {c x : Nat},
    (∃ s ∈ sets, x ∈ s.seqIds.map Int.toNat) →
    ∃ k s, sets[k]? = some s ∧ x ∈ s.seqIds.map Int.toNat ∧
      (m.place c sets).tail x = (c + k : Nat) := by
  induction sets with
  | nil => rintro m c x ⟨s, hs, -⟩; cases hs
  | cons t sets ih =>
    rintro m c x ⟨s, hs, hx⟩
    by_cases hlater : ∃ s ∈ sets, x ∈ s.seqIds.map Int.toNat
    · obtain ⟨k, r, hk, hxr, e⟩ := @ih (m.placeSet c t) (c + 1) x hlater
      refine ⟨k + 1, r, hk, hxr, ?_⟩
      rwa [Nat.add_assoc, Nat.add_comm 1 k] at e
    · have hno : ∀ s ∈ sets, x ∉ s.seqIds.map Int.toNat := fun s hs hx => hlater ⟨s, hs, hx⟩
      rcases mem_cons.mp hs with rfl | hs
      · refine ⟨0, s, rfl, hx, ?_⟩
        exact ((place_frame sets (m.placeSet c s) (c + 1)).2.2.2 x hno).trans (if_pos hx)
      · exact absurd hx (hno s hs)

/-! ## The passes together -/

/-- The memory after the passes, with the slot of `len` cells from `lo` on. -/
structure Passed (m : RecurrentMemory) (u : RsUbatch) (lo len : Nat) (m' : RecurrentMemory) :
    Prop where
  frame : Frame m m'
  range : u.sets.length ≤ len ∧ lo + len ≤ m.size
  cell : ∀ k s, u.sets[k]? = some s →
    m'.seqId (lo + k) = (s.seqIds.map Int.toNat).toFinset ∧ m'.pos (lo + k) = s.lastPos
  tail : ∀ x ∈ u.seqs, ∃ k s, u.sets[k]? = some s ∧ x ∈ s.seqIds.map Int.toNat ∧
    m'.tail x = (lo + k : Nat)
  lived : ∀ k s, u.sets[k]? = some s → m.Lives s.first →
    m'.src (lo + k) = m.src (m.tail s.first).toNat
  fresh : ∀ k s, u.sets[k]? = some s → m.tail s.first < 0 →
    ∃ e, e < m.size ∧ m.seqId e = ∅ ∧ m'.src (lo + k) = m.src e
  kept : ∀ x, m.Lives x → x ∉ u.seqs → Kept m m' u.firsts.toFinset x
  none : ∀ x, x ∉ u.seqs → m.tail x < 0 → m'.tail x = m.tail x
  tail_lt : ∀ x, x < m.size → m'.tail x < m.size
  rest : ∀ c, c < m.size → c < lo ∨ lo + u.sets.length ≤ c → ∃ d, d < m.size ∧
    m'.seqId c = m.seqId d \ u.firsts.toFinset ∧ m'.pos c = m.pos d ∧
    (m'.seqId c = ∅ → m.seqId d = ∅) ∧
    ∀ x, x < m.size → x ∉ u.seqs → m.tail x = (d : Nat) → m'.tail x = (c : Nat)
  outside : ∀ c, c < m.size → c < lo ∨ lo + len ≤ c → m'.src c = m.src c

theorem perm_lt {σ : Equiv.Perm Nat} {n c : Nat} (hfix : ∀ d, n ≤ d → σ d = d) (hc : c < n) :
    σ c < n := by
  by_contra hno
  have := σ.injective (hfix (σ c) (by omega))
  omega

theorem passes_spec {u : RsUbatch} (hm : m.Held) (hhead : m.head < m.size) (hne : u.sets ≠ [])
    (hids : ∀ s ∈ u.sets, s.seqIds ≠ [] ∧ ∀ id ∈ s.seqIds, 0 ≤ id ∧ id < m.size)
    (hnd : u.firsts.Nodup) :
    ((∃ s ∈ u.firsts, ¬ m.Fit s) ∧
      claim ⟨m, m.firstEmpty m.size m.head, (m.size : Int) - 1, 0⟩ u.firsts =
        .error .tailHasSeqId) ∨
    ∃ a, claim ⟨m, m.firstEmpty m.size m.head, (m.size : Int) - 1, 0⟩ u.firsts = .ok a ∧
      0 ≤ a.min ∧ Passed m u a.min.toNat (a.max - a.min + 1).toNat
        ((a.mem.gather a.min.toNat u.firsts).place a.min.toNat u.sets) := by
  have hF : ∀ x ∈ u.firsts, x < m.size ∧ x ∈ u.seqs := by
    intro x hx
    obtain ⟨s, hs, rfl⟩ := mem_map.mp hx
    have hmem := RsSet.first_mem (hids s hs).1
    obtain ⟨id, hid, e⟩ := mem_map.mp hmem
    have := (hids s hs).2 id hid
    exact ⟨by omega, RsUbatch.mem_seqs.mpr ⟨s, hs, hmem⟩⟩
  have hstart : Claimed m [] ⟨m, m.firstEmpty m.size m.head, (m.size : Int) - 1, 0⟩ := by
    refine ⟨.rfl, hm, fun _ _ => rfl, by simp, by simp, fun c hc _ => ⟨by simp, rfl, rfl⟩,
      fun _ _ _ hx _ => hx, fun _ _ h => h, by simp, by simp, ?_⟩
    show 0 ≤ (m.size : Int) - 1 ∧ (0 : Int) < m.size
    omega
  refine (claim_spec hm u.firsts hstart (fun x hx => (hF x hx).1) hnd
    fun _ => ahead_firstEmpty hhead).imp_right ?_
  rintro ⟨a, e, ha⟩
  rw [append_nil] at ha
  refine ⟨a, e, ha.range.1, ?_⟩
  have hsize := ha.frame.size
  have hcell : ∀ s ∈ u.firsts, 0 ≤ a.mem.tail s ∧ a.mem.tail s < m.size ∧
      a.min ≤ a.mem.tail s ∧ a.mem.tail s ≤ a.max := fun s hs => by
    obtain ⟨h1, h2, -, h4⟩ := ha.cell s (mem_reverse.mpr hs)
    exact ⟨h1, h2, h4⟩
  obtain ⟨s₀, hs0⟩ := exists_mem_of_ne_nil _ hne
  have hmax : 0 ≤ a.max ∧ a.min ≤ a.max := by
    have := hcell _ (mem_map_of_mem hs0)
    omega
  have hmin := ha.range
  obtain ⟨σ, hσ, hfix, hpos⟩ := @gather_spec a.max.toNat u.firsts a.mem a.min.toNat hnd
    (fun s hs => by
      have := hcell s hs
      exact ⟨hsize.symm ▸ (hF s hs).1, by omega, by omega⟩)
    fun s hs t ht e => ha.inj s (mem_reverse.mpr hs) t (mem_reverse.mpr ht) e
  rw [hσ]
  have hlen : u.sets.length ≤ (a.max - a.min + 1).toNat := by
    have hlt := length_pos_iff.mpr hne
    have hlast := RsUbatch.firsts_get
      (getElem?_eq_getElem (show u.sets.length - 1 < u.sets.length by omega))
    have := (hpos _ _ hlast).2
    omega
  obtain ⟨hpf, hpsrc, hpcell, hptail⟩ := place_frame u.sets (a.mem.permute σ) a.min.toNat
  set m' := (a.mem.permute σ).place a.min.toNat u.sets with hm'
  have hfixn : ∀ d, m.size ≤ d → σ d = d := fun d hd => hfix d (by omega)
  -- the cells that were taken are those of the slot
  have hnot : ∀ d, (∀ t ∈ u.firsts, a.mem.tail t ≠ (d : Nat)) ↔
      σ d < a.min.toNat ∨ a.min.toNat + u.sets.length ≤ σ d := by
    intro d
    constructor
    · intro hno
      by_contra hin
      have hk : σ d - a.min.toNat < u.sets.length := by omega
      have hget := RsUbatch.firsts_get (getElem?_eq_getElem hk)
      have hmem := mem_of_getElem? hget
      have h1 := (hpos _ _ hget).1
      have h2 := hcell _ hmem
      refine hno _ hmem ?_
      have := σ.injective (h1.trans (show a.min.toNat + (σ d - a.min.toNat) = σ d by omega))
      omega
    · intro hout t ht e
      obtain ⟨k, hk⟩ := getElem?_of_mem ht
      have h1 := (hpos k t hk).1
      rw [e, toNat_natCast] at h1
      have := (List.getElem?_eq_some_iff.mp hk).1
      rw [RsUbatch.firsts, length_map] at this
      omega
  have hrest : ∀ d, d < m.size → (∀ t ∈ u.firsts, a.mem.tail t ≠ (d : Nat)) →
      m'.seqId (σ d) = m.seqId d \ u.firsts.toFinset ∧ m'.pos (σ d) = m.pos d ∧
        m'.src (σ d) = m.src d := by
    intro d hd hno
    obtain ⟨h1, h2, h3⟩ := ha.rest d hd fun t ht => hno t (mem_reverse.mp ht)
    obtain ⟨h4, h5⟩ := hpcell (σ d) ((hnot d).mp hno)
    rw [h4, h5, hpsrc, permute_seqId, permute_pos, permute_src, h1, h2, h3, toFinset_reverse]
    exact ⟨rfl, rfl, rfl⟩
  have hout : ∀ x, x ∉ u.seqs → a.mem.tail x = m.tail x ∧ m'.tail x = (a.mem.permute σ).tail x := by
    intro x hx
    refine ⟨ha.same x fun hx' => hx (hF x (mem_reverse.mp hx')).2, hptail x fun s hs hxs => ?_⟩
    exact hx (RsUbatch.mem_seqs.mpr ⟨s, hs, hxs⟩)
  have htail : ∀ x d : Nat, x < m.size → x ∉ u.seqs → m.tail x = d → m'.tail x = (σ d : Nat) := by
    intro x d hlt hx hd
    obtain ⟨h1, h2⟩ := hout x hx
    rw [h2]
    exact permute_tail (hsize.symm ▸ hlt) (h1.trans hd)
  have hslot : ∀ k s, u.sets[k]? = some s →
      m'.src (a.min.toNat + k) = a.mem.src (a.mem.tail s.first).toNat := by
    intro k s hk
    rw [hpsrc, ← (hpos k _ (RsUbatch.firsts_get hk)).1]
    exact permute_src
  refine ⟨⟨hpf.size.trans hsize, hpf.nSeqMax.trans ha.frame.nSeqMax,
    hpf.nRsSeq.trans ha.frame.nRsSeq, hpf.rsIdx.trans ha.frame.rsIdx⟩, ⟨hlen, by omega⟩,
    fun k s hk => place_cell u.sets hk, fun x hx => place_tail u.sets (RsUbatch.mem_seqs.mp hx),
    fun k s hk hl => ?_, fun k s hk hneg => ?_, fun x hl hx => ?_, fun x hx hneg => ?_,
    fun x hx => ?_, fun c hc hcout => ?_, fun c hc hcout => ?_⟩
  · rw [hslot k s hk]
    exact ha.lived _ (mem_reverse.mpr (mem_of_getElem? (RsUbatch.firsts_get hk))) hl
  · rw [hslot k s hk]
    exact ha.fresh _ (mem_reverse.mpr (mem_of_getElem? (RsUbatch.firsts_get hk))) hneg
  · have hxd : x ∉ u.firsts.reverse := fun hx' => hx (hF x (mem_reverse.mp hx')).2
    obtain ⟨h0, hlt, hmem⟩ := hl
    obtain ⟨d, hd⟩ : ∃ d : Nat, m.tail x = d := ⟨(m.tail x).toNat, by omega⟩
    have hdlt : d < m.size := by omega
    have ht := htail x d (Lives.lt hm ⟨h0, hlt, hmem⟩) hx hd
    have hun := ha.untaken (ha.stays _ (by omega) x hmem hxd) hxd
    rw [hd, toNat_natCast] at hun hmem
    obtain ⟨h1, h2, h3⟩ := hrest d hdlt fun t ht => hun t (mem_reverse.mpr ht)
    have hσd := perm_lt hfixn hdlt
    refine ⟨⟨by omega, ?_, ?_⟩, ?_, ?_, ?_⟩
    · rw [hpf.size]
      show m'.tail x < a.mem.size
      omega
    · rw [ht, toNat_natCast, h1, Finset.mem_sdiff, mem_toFinset]
      exact ⟨hmem, fun hx' => hxd (mem_reverse.mpr hx')⟩
    · rw [ht, hd, toNat_natCast, toNat_natCast, h2]
    · rw [ht, hd, toNat_natCast, toNat_natCast, h3]
    · rw [ht, hd, toNat_natCast, toNat_natCast, h1]
  · obtain ⟨h1, h2⟩ := hout x hx
    rw [h2, permute_tail_none (by omega), h1]
  · by_cases hxs : x ∈ u.seqs
    · obtain ⟨k, s, hk, -, e⟩ := place_tail u.sets (m := a.mem.permute σ) (c := a.min.toNat)
        (RsUbatch.mem_seqs.mp hxs)
      have := (List.getElem?_eq_some_iff.mp hk).1
      rw [hm', e]
      omega
    · by_cases h0 : 0 ≤ m.tail x
      · obtain ⟨d, hd⟩ : ∃ d : Nat, m.tail x = d := ⟨(m.tail x).toNat, by omega⟩
        have := hm.tail_lt x hx
        have := perm_lt hfixn (show d < m.size by omega)
        rw [htail x d hx hxs hd]
        omega
      · obtain ⟨h1, h2⟩ := hout x hxs
        rw [h2, permute_tail_none (by omega), h1]
        omega
  · have hσ' : σ (σ.symm c) = c := σ.apply_symm_apply c
    have hd : σ.symm c < m.size :=
      perm_lt (fun d hd => (Equiv.symm_apply_eq σ).mpr (hfixn d hd).symm) hc
    have hno := (hnot (σ.symm c)).mpr (by rwa [hσ'])
    obtain ⟨h1, h2, -⟩ := hrest _ hd hno
    rw [hσ'] at h1 h2
    refine ⟨σ.symm c, hd, h1, h2, fun he => ?_, fun x hx hxs hxd => ?_⟩
    · by_contra hne'
      refine ha.nonempty _ hd hne' ?_
      rw [(ha.rest _ hd fun t ht => hno t (mem_reverse.mp ht)).1, toFinset_reverse, ← h1, he]
    · rw [htail x _ hx hxs hxd, hσ']
  · have hc' : σ c = c := hfix c (by omega)
    have := (hrest c hc fun t ht e => by
      have := hcell t ht
      omega).2.2
    rwa [hc'] at this

end

end RecurrentMemory
end BeeLlama
