import BeeLlama.Recurrent.FindSlotInv
import BeeLlama.Lib.Run

/-!
# Runs of the recurrent memory

`RecurrentMemory.Op` is a call of an operation and `RecurrentMemory.sys` the memory with these
calls, from an empty memory. A call of `find_slot` comes from a context, whose ubatches have
disjoint sequence sets (`RsUbatch.Ok`).

* `Op.Keeps`: what a call has to meet so that the tails stay in order. A removal for all sequences
  at once leaves the tails of the sequences that it removes, and a cell whose position has become
  negative is not counted when it is emptied.
* `reach_tails`: along the runs whose calls meet it, the tails, `used` and the empty cells are as
  they should be, and the assert on `seq_meta.tail` does not fail.
-/

namespace BeeLlama.RecurrentMemory

open List Function

section

variable {m : RecurrentMemory}

/-! ## A whole restore -/

/-- The tails and the cells agree, whatever the positions are. -/
structure Links (m : RecurrentMemory) : Prop where
  own : ∀ c, c < m.size → ∀ s ∈ m.seqId c, s < m.size ∧ m.tail s = c
  tail : ∀ s, s < m.size → m.tail s = -1 ∨ ∃ c, c < m.size ∧ m.tail s = (c : Nat) ∧ s ∈ m.seqId c

theorem Links.join (h : m.Links) {s c : Nat} (hs : s < m.size) (hc : c < m.size)
    (ht : m.tail s = -1) :
    ({ m with
        seqId := Function.update m.seqId c (insert s (m.seqId c))
        tail := Function.update m.tail s c } : RecurrentMemory).Links := by
  have hmem : ∀ i x, x ∈ Function.update m.seqId c (insert s (m.seqId c)) i ↔
      x ∈ m.seqId i ∨ (i = c ∧ x = s) := by
    intro i x
    rcases eq_or_ne i c with rfl | hic
    · rw [update_self, Finset.mem_insert]
      tauto
    · rw [update_of_ne hic]
      tauto
  refine ⟨fun i hi x hx => ?_, fun x hx => ?_⟩
  · rcases (hmem i x).mp hx with hx | ⟨rfl, rfl⟩
    · obtain ⟨hlt, e⟩ := h.own i hi x hx
      have hxs : x ≠ s := by
        rintro rfl
        omega
      exact ⟨hlt, (update_of_ne hxs ..).trans e⟩
    · exact ⟨hs, update_self ..⟩
  · rcases eq_or_ne x s with rfl | hxs
    · exact .inr ⟨c, hc, update_self .., (hmem c x).mpr (.inr ⟨rfl, rfl⟩)⟩
    · rcases h.tail x hx with e | ⟨i, hi, e, hx'⟩
      · exact .inl ((update_of_ne hxs ..).trans e)
      · exact .inr ⟨i, hi, (update_of_ne hxs ..).trans e, (hmem i x).mpr (.inl hx')⟩

theorem links_clear (m : RecurrentMemory) : m.clear.Links where
  own c hc s hs := by
    have hs' : s ∈ if c < m.size then ∅ else m.seqId c := hs
    rw [if_pos (show c < m.size from hc)] at hs'
    exact absurd hs' (Finset.notMem_empty s)
  tail s hs := .inl (if_pos hs)

theorem readIds_spec (ids : List Int) : ∀ {m m' : RecurrentMemory} {i : Nat}, m.Links →
    m.nSeqMax ≤ m.size → i < m.size → m.readIds i ids = (m', true) →
    m'.Links ∧ m' = { m with seqId := m'.seqId, tail := m'.tail } ∧
      (∀ c, c ≠ i → m'.seqId c = m.seqId c) ∧
      m'.seqId i = m.seqId i ∪ (ids.map Int.toNat).toFinset := by
  induction ids with
  | nil =>
    intro m m' i h _ _ e
    cases e
    exact ⟨h, rfl, fun _ _ => rfl, (Finset.union_empty _).symm⟩
  | cons id ids ih =>
    intro m m' i h hmax hi e
    unfold readIds at e
    split at e
    · simp at e
    · rename_i hid
      dsimp only at e
      split at e
      · simp at e
      · rename_i ht
        have ht' : m.tail id.toNat = -1 := not_not.mp ht
        obtain ⟨hl, heq, hsame, hcell⟩ := ih (h.join (by omega) hi ht') hmax hi e
        refine ⟨hl, heq, fun c hc => (hsame c hc).trans (update_of_ne hc ..), ?_⟩
        rw [hcell, map_cons, toFinset_cons, Finset.union_insert, ← Finset.insert_union]
        exact congrArg (· ∪ _) (update_self ..)

theorem readCells_spec (rs : List CellRecord) : ∀ {m m' : RecurrentMemory} {i : Nat}, m.Links →
    m.nSeqMax ≤ m.size → i + rs.length ≤ m.size → m.readCells i rs = (m', true) →
    m'.Links ∧ m' = { m with seqId := m'.seqId, tail := m'.tail, pos := m'.pos } ∧
      (∀ c, c < i ∨ i + rs.length ≤ c → m'.seqId c = m.seqId c ∧ m'.pos c = m.pos c) ∧
      ∀ k r, rs[k]? = some r → m'.pos (i + k) = r.pos ∧
        m'.seqId (i + k) = m.seqId (i + k) ∪ (r.seqIds.map Int.toNat).toFinset := by
  induction rs with
  | nil =>
    intro m m' i h _ _ e
    cases e
    exact ⟨h, rfl, fun _ _ => ⟨rfl, rfl⟩, fun k r hk => by simp at hk⟩
  | cons r rs ih =>
    intro m m' i h hmax hlen e
    rw [length_cons] at hlen
    unfold readCells at e
    split at e
    · simp at e
    · rename_i m1 e1
      have hpos : ({ m with pos := Function.update m.pos i r.pos } : RecurrentMemory).Links :=
        ⟨h.own, h.tail⟩
      obtain ⟨h1, heq1, hsame1, hcell1⟩ := readIds_spec r.seqIds hpos hmax
        (by show i < m.size; omega) e1
      have hsize : m1.size = m.size := by rw [heq1]
      have hp1 : m1.pos = Function.update m.pos i r.pos := by rw [heq1]
      obtain ⟨h', heq, hsame, hcell⟩ := ih h1 (by rw [heq1]; exact hmax) (by omega) e
      refine ⟨h', by rw [heq, heq1], fun c hc => ?_, fun k t hk => ?_⟩
      · rw [length_cons] at hc
        obtain ⟨hs, hp⟩ := hsame c (by omega)
        rw [hs, hp, hp1, update_of_ne (by omega)]
        exact ⟨hsame1 c (by omega), rfl⟩
      · cases k with
        | zero =>
          cases hk
          obtain ⟨hs, hp⟩ := hsame i (by omega)
          rw [Nat.add_zero, hs, hp, hp1, update_self]
          exact ⟨rfl, hcell1⟩
        | succ k =>
          have := hcell k t hk
          rw [Nat.add_assoc, Nat.add_comm 1 k, hsame1 _ (by omega)] at this
          exact this

/-- The records that are read leave the tails in order. -/
def ReadKeeps (m : RecurrentMemory) (rs : List CellRecord) (dest : Int) : Prop :=
  if dest = -1 then ∀ r ∈ rs, r.seqIds ≠ [] else m.RmKeeps dest (-1) (-1)

theorem Inv.ownSources (h : m.Inv) (count : Nat) : (m.ownSources count).Inv :=
  h.congr rfl rfl rfl rfl rfl rfl h.tails.empty

variable {rs : List CellRecord} {m' : RecurrentMemory}

/-- What a whole restore leaves, whatever the records hold. -/
theorem readWhole_spec (hmax : m.nSeqMax ≤ m.size) (hlen : rs.length ≤ m.size)
    (e : m.clear.readCells 0 rs = (m', true)) :
    m'.Links ∧ m' = { m.clear with seqId := m'.seqId, tail := m'.tail, pos := m'.pos } ∧
      (∀ c, c < m.size → rs.length ≤ c → m'.seqId c = ∅ ∧ m'.pos c = -1) ∧
      ∀ k r, rs[k]? = some r →
        m'.pos k = r.pos ∧ m'.seqId k = (r.seqIds.map Int.toNat).toFinset := by
  obtain ⟨hl, heq, hsame, hcell⟩ := readCells_spec rs (links_clear m) hmax
    (by show 0 + rs.length ≤ m.size; omega) e
  refine ⟨hl, heq, fun c hc hcl => ?_, fun k r hk => ?_⟩
  · obtain ⟨h1, h2⟩ := hsame c (by omega)
    rw [h1, h2]
    exact ⟨if_pos hc, if_pos hc⟩
  · have hkl := (List.getElem?_eq_some_iff.mp hk).1
    have := hcell k r hk
    rwa [Nat.zero_add, show m.clear.seqId k = ∅ from if_pos (by omega),
      Finset.empty_union] at this

theorem Inv.readWhole (h : m.Inv) (hlen : rs.length ≤ m.size) (hids : ∀ r ∈ rs, r.seqIds ≠ [])
    (e : m.clear.readCells 0 rs = (m', true)) :
    ({ m' with head := 0, used := rs.length } : RecurrentMemory).Inv := by
  obtain ⟨hl, heq, hempty, hcell⟩ := readWhole_spec h.seqs_le hlen e
  have hsize : m'.size = m.size := by rw [heq]; rfl
  have hiff : ∀ c, c < m.size → (m'.seqId c ≠ ∅ ↔ c < rs.length) := by
    intro c hcs
    by_cases hcl : c < rs.length
    · refine iff_of_true ?_ hcl
      rw [(hcell c _ (getElem?_eq_getElem hcl)).2]
      simpa using hids _ (getElem_mem hcl)
    · exact iff_of_false (not_not.mpr (hempty c hcs (by omega)).1) hcl
  refine ⟨hsize.symm ▸ h.size_lt, ?_, ?_, ⟨hl.own, fun s hs => ?_, fun c hcs he => ?_⟩, ?_⟩
  · show m'.nSeqMax ≤ m'.size
    rw [heq]
    exact h.seqs_le
  · show 0 < m'.size
    have := h.head_lt
    omega
  · rcases hl.tail s hs with ht | ⟨c, hcs, ht, hm⟩
    · exact .inl ht
    · exact .inr ⟨c, hcs, ht, .inl hm⟩
  · have hcs' : c < m.size := hsize ▸ hcs
    refine (hempty c hcs' ?_).2
    by_contra hcl
    exact (hiff c hcs').mpr (by omega) he
  · rw [countUsed_eq]
    have : ({ m' with head := 0, used := rs.length } : RecurrentMemory).usedCells =
        Finset.range rs.length := by
      ext c
      rw [mem_usedCells, Finset.mem_range]
      constructor
      · rintro ⟨hcs, hcne⟩
        exact (hiff c (hsize ▸ hcs)).mp hcne
      · intro hcl
        exact ⟨hsize.symm ▸ (by omega), (hiff c (by omega)).mpr hcl⟩
    rw [this, Finset.card_range]

theorem Inv.stateRead (h : m.Inv) {dest : Int} (hk : m.ReadKeeps rs dest)
    {dataOk b : Bool} (e : m.stateRead rs dest dataOk = .ok (m', b)) :
    m'.Inv := by
  have hmeta : ∀ {x : RecurrentMemory}, m.stateReadMeta rs dest = .ok (x, true) → x.Inv := by
    intro x ex
    unfold stateReadMeta at ex
    unfold ReadKeeps at hk
    by_cases hd : dest = -1
    · rw [if_pos hd] at hk
      rw [if_neg (not_not.mpr hd)] at ex
      split at ex
      · simp at ex
      · split at ex
        · simp at ex
        · rename_i hlen x' e'
          simp only [Except.ok.injEq, Prod.mk.injEq, and_true] at ex
          rw [← ex]
          exact (h.readWhole (by omega) hk e').ownSources _
    · rw [if_neg hd] at hk
      rw [if_pos hd] at ex
      have hrm := h.seqRm hk
      dsimp only at ex
      split at ex
      · simp only [Except.ok.injEq, Prod.mk.injEq, and_true] at ex
        rw [← ex]
        exact hrm
      · rename_i last hlast
        split at ex
        · simp at ex
        · have hu : RsUbatch.Ok { nSeqTokens := rs.length, sets := [⟨[dest], last.pos⟩] } :=
            ⟨by simp, by simp, by simp⟩
          rcases findSlot_spec hrm hu with ⟨y, ey, -⟩ | ⟨y, ey, hf⟩ | ey | ey <;> rw [ey] at ex
          · simp at ex
          · dsimp only at ex
            split at ex
            · simp only [Except.ok.injEq, Prod.mk.injEq, and_true] at ex
              rw [← ex]
              exact hf.inv.ownSources _
            · simp at ex
          · simp at ex
          · simp at ex
  unfold RecurrentMemory.stateRead at e
  split at e
  · simp at e
  · rename_i x res ex
    dsimp only at e
    split at e
    · rename_i hres
      obtain ⟨hr, -⟩ := Bool.and_eq_true_iff.mp hres
      subst hr
      have hx := hmeta ex
      simp only [Except.ok.injEq, Prod.mk.injEq] at e
      rw [← e.1]
      split
      · split
        · exact hx.congr rfl rfl rfl rfl rfl rfl hx.tails.empty
        · exact hx.setRsIdx _ _
      · exact hx
    · simp only [Except.ok.injEq, Prod.mk.injEq] at e
      rw [← e.1]
      exact h.congr rfl rfl rfl rfl rfl rfl h.tails.empty

end

/-! ## Calls -/

/-- The memory that the constructor makes. -/
def create (memSize nSeqMax nRsSeq : Nat) : RecurrentMemory :=
  { size := memSize, nSeqMax := nSeqMax, nRsSeq := nRsSeq }

/-- A call of an operation. -/
inductive Op where
  | clear
  | findSlot (u : RsUbatch)
  | prepare (us : List RsUbatch)
  | seqRm (seqId p0 p1 : Int)
  | seqRmCell (seqId : Int) (cellIdx : Nat)
  | seqCp (src dst : Int)
  | seqKeep (seqId : Int)
  | seqAdd (seqId p0 p1 shift : Int)
  | seqDiv (seqId p0 p1 d : Int)
  | stateRead (rs : List CellRecord) (dest : Int) (dataOk : Bool)

/-- The memory after the call; the returned flag is left out. -/
def Op.apply (m : RecurrentMemory) : Op → Except RsAssert RecurrentMemory
  | .clear => .ok m.clear
  | .findSlot u => (m.findSlot u).map Prod.fst
  | .prepare us => (m.prepare us).map Prod.fst
  | .seqRm seqId p0 p1 => .ok (m.seqRm seqId p0 p1).1
  | .seqRmCell seqId cellIdx => .ok (m.seqRmCell seqId cellIdx).1
  | .seqCp src dst => .ok (m.seqCp src dst)
  | .seqKeep seqId => .ok (m.seqKeep seqId)
  | .seqAdd seqId p0 p1 shift => .ok (m.seqAdd seqId p0 p1 shift)
  | .seqDiv seqId p0 p1 d => .ok (m.seqDiv seqId p0 p1 d)
  | .stateRead rs dest dataOk => (m.stateRead rs dest dataOk).map Prod.fst

/-- The ubatches come from the splitters. -/
def Op.Valid : Op → Prop
  | .findSlot u => u.Ok
  | .prepare us => ∀ u ∈ us, u.Ok
  | _ => True

/-- The call leaves the tails in order. -/
def Op.Keeps (m : RecurrentMemory) : Op → Prop
  | .seqRm seqId p0 p1 => m.RmKeeps seqId p0 p1
  | .seqRmCell seqId cellIdx => m.RmCellKeeps seqId cellIdx
  | .seqKeep seqId => m.KeepKeeps seqId
  | .stateRead rs dest _ => m.ReadKeeps rs dest
  | _ => True

/-- The memory with its calls, from an empty one with a cell for each sequence. -/
def sys : Sys RecurrentMemory Op where
  init m := ∃ memSize nSeqMax nRsSeq, 0 < memSize ∧ nSeqMax ≤ memSize ∧ memSize ≤ INT32_MAX ∧
    m = create memSize nSeqMax nRsSeq
  step m op m' := op.Valid ∧ op.apply m = .ok m'

theorem inv_create {memSize nSeqMax nRsSeq : Nat} (h0 : 0 < memSize) (hmax : nSeqMax ≤ memSize)
    (hsize : memSize ≤ INT32_MAX) : (create memSize nSeqMax nRsSeq).Inv where
  size_lt := by
    unfold INT32_MAX at hsize
    show memSize < 2 ^ 32
    omega
  seqs_le := hmax
  head_lt := h0
  tails := ⟨fun c _ s hs => absurd hs (Finset.notMem_empty s), fun _ _ => .inl rfl,
    fun _ _ _ => rfl⟩
  used := by
    have : (create memSize nSeqMax nRsSeq).usedCells = ∅ := by
      rw [Finset.eq_empty_iff_forall_notMem]
      exact fun i hi => (mem_usedCells.mp hi).2 rfl
    rw [countUsed_eq, this]
    rfl

theorem map_fst_ok {α : Type} {x : Except RsAssert (RecurrentMemory × α)} {m' : RecurrentMemory}
    (h : x.map Prod.fst = .ok m') : ∃ a, x = .ok (m', a) := by
  cases x with
  | error e => cases h
  | ok r =>
    obtain ⟨m, a⟩ := r
    cases h
    exact ⟨a, rfl⟩

theorem Inv.findSlot {m m' : RecurrentMemory} (h : m.Inv) {u : RsUbatch} (hu : u.Ok) {b : Bool}
    (e : m.findSlot u = .ok (m', b)) : m'.Inv := by
  rcases findSlot_spec h hu with ⟨x, ex, hx, -⟩ | ⟨x, ex, hf⟩ | ex | ex <;> rw [ex] at e
  · cases e
    exact hx
  · cases e
    exact hf.inv
  · cases e
  · cases e

theorem Inv.apply {m m' : RecurrentMemory} (h : m.Inv) {op : Op} (hv : op.Valid)
    (hk : op.Keeps m) (e : op.apply m = .ok m') : m'.Inv := by
  have hok : ∀ {x : RecurrentMemory}, (.ok x : Except RsAssert RecurrentMemory) = .ok m' →
      x = m' := fun e => Except.ok.inj e
  cases op with
  | clear => rw [← hok e]; exact h.clear
  | findSlot u =>
    obtain ⟨b, e⟩ := map_fst_ok e
    exact h.findSlot hv e
  | prepare us =>
    obtain ⟨b, e⟩ := map_fst_ok e
    unfold RecurrentMemory.prepare at e
    split at e
    · cases e
    · cases e
      exact h.congr rfl rfl rfl rfl rfl rfl h.tails.empty
  | seqRm seqId p0 p1 => rw [← hok e]; exact h.seqRm hk
  | seqRmCell seqId cellIdx => rw [← hok e]; exact h.seqRmCell hk
  | seqCp src dst => rw [← hok e]; exact h.seqCp src dst
  | seqKeep seqId => rw [← hok e]; exact h.seqKeep hk
  | seqAdd seqId p0 p1 shift => rw [← hok e]; exact h.seqAdd seqId p0 p1 shift
  | seqDiv seqId p0 p1 d => rw [← hok e]; exact h.seqDiv seqId p0 p1 d
  | stateRead rs dest dataOk =>
    obtain ⟨b, e⟩ := map_fst_ok e
    exact h.stateRead hk e

theorem inv_inductive : sys.Inductive (fun m op => op.Keeps m) Inv where
  init m hm := by
    obtain ⟨memSize, nSeqMax, nRsSeq, h0, hmax, hsize, rfl⟩ := hm
    exact inv_create h0 hmax hsize
  step m op m' h _ e hk := h.apply e.1 hk e.2

/-- What the tails and `used` stand for. -/
structure TailInvariant (m : RecurrentMemory) : Prop where
  tail : ∀ s, s < m.size → (m.tail s = -1 ∧ ∀ c, c < m.size → s ∉ m.seqId c) ∨
    ∃ c, c < m.size ∧ m.tail s = (c : Nat) ∧ s ∈ m.seqId c ∧ ∀ d, d < m.size → s ∈ m.seqId d → d = c
  known : ∀ c, c < m.size → ∀ s ∈ m.seqId c, s < m.size
  used : m.used = ((Finset.range m.size).filter fun c => m.seqId c ≠ ∅).card
  empty : ∀ c, c < m.size → m.seqId c = ∅ → m.pos c = -1

theorem Inv.tailInvariant {m : RecurrentMemory} (h : m.Inv) : m.TailInvariant where
  tail s hs := by
    rcases h.tails.tail s hs with e | ⟨c, hc, e, hm | hf⟩
    · exact .inl ⟨e, fun c hc => h.tails.not_mem hc (by omega)⟩
    · refine .inr ⟨c, hc, e, hm, fun d hd hsd => ?_⟩
      have := (h.tails.own d hd s hsd).2
      omega
    · exact hf.1.elim
  known c hc s hs := (h.tails.own c hc s hs).1
  used := h.used.trans m.countUsed_eq
  empty := h.tails.empty

/-- Along every run whose calls meet `Op.Keeps` the tails are right, and `find_slot` never fails at
its assert on `seq_meta.tail`. -/
theorem reach_tails {m : RecurrentMemory} (h : sys.Reach (fun m op => op.Keeps m) m) :
    m.TailInvariant ∧ ∀ u : RsUbatch, u.Ok → m.findSlot u ≠ .error .tailHasSeqId := by
  have hi := h.inv inv_inductive
  refine ⟨hi.tailInvariant, fun u hu e => ?_⟩
  rcases findSlot_spec hi hu with ⟨x, ex, -⟩ | ⟨x, ex, -⟩ | ex | ex <;> rw [ex] at e <;> cases e

/-! ## Runs of a list of calls -/

/-- The calls, one after the other. -/
def runOps (m : RecurrentMemory) : List Op → Except RsAssert RecurrentMemory
  | [] => .ok m
  | op :: ops =>
    match op.apply m with
    | .error x => .error x
    | .ok m => runOps m ops

/-- The calls are valid and meet `ok`. -/
def Runs (ok : RecurrentMemory → Op → Prop) : List Op → RecurrentMemory → Prop
  | [], _ => True
  | op :: ops, m => op.Valid ∧ ok m op ∧ ∀ m', op.apply m = .ok m' → Runs ok ops m'

theorem reach_runOps {ok : RecurrentMemory → Op → Prop} (ops : List Op) :
    ∀ {m m' : RecurrentMemory}, sys.Reach ok m → Runs ok ops m → m.runOps ops = .ok m' →
      sys.Reach ok m' := by
  induction ops with
  | nil =>
    intro m m' h _ e
    cases e
    exact h
  | cons op ops ih =>
    rintro m m' h ⟨hv, hk, hops⟩ e
    unfold runOps at e
    split at e
    · cases e
    · rename_i m1 e1
      exact ih (h.step (fun o ho => absurd ho (Set.notMem_empty o)) ⟨hv, e1⟩ hk) (hops m1 e1) e

/-- A ubatch with one sequence. -/
def oneSeq (s p : Int) : RsUbatch := { sets := [⟨[s], p⟩] }

theorem oneSeq_ok (s p : Int) : (oneSeq s p).Ok := ⟨by simp [oneSeq], by simp [oneSeq], by
  simp [oneSeq]⟩

theorem create_init : sys.init (create 2 2 1) := ⟨2, 2, 1, by decide, by decide, by decide, rfl⟩

/-- The memory that the calls leave. -/
def run (m : RecurrentMemory) (ops : List Op) : RecurrentMemory :=
  match m.runOps ops with
  | .ok m' => m'
  | .error _ => m

theorem reach_run {ok : RecurrentMemory → Op → Prop} {m : RecurrentMemory} {ops : List Op}
    (h : sys.Reach ok m) (hr : Runs ok ops m) (hok : (m.runOps ops).isOk = true) :
    sys.Reach ok (m.run ops) := by
  refine reach_runOps ops h hr ?_
  unfold run
  split
  · assumption
  · rename_i e
    rw [e] at hok
    cases hok

/-- Sequence `1` copies sequence `0`, goes on alone, and sequence `0` is removed. -/
def copyAndGoOn : List Op :=
  [.findSlot (oneSeq 0 0), .seqCp 0 1, .findSlot (oneSeq 1 1), .seqRm 0 (-1) (-1)]

/-- The run leaves sequence `1` in the second cell. -/
theorem reach_tails_copy : ((create 2 2 1).run copyAndGoOn).tail 1 = 1 ∧
      ((create 2 2 1).run copyAndGoOn).TailInvariant := by
  refine ⟨by decide +kernel, (reach_tails (reach_run (.init create_init) ?_
    (by decide +kernel))).1⟩
  exact ⟨oneSeq_ok 0 0, trivial, fun _ _ => ⟨trivial, trivial, fun _ _ =>
    ⟨oneSeq_ok 1 1, trivial, fun _ _ => ⟨trivial, .inl (by decide), fun _ _ => trivial⟩⟩⟩⟩

/-- Sequence `0` is decoded, then everything is removed. -/
def removeAll : List Op := [.findSlot (oneSeq 0 0), .seqRm (-1) (-1) (-1)]

/-- After the removal of all sequences the tails are left, and the next decode of sequence `0`
fails at the assert. -/
theorem reach_not_tails : ¬ ∀ m, sys.Reach (fun _ _ => True) m →
      m.TailInvariant ∧ ∀ u : RsUbatch, u.Ok → m.findSlot u ≠ .error .tailHasSeqId := by
  intro h
  have hr : sys.Reach (fun _ _ => True) ((create 2 2 1).run removeAll) :=
    reach_run (.init create_init) ⟨oneSeq_ok 0 0, trivial, fun _ _ =>
      ⟨trivial, trivial, fun _ _ => trivial⟩⟩ (by decide +kernel)
  refine (h _ hr).2 (oneSeq 0 0) (oneSeq_ok 0 0) ?_
  have : (((create 2 2 1).run removeAll).findSlot (oneSeq 0 0)).map (fun _ => ()) =
      .error .tailHasSeqId := by decide +kernel
  cases e : ((create 2 2 1).run removeAll).findSlot (oneSeq 0 0) with
  | error x =>
    rw [e] at this
    rw [Except.error.inj this]
  | ok r =>
    rw [e] at this
    cases this

end BeeLlama.RecurrentMemory
