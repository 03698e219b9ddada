import BeeLlama.Kv.Cells
import BeeLlama.Lib.Fallible

/-!
# The batch allocator (`llama_batch_allocr::init`)

`init` checks an input batch, fills in the fields that the caller left out and computes what the
splitters read. An array of the input is a list, `none` for a null pointer; the sequence ids of
token `i` are a list of `n_seq_id[i]` entries.

* `init_seqSet`: a token of an accepted batch has a sequence, and its ids are below `n_seq_max`.
-/

namespace BeeLlama

open List

/-- `llama_batch`. -/
structure Batch (E : Type) where
  nTokens : Nat
  token : Option (List Int) := none
  embd : Option (List E) := none
  pos : Option (List Int) := none
  seqId : Option (List (List Int)) := none
  logits : Option (List Int) := none

/-- The arrays of the caller are as long as the batch says. -/
structure Batch.Ok {E : Type} (b : Batch E) (nEmbd nPosPerEmbd : Nat) : Prop where
  token : ∀ l ∈ b.token, l.length = b.nTokens
  embd : ∀ l ∈ b.embd, l.length = b.nTokens * nEmbd
  pos : ∀ l ∈ b.pos, l.length = b.nTokens * if b.token.isSome then 1 else nPosPerEmbd
  seqId : ∀ l ∈ b.seqId, l.length = b.nTokens
  logits : ∀ l ∈ b.logits, l.length = b.nTokens

/-- A batch with all its fields filled in. -/
structure FullBatch (E : Type) where
  nTokens : Nat
  token : Option (List Int)
  embd : Option (List E)
  pos : List Int
  seqId : List (List Int)
  logits : List Int

/-- The positions that a memory stores (`llama_memory_i`). -/
structure MemoryPos where
  seqPosMin : Nat → Int
  seqPosMax : Nat → Int

/-- Where `init` stops. -/
inductive InitFail where
  | noTokens
  /-- A read past the ids of a token. -/
  | outOfBounds (i : Nat)
  | nSeqMax
  | token (i : Nat)
  | seqId (i s : Nat)
  | inconsistentPos (s : Nat)
  | notContinuous (s : Nat)
  | diverged (s₀ s₁ : Nat)
  | incompatibleSets (s : Nat)
  | decreasingPos (s : Nat)
deriving DecidableEq

/-- `llama_batch_allocr`. -/
structure BatchAllocr (E : Type) where
  nPosPerEmbd : Nat
  nEmbd : Nat
  nSeqMax : Nat
  nOutputs : Nat
  batch : FullBatch E
  hasCpl : Bool
  used : Nat → Bool := fun _ => false
  nUsed : Nat := 0
  outIds : List Nat := []

namespace FullBatch

variable {E : Type} (b : FullBatch E)

/-- `seq_set[i]`. -/
def seqSet (i : Nat) : Finset Nat := ((b.seqId.getD i []).map Int.toNat).toFinset

/-- `seq_set_map[set]`: the tokens with this set, in batch order. -/
def seqSetMap (set : Finset Nat) : List Nat :=
  (List.range b.nTokens).filter fun i => decide (b.seqSet i = set)

/-- `seq_pos[s]`. -/
def seqPos (s : Nat) : Finset Int :=
  (((List.range b.nTokens).filter fun i => decide (s ∈ b.seqSet i)).map
    fun i => b.pos.getD i 0).toFinset

def seqPosMin (s : Nat) : Int := if h : (b.seqPos s).Nonempty then (b.seqPos s).min' h else -1

def seqPosMax (s : Nat) : Int := if h : (b.seqPos s).Nonempty then (b.seqPos s).max' h else -1

/-- `seq_cpl[s1][s0]`: a token has `s0` first and `s1` among the others. -/
def seqCpl (s₁ s₀ : Nat) : Bool :=
  (b.seqId.take b.nTokens).any fun ids =>
    decide (ids.head? = some (s₀ : Int)) && decide ((s₁ : Int) ∈ ids.tail)

end FullBatch

/-- A loop that stops at the first failure. -/
def checkAll {α : Type} (l : List α) (f : α → Option InitFail) : Except InitFail Unit :=
  match l.findSome? f with
  | some e => .error e
  | none => .ok ()

namespace Batch

variable {E : Type} (b : Batch E)

/-- The checks of the tokens and of the sequence ids. -/
def validate (nVocab nSeqMax : Nat) : Except InitFail Unit := do
  checkAll (List.range b.nTokens) fun i =>
    match b.token with
    | none => none
    | some l => if l.getD i 0 < 0 ∨ l.getD i 0 ≥ nVocab then some (.token i) else none
  checkAll (List.range b.nTokens) fun i =>
    let ids := (b.seqId.getD []).getD i []
    (List.range ids.length).findSome? fun s =>
      if ids.getD s 0 < 0 ∨ ids.getD s 0 ≥ nSeqMax then some (.seqId i s) else none

/-- The positions that go on from `p0`, sequence by sequence. -/
def genPos : List (List Int) → (Nat → Int) → List Int
  | [], _ => []
  | ids :: rest, p0 =>
    let p := p0 (ids.headD 0).toNat
    p :: genPos rest (ids.foldl (fun p0 s => Function.update p0 s.toNat (p + 1)) p0)

/-- The outputs: all of them, those that the caller marked, or the last one. -/
def genLogits (outputAll : Bool) : List Int :=
  match b.logits with
  | none =>
    if outputAll then List.replicate b.nTokens 1
    else (List.replicate b.nTokens 0).set (b.nTokens - 1) 1
  | some l => if outputAll && l.any (· == 0) then List.replicate b.nTokens 1 else l

/-- The fields that the caller left out. -/
def fill (memory : Option MemoryPos) (outputAll : Bool) : FullBatch E :=
  let seqId := b.seqId.getD (List.replicate b.nTokens [0])
  { nTokens := b.nTokens
    token := b.token
    embd := b.embd
    pos := b.pos.getD (genPos seqId fun s =>
      match memory with
      | none => 0
      | some m => m.seqPosMax s + 1)
    seqId := seqId
    logits := b.genLogits outputAll }

end Batch

namespace FullBatch

variable {E : Type} (b : FullBatch E)

/-- The positions of a sequence go on from those in the memory. -/
def checkPos (nPosPerEmbd : Nat) (memory : Option MemoryPos) (s : Nat) : Option InitFail :=
  let p0 := match memory with
    | none => -1
    | some m => m.seqPosMax s
  if b.seqPos s = ∅ then none
  else if nPosPerEmbd > 1 then
    if b.token.isSome then
      if p0 ≥ 0 ∧ p0 ≥ b.seqPosMin s then some (.inconsistentPos s) else none
    else if p0 ≥ 0 ∧ p0 > b.seqPosMin s then some (.inconsistentPos s) else none
  else if p0 ≥ 0 ∧ b.seqPosMin s ≠ p0 + 1 then some (.inconsistentPos s)
  else if b.seqPosMax s - b.seqPosMin s + 1 > (b.seqPos s).card then some (.notContinuous s)
  else none

/-- Coupled sequences have the same positions in the memory. -/
def checkCpl (memory : Option MemoryPos) (s₀ s₁ : Nat) : Option InitFail :=
  match memory with
  | none => none
  | some m =>
    if b.seqCpl s₀ s₁ ∧ (m.seqPosMin s₀ ≠ m.seqPosMin s₁ ∨ m.seqPosMax s₀ ≠ m.seqPosMax s₁) then
      some (.diverged s₀ s₁)
    else none

/-- The state of the last check: `cur_seq_set` and `cur_seq_pos`. -/
structure CurSeq where
  set : Nat → Finset Nat := fun _ => Finset.range LLAMA_MAX_SEQ
  pos : Nat → Int := fun _ => -1

/-- The check of one id of a token with set `cur` at position `p`. -/
def CurSeq.check (c : CurSeq) (cur : Finset Nat) (p : Int) (s : Nat) : Except InitFail CurSeq :=
  let set := Function.update c.set s (c.set s ∩ cur)
  if set s = ∅ then .error (.incompatibleSets s)
  else if p < c.pos s then .error (.decreasingPos s)
  else .ok ⟨set, Function.update c.pos s p⟩

def CurSeq.checkToken (c : CurSeq) (i : Nat) : Except InitFail CurSeq :=
  (b.seqId.getD i []).foldlM (fun c s => c.check (b.seqSet i) (b.pos.getD i 0) s.toNat) c

/-- The last check of `init`: no partial sequence sets, no decreasing positions. -/
def checkSeqs : Except InitFail CurSeq :=
  (List.range b.nTokens).foldlM (fun c i => CurSeq.checkToken b c i) {}

/-- The first id of every token is read, also of one without ids. -/
def checkFirst : Except InitFail Unit :=
  checkAll (List.range b.nTokens) fun i =>
    if b.seqId.getD i [] = [] then some (.outOfBounds i) else none

end FullBatch

/-- `init`. -/
def Batch.init {E : Type} (b : Batch E) (nPosPerEmbd nVocab : Nat) (memory : Option MemoryPos)
    (nEmbd nSeqMax : Nat) (outputAll : Bool) : Except InitFail (BatchAllocr E) :=
  if b.nTokens = 0 then .error .noTokens
  else if nSeqMax > LLAMA_MAX_SEQ then .error .nSeqMax
  else do
    b.validate nVocab nSeqMax
    let full := b.fill memory outputAll
    full.checkFirst
    checkAll (List.range nSeqMax) (full.checkPos nPosPerEmbd memory)
    checkAll (List.range nSeqMax) fun s₀ =>
      (List.range nSeqMax).findSome? fun s₁ => full.checkCpl memory s₀ s₁
    let _ ← full.checkSeqs
    return {
      nPosPerEmbd, nEmbd, nSeqMax
      nOutputs := (full.logits.take full.nTokens).countP (· != 0)
      batch := full
      hasCpl := (full.seqId.take full.nTokens).any fun ids => decide (1 < ids.length) }

/-! ## What an accepted batch has -/

theorem checkAll_ok {α : Type} {l : List α} {f : α → Option InitFail} {u : Unit}
    (h : checkAll l f = .ok u) : ∀ x ∈ l, f x = none := by
  unfold checkAll at h
  split at h
  · cases h
  · rename_i e
    exact findSome?_eq_none_iff.mp e

section

variable {E : Type} {b : Batch E} {a : BatchAllocr E} {nPosPerEmbd nVocab nEmbd nSeqMax : Nat}
  {memory : Option MemoryPos} {outputAll : Bool}

/-- The allocator that `init` leaves for a batch that it accepts. -/
theorem init_ok (h : b.init nPosPerEmbd nVocab memory nEmbd nSeqMax outputAll = .ok a) :
    0 < b.nTokens ∧ b.validate nVocab nSeqMax = .ok () ∧
      (b.fill memory outputAll).checkFirst = .ok () ∧
      a = { nPosPerEmbd, nEmbd, nSeqMax
            nOutputs := ((b.fill memory outputAll).logits.take b.nTokens).countP (· != 0)
            batch := b.fill memory outputAll
            hasCpl := ((b.fill memory outputAll).seqId.take b.nTokens).any
              fun ids => decide (1 < ids.length) } := by
  unfold Batch.init at h
  split at h
  · cases h
  split at h
  · cases h
  rename_i h0 hmax
  obtain ⟨⟨⟩, hv, h⟩ := bind_ok h
  obtain ⟨⟨⟩, hf, h⟩ := bind_ok h
  obtain ⟨-, -, h⟩ := bind_ok h
  obtain ⟨-, -, h⟩ := bind_ok h
  obtain ⟨-, -, h⟩ := bind_ok h
  exact ⟨by omega, hv, hf, (Except.ok.inj h).symm⟩

/-- A token of an accepted batch has a sequence. -/
theorem init_seqSet (h : b.init nPosPerEmbd nVocab memory nEmbd nSeqMax outputAll = .ok a)
    {i : Nat} (hi : i < a.batch.nTokens) :
    a.batch.seqId.getD i [] ≠ [] ∧ (a.batch.seqSet i).Nonempty := by
  obtain ⟨-, -, hf, rfl⟩ := init_ok h
  have hne := checkAll_ok hf i (mem_range.mpr hi)
  have hne' : (b.fill memory outputAll).seqId.getD i [] ≠ [] := by
    intro e
    rw [if_pos e] at hne
    cases hne
  refine ⟨hne', ?_⟩
  obtain ⟨s, hs⟩ := exists_mem_of_ne_nil _ hne'
  exact ⟨s.toNat, mem_toFinset.mpr (mem_map_of_mem hs)⟩

/-- Without coupled sequences a token has one sequence. -/
theorem init_single (h : b.init nPosPerEmbd nVocab memory nEmbd nSeqMax outputAll = .ok a)
    (hc : a.hasCpl = false) {i : Nat} (hi : i < a.batch.nTokens) :
    ∃ s, a.batch.seqSet i = {s} := by
  obtain ⟨hne, -⟩ := init_seqSet h hi
  obtain ⟨-, -, hf, rfl⟩ := init_ok h
  dsimp only at hc hne hi ⊢
  set f := b.fill memory outputAll
  have hlen : i < f.seqId.length := by
    by_contra hge
    exact hne (by rw [getD_eq_getElem?_getD, getElem?_eq_none (by omega)]; rfl)
  have hmem : f.seqId.getD i [] ∈ f.seqId.take b.nTokens := by
    rw [getD_eq_getElem?_getD, getElem?_eq_getElem hlen]
    exact mem_take_iff_getElem.mpr ⟨i, lt_min hi hlen, rfl⟩
  rw [any_eq_false] at hc
  have hone := hc _ hmem
  unfold FullBatch.seqSet
  match e : f.seqId.getD i [] with
  | [] => exact absurd e hne
  | [s] => exact ⟨s.toNat, by simp⟩
  | _ :: _ :: _ =>
    rw [e] at hone
    simp at hone

end

/-! ## The check of the sequence sets -/

/-- `cur_seq_set[s]` has `s`. -/
def FullBatch.CurSeq.Own (c : FullBatch.CurSeq) : Prop := ∀ t < LLAMA_MAX_SEQ, t ∈ c.set t

/-- The failure of the check of the sequence sets. -/
def InitFail.Incompatible (e : InitFail) : Prop := ∃ s, e = .incompatibleSets s

section

variable {E : Type} {b : FullBatch E}

theorem CurSeq.check_own {c : FullBatch.CurSeq} {cur : Finset Nat} {p : Int} {s : Nat}
    (hc : c.Own) (hs : s < LLAMA_MAX_SEQ) (hcur : s ∈ cur) :
    (∀ e, c.check cur p s = .error e → ¬ e.Incompatible) ∧
      ∀ c', c.check cur p s = .ok c' → c'.Own := by
  have hmem : s ∈ Function.update c.set s (c.set s ∩ cur) s := by
    rw [Function.update_self]
    exact Finset.mem_inter.mpr ⟨hc s hs, hcur⟩
  unfold FullBatch.CurSeq.check
  dsimp only
  rw [if_neg (Finset.ne_empty_of_mem hmem)]
  split
  · refine ⟨fun e he => ?_, fun c' he => by cases he⟩
    obtain rfl := Except.error.inj he
    rintro ⟨s', hs'⟩
    cases hs'
  · refine ⟨fun e he => (by cases he), fun c' he t ht => ?_⟩
    cases he
    rcases eq_or_ne t s with rfl | hne
    · exact hmem
    · show t ∈ Function.update c.set s (c.set s ∩ cur) t
      rw [Function.update_of_ne hne]
      exact hc t ht

end

section

variable {E : Type} {b : Batch E} {nPosPerEmbd nVocab nEmbd nSeqMax : Nat}
  {memory : Option MemoryPos} {outputAll : Bool}

/-- The ids of a batch without the auto-generated ones are below `n_seq_max`. -/
theorem validate_ids (h : b.validate nVocab nSeqMax = .ok ()) {i : Nat} (hi : i < b.nTokens) :
    ∀ s ∈ (b.seqId.getD []).getD i [], 0 ≤ s ∧ s < nSeqMax := by
  obtain ⟨-, -, h⟩ := bind_ok h
  intro s hs
  obtain ⟨k, hk, rfl⟩ := getElem_of_mem hs
  have := findSome?_eq_none_iff.mp (checkAll_ok h i (mem_range.mpr hi)) k (mem_range.mpr hk)
  rw [getD_eq_getElem?_getD, getElem?_eq_getElem hk, Option.getD_some] at this
  by_contra hno
  rw [if_pos (by omega)] at this
  cases this

theorem fill_ids (h : b.validate nVocab nSeqMax = .ok ()) (hmax : nSeqMax ≤ LLAMA_MAX_SEQ) :
    ∀ i < b.nTokens, ∀ s ∈ (b.fill memory outputAll).seqId.getD i [], s.toNat < LLAMA_MAX_SEQ := by
  intro i hi s hs
  have hv := validate_ids h hi
  unfold Batch.fill at hs
  cases e : b.seqId with
  | none =>
    rw [e] at hs
    dsimp only [Option.getD_none] at hs
    rw [getD_eq_getElem?_getD, getElem?_replicate, if_pos hi] at hs
    rw [mem_singleton.mp hs]
    decide
  | some l =>
    rw [e] at hs hv
    have := hv s hs
    omega

end

end BeeLlama
