import BeeLlama.Batch.Alloc

/-!
# Which batches `init` accepts

`Batch.Rules` has one field for each check of `init`. The last check folds the tokens into the
latest position of each sequence (`cur_seq_pos`), and with `CurSeq.Tracks` it says that the
positions do not decrease. The intersections in `cur_seq_set` are never empty, so that
`FullBatch.Nested`, what they are meant to check, is not among the rules.

* `checkSeqs_iff`: what the last check asks for.
* `init_accepts_iff`: `init` accepts a batch exactly if it meets the rules.
* `init_law_iff`: for which batches `init` enforces nested sequence sets.
-/

namespace BeeLlama

open List Function

/-! ## The last check -/

namespace FullBatch

variable {E : Type} (b : FullBatch E)

/-- `batch.pos[i]`, the first position of the token. -/
def posAt (i : Nat) : Int := b.pos.getD i 0

/-- Tokens that share a sequence: the later one has no sequence that the earlier one has not. -/
def Nested : Prop :=
  ∀ j < b.nTokens, ∀ i < j, ¬ Disjoint (b.seqSet i) (b.seqSet j) → b.seqSet j ⊆ b.seqSet i

/-- The positions of a sequence do not decrease. -/
def Steady : Prop :=
  ∀ j < b.nTokens, ∀ i < j, ∀ s, s ∈ b.seqSet i → s ∈ b.seqSet j → b.posAt i ≤ b.posAt j

/-- The positions are not below the one that the check starts with. -/
def PosFrom : Prop := ∀ i < b.nTokens, (b.seqSet i).Nonempty → -1 ≤ b.posAt i

theorem mem_seqSet {i s : Nat} : s ∈ b.seqSet i ↔ ∃ id ∈ b.seqId.getD i [], id.toNat = s := by
  unfold seqSet
  rw [mem_toFinset, mem_map]

/-- `cur_seq_pos` after the first `k` tokens. -/
structure CurSeq.Tracks (c : CurSeq) (k : Nat) : Prop where
  own : c.Own
  ge : ∀ i < k, ∀ s ∈ b.seqSet i, b.posAt i ≤ c.pos s
  low : ∀ s, -1 ≤ c.pos s
  last : ∀ s, c.pos s = -1 ∨ ∃ i < k, s ∈ b.seqSet i ∧ c.pos s = b.posAt i

end FullBatch

section

open FullBatch

variable {E : Type} {b : FullBatch E} {c c' : CurSeq} {cur : Finset Nat} {p : Int}
  {ids : List Int}

theorem CurSeq.check_eq (hown : c.Own) {s : Nat} (hs : s < LLAMA_MAX_SEQ) (hcur : s ∈ cur) :
    c.check cur p s = if p < c.pos s then .error (.decreasingPos s) else
      .ok ⟨Function.update c.set s (c.set s ∩ cur), Function.update c.pos s p⟩ := by
  have hmem : s ∈ Function.update c.set s (c.set s ∩ cur) s := by
    rw [update_self]
    exact Finset.mem_inter.mpr ⟨hown s hs, hcur⟩
  unfold CurSeq.check
  dsimp only
  rw [if_neg (Finset.ne_empty_of_mem hmem)]

/-- The ids of a token pass the check if none of them is at a later position, and then they are
all at this one. -/
theorem checkIds_ok (hown : c.Own) (hids : ∀ s ∈ ids, s.toNat < LLAMA_MAX_SEQ ∧ s.toNat ∈ cur) :
    (∃ c', ids.foldlM (fun c s => c.check cur p s.toNat) c = .ok c') ↔
      ∀ s ∈ ids, c.pos s.toNat ≤ p := by
  induction ids generalizing c with
  | nil => exact ⟨fun _ s hs => absurd hs not_mem_nil, fun _ => ⟨c, rfl⟩⟩
  | cons s ids ih =>
    obtain ⟨hs, hcur⟩ := hids s mem_cons_self
    rw [foldlM_cons, CurSeq.check_eq hown hs hcur, forall_mem_cons]
    by_cases hp : p < c.pos s.toNat
    · rw [if_pos hp]
      refine ⟨fun ⟨c', h⟩ => (by cases h), fun h => absurd hp (Int.not_lt.mpr h.1)⟩
    · rw [if_neg hp]
      have hown' := (CurSeq.check_own (p := p) hown hs hcur).2 _
        ((CurSeq.check_eq hown hs hcur).trans (if_neg hp))
      refine (ih hown' fun t ht => hids t (mem_cons_of_mem s ht)).trans ?_
      refine Iff.trans (forall₂_congr fun t _ => ?_) (and_iff_right (Int.not_lt.mp hp)).symm
      rcases eq_or_ne t.toNat s.toNat with h | h
      · simp only [h, update_self, le_refl, true_iff]
        omega
      · simp only [update_of_ne h]

theorem checkIds_pos (hown : c.Own) (hids : ∀ s ∈ ids, s.toNat < LLAMA_MAX_SEQ ∧ s.toNat ∈ cur)
    (h : ids.foldlM (fun c s => c.check cur p s.toNat) c = .ok c') :
    c'.Own ∧ ∀ t, c'.pos t = if ∃ s ∈ ids, s.toNat = t then p else c.pos t := by
  induction ids generalizing c with
  | nil =>
    cases h
    exact ⟨hown, fun t => by simp⟩
  | cons s ids ih =>
    obtain ⟨hs, hcur⟩ := hids s mem_cons_self
    rw [foldlM_cons] at h
    obtain ⟨c1, h1, h⟩ := bind_ok h
    obtain ⟨hown', hpos⟩ := ih ((CurSeq.check_own hown hs hcur).2 c1 h1)
      (fun t ht => hids t (mem_cons_of_mem s ht)) h
    refine ⟨hown', fun t => ?_⟩
    rw [CurSeq.check_eq hown hs hcur] at h1
    split at h1
    · cases h1
    cases h1
    rw [hpos t]
    rcases eq_or_ne t s.toNat with rfl | hne
    · simp
    · simp [update_of_ne hne, Ne.symm hne]

/-- One token of the last check. -/
theorem FullBatch.CurSeq.Tracks.step {k : Nat} (h : CurSeq.Tracks b c k)
    (hids : ∀ s ∈ b.seqId.getD k [], s.toNat < LLAMA_MAX_SEQ) :
    ((∃ c', CurSeq.checkToken b c k = .ok c') ↔ ∀ s ∈ b.seqSet k, c.pos s ≤ b.posAt k) ∧
    ∀ c', CurSeq.checkToken b c k = .ok c' → CurSeq.Tracks b c' (k + 1) := by
  have hids' : ∀ s ∈ b.seqId.getD k [], s.toNat < LLAMA_MAX_SEQ ∧ s.toNat ∈ b.seqSet k :=
    fun s hs => ⟨hids s hs, (mem_seqSet b).mpr ⟨s, hs, rfl⟩⟩
  have hok := checkIds_ok (p := b.posAt k) h.own hids'
  constructor
  · refine hok.trans ⟨fun hle s hs => ?_, fun hle s hs => hle _ (hids' s hs).2⟩
    obtain ⟨id, hid, rfl⟩ := (mem_seqSet b).mp hs
    exact hle id hid
  intro c' hc'
  obtain ⟨hown, hpos⟩ := checkIds_pos h.own hids' hc'
  have hle := hok.mp ⟨c', hc'⟩
  have hnew : ∀ s ∈ b.seqSet k, c'.pos s = b.posAt k ∧ c.pos s ≤ b.posAt k := fun s hs => by
    obtain ⟨id, hid, rfl⟩ := (mem_seqSet b).mp hs
    exact ⟨(hpos _).trans (if_pos ⟨id, hid, rfl⟩), hle id hid⟩
  have hold : ∀ s ∉ b.seqSet k, c'.pos s = c.pos s := fun s hs =>
    (hpos s).trans (if_neg fun hid => hs ((mem_seqSet b).mpr hid))
  refine ⟨hown, fun i hi s hs => ?_, fun s => ?_, fun s => ?_⟩
  · by_cases hk : s ∈ b.seqSet k
    · obtain ⟨he, hge⟩ := hnew s hk
      rw [he]
      rcases Nat.lt_succ_iff_lt_or_eq.mp hi with hi | rfl
      · exact (h.ge i hi s hs).trans hge
      · exact le_refl _
    · rw [hold s hk]
      rcases Nat.lt_succ_iff_lt_or_eq.mp hi with hi | rfl
      · exact h.ge i hi s hs
      · exact absurd hs hk
  · by_cases hk : s ∈ b.seqSet k
    · obtain ⟨he, hge⟩ := hnew s hk
      exact he ▸ (h.low s).trans hge
    · exact hold s hk ▸ h.low s
  · by_cases hk : s ∈ b.seqSet k
    · exact .inr ⟨k, Nat.lt_succ_self k, hk, (hnew s hk).1⟩
    · rw [hold s hk]
      exact (h.last s).imp_right fun ⟨i, hi, hr⟩ => ⟨i, Nat.lt_succ_of_lt hi, hr⟩

/-- The tokens before `k` meet the last check. -/
def SteadyBelow (b : FullBatch E) (k : Nat) : Prop :=
  (∀ j < k, ∀ i < j, ∀ s, s ∈ b.seqSet i → s ∈ b.seqSet j → b.posAt i ≤ b.posAt j) ∧
    ∀ i < k, (b.seqSet i).Nonempty → -1 ≤ b.posAt i

theorem checkTokens_iff {k : Nat}
    (hids : ∀ i < k, ∀ s ∈ b.seqId.getD i [], s.toNat < LLAMA_MAX_SEQ) :
    ((∃ c, (List.range k).foldlM (fun c i => CurSeq.checkToken b c i) {} = .ok c) ↔
      SteadyBelow b k) ∧
    ∀ c, (List.range k).foldlM (fun c i => CurSeq.checkToken b c i) {} = .ok c →
      CurSeq.Tracks b c k := by
  induction k with
  | zero =>
    refine ⟨⟨fun _ => ⟨fun j hj => absurd hj (Nat.not_lt_zero j), fun j hj =>
      absurd hj (Nat.not_lt_zero j)⟩, fun _ => ⟨{}, rfl⟩⟩, fun c hc => ?_⟩
    cases hc
    exact ⟨fun t ht => Finset.mem_range.mpr ht, fun i hi => absurd hi (Nat.not_lt_zero i),
      fun s => le_refl _, fun s => .inl rfl⟩
  | succ k ih =>
    obtain ⟨hiff, htracks⟩ := ih fun i hi => hids i (by omega)
    simp only [range_succ, foldlM_append, foldlM_cons, foldlM_nil, bind_pure]
    have hk := hids k (Nat.lt_succ_self k)
    refine ⟨⟨fun ⟨c', h⟩ => ?_, fun h => ?_⟩, fun c' h => ?_⟩
    · obtain ⟨c, hc, hc'⟩ := bind_ok h
      have ht := htracks c hc
      have hle := (ht.step hk).1.mp ⟨c', hc'⟩
      obtain ⟨hs, hf⟩ := hiff.mp ⟨c, hc⟩
      refine ⟨fun j hj i hij s hi hsj => ?_, fun i hi hn => ?_⟩
      · rcases Nat.lt_succ_iff_lt_or_eq.mp hj with hj | rfl
        · exact hs j hj i hij s hi hsj
        · exact (ht.ge i hij s hi).trans (hle s hsj)
      · rcases Nat.lt_succ_iff_lt_or_eq.mp hi with hi | rfl
        · exact hf i hi hn
        · obtain ⟨s, hsi⟩ := hn
          exact (ht.low s).trans (hle s hsi)
    · obtain ⟨c, hc⟩ := hiff.mpr ⟨fun j hj => h.1 j (by omega), fun i hi => h.2 i (by omega)⟩
      have ht := htracks c hc
      obtain ⟨c', hc'⟩ := (ht.step hk).1.mpr fun s hs => by
        rcases ht.last s with he | ⟨i, hi, hsi, he⟩
        · exact he ▸ h.2 k (Nat.lt_succ_self k) ⟨s, hs⟩
        · exact he ▸ h.1 k (Nat.lt_succ_self k) i hi s hsi hs
      exact ⟨c', by rw [hc]; exact hc'⟩
    · obtain ⟨c, hc, hc'⟩ := bind_ok h
      exact ((htracks c hc).step hk).2 c' hc'

/-- The last check is about the positions alone. -/
theorem checkSeqs_iff (hids : ∀ i < b.nTokens, ∀ s ∈ b.seqId.getD i [], s.toNat < LLAMA_MAX_SEQ) :
    (∃ c, b.checkSeqs = .ok c) ↔ b.Steady ∧ b.PosFrom :=
  (checkTokens_iff hids).1

end

/-! ## All checks -/

theorem checkAll_iff {α : Type} {l : List α} {f : α → Option InitFail} :
    checkAll l f = .ok () ↔ ∀ x ∈ l, f x = none := by
  refine ⟨checkAll_ok, fun h => ?_⟩
  unfold checkAll
  rw [findSome?_eq_none_iff.mpr h]

/-- What `init` asks of a batch, check by check. -/
structure Batch.Rules {E : Type} (b : Batch E) (nPosPerEmbd nVocab : Nat)
    (memory : Option MemoryPos) (nSeqMax : Nat) (outputAll : Bool) : Prop where
  tokens : 0 < b.nTokens
  seqMax : nSeqMax ≤ LLAMA_MAX_SEQ
  token : ∀ l ∈ b.token, ∀ i < b.nTokens, 0 ≤ l.getD i 0 ∧ l.getD i 0 < nVocab
  seqId : ∀ l ∈ b.seqId, ∀ i < b.nTokens, ∀ s ∈ l.getD i [], 0 ≤ s ∧ s < nSeqMax
  first : ∀ i < b.nTokens, (b.fill memory outputAll).seqId.getD i [] ≠ []
  pos : ∀ s < nSeqMax, (b.fill memory outputAll).checkPos nPosPerEmbd memory s = none
  cpl : ∀ s₀ < nSeqMax, ∀ s₁ < nSeqMax, (b.fill memory outputAll).checkCpl memory s₀ s₁ = none
  steady : (b.fill memory outputAll).Steady
  posFrom : (b.fill memory outputAll).PosFrom

section

variable {E : Type} {b : Batch E} {nPosPerEmbd nVocab nEmbd nSeqMax : Nat}
  {memory : Option MemoryPos} {outputAll : Bool}

theorem validate_iff : b.validate nVocab nSeqMax = .ok () ↔
    (∀ l ∈ b.token, ∀ i < b.nTokens, 0 ≤ l.getD i 0 ∧ l.getD i 0 < nVocab) ∧
    ∀ l ∈ b.seqId, ∀ i < b.nTokens, ∀ s ∈ l.getD i [], 0 ≤ s ∧ s < nSeqMax := by
  have hids : ∀ ids : List Int, ∀ i, ((List.range ids.length).findSome? fun s =>
      if ids.getD s 0 < 0 ∨ ids.getD s 0 ≥ nSeqMax then some (InitFail.seqId i s) else none) =
      none ↔ ∀ s ∈ ids, 0 ≤ s ∧ s < nSeqMax := by
    intro ids i
    rw [findSome?_eq_none_iff]
    constructor
    · intro h s hs
      obtain ⟨k, hk, rfl⟩ := getElem_of_mem hs
      have := h k (mem_range.mpr hk)
      rw [getD_eq_getElem?_getD, getElem?_eq_getElem hk, Option.getD_some] at this
      by_contra hno
      rw [if_pos (by omega)] at this
      cases this
    · intro h k hk
      have := h _ (getElem_mem (mem_range.mp hk))
      rw [getD_eq_getElem?_getD, getElem?_eq_getElem (mem_range.mp hk),
        Option.getD_some, if_neg (by omega)]
  have htoken : ∀ f : Nat → Option InitFail, (∀ i, f i = b.token.elim none fun l =>
      if l.getD i 0 < 0 ∨ l.getD i 0 ≥ nVocab then some (.token i) else none) →
      (checkAll (List.range b.nTokens) f = .ok () ↔
        ∀ l ∈ b.token, ∀ i < b.nTokens, 0 ≤ l.getD i 0 ∧ l.getD i 0 < nVocab) := by
    intro f hf
    rw [checkAll_iff]
    simp only [hf]
    cases b.token with
    | none => simp
    | some l =>
      simp only [Option.elim_some, mem_range, ite_eq_right_iff, reduceCtorEq, imp_false, not_or,
        Int.not_lt, ge_iff_le, Int.not_le, Option.mem_def, Option.some.injEq, forall_eq']
  have hseq : checkAll (List.range b.nTokens) (fun i =>
      let ids := (b.seqId.getD []).getD i []
      (List.range ids.length).findSome? fun s =>
        if ids.getD s 0 < 0 ∨ ids.getD s 0 ≥ nSeqMax then some (.seqId i s) else none) = .ok () ↔
      ∀ l ∈ b.seqId, ∀ i < b.nTokens, ∀ s ∈ l.getD i [], 0 ≤ s ∧ s < nSeqMax := by
    rw [checkAll_iff]
    simp only [hids, mem_range]
    cases b.seqId with
    | none => simp
    | some l => simp
  constructor
  · intro h
    obtain ⟨⟨⟩, ht, hs⟩ := bind_ok h
    exact ⟨(htoken _ fun i => by cases b.token <;> rfl).mp ht, hseq.mp hs⟩
  · rintro ⟨ht, hs⟩
    exact ok_bind ((htoken _ fun i => by cases b.token <;> rfl).mpr ht) (hseq.mpr hs)

theorem checkFirst_iff {b : FullBatch E} :
    b.checkFirst = .ok () ↔ ∀ i < b.nTokens, b.seqId.getD i [] ≠ [] := by
  unfold FullBatch.checkFirst
  rw [checkAll_iff]
  simp only [mem_range, ite_eq_right_iff, reduceCtorEq, imp_false, ne_eq]

/-- `init` accepts a batch exactly if it meets the rules. -/
theorem init_accepts_iff : (∃ a, b.init nPosPerEmbd nVocab memory nEmbd nSeqMax outputAll = .ok a) ↔
      b.Rules nPosPerEmbd nVocab memory nSeqMax outputAll := by
  constructor
  · rintro ⟨a, h⟩
    unfold Batch.init at h
    split at h
    · cases h
    split at h
    · cases h
    rename_i h0 hmax
    obtain ⟨⟨⟩, hv, h⟩ := bind_ok h
    obtain ⟨⟨⟩, hf, h⟩ := bind_ok h
    obtain ⟨⟨⟩, hp, h⟩ := bind_ok h
    obtain ⟨⟨⟩, hc, h⟩ := bind_ok h
    obtain ⟨c, hs, -⟩ := bind_ok h
    obtain ⟨ht, hi⟩ := validate_iff.mp hv
    obtain ⟨hst, hfrom⟩ := (checkSeqs_iff (fill_ids hv (by omega))).mp ⟨c, hs⟩
    refine ⟨by omega, by omega, ht, hi, checkFirst_iff.mp hf, fun s hs =>
      checkAll_iff.mp hp s (mem_range.mpr hs), fun s₀ h₀ s₁ h1 => ?_, hst, hfrom⟩
    exact findSome?_eq_none_iff.mp (checkAll_iff.mp hc s₀ (mem_range.mpr h₀)) s₁ (mem_range.mpr h1)
  · intro h
    have hv := (@validate_iff _ b nVocab nSeqMax).mpr ⟨h.token, h.seqId⟩
    obtain ⟨c, hc⟩ := (checkSeqs_iff (@fill_ids _ b nVocab nSeqMax memory outputAll hv
      h.seqMax)).mpr ⟨h.steady, h.posFrom⟩
    have hp := (@checkAll_iff _ (List.range nSeqMax) _).mpr fun s hs =>
      h.pos s (mem_range.mp hs)
    have hcpl := (@checkAll_iff _ (List.range nSeqMax)
      fun s₀ => (List.range nSeqMax).findSome? fun s₁ =>
        (b.fill memory outputAll).checkCpl memory s₀ s₁).mpr fun s₀ h₀ =>
      findSome?_eq_none_iff.mpr fun s₁ h1 =>
        h.cpl s₀ (mem_range.mp h₀) s₁ (mem_range.mp h1)
    unfold Batch.init
    rw [if_neg (Nat.ne_of_gt h.tokens), if_neg (Nat.not_lt.mpr h.seqMax)]
    exact ⟨_, ok_bind hv (ok_bind (checkFirst_iff.mpr h.first)
      (ok_bind hp (ok_bind hcpl (ok_bind hc rfl))))⟩

/-- `init` keeps batches away whose sequences diverge and join again, or whose positions decrease,
exactly where another rule does so, or the sequence sets are nested anyway. -/
theorem init_law_iff : ((∀ a, b.init nPosPerEmbd nVocab memory nEmbd nSeqMax outputAll = .ok a →
        a.batch.Nested ∧ a.batch.Steady) ∧
      (¬ ((b.fill memory outputAll).Nested ∧ (b.fill memory outputAll).Steady) →
        ∃ e, b.init nPosPerEmbd nVocab memory nEmbd nSeqMax outputAll = .error e)) ↔
    (b.Rules nPosPerEmbd nVocab memory nSeqMax outputAll → (b.fill memory outputAll).Nested) := by
  constructor
  · rintro ⟨hlaw, -⟩ hr
    obtain ⟨a, ha⟩ := (@init_accepts_iff _ b nPosPerEmbd nVocab nEmbd nSeqMax memory
      outputAll).mpr hr
    obtain ⟨-, -, -, rfl⟩ := init_ok ha
    exact (hlaw _ ha).1
  · intro h
    have hboth : ∀ a, b.init nPosPerEmbd nVocab memory nEmbd nSeqMax outputAll = .ok a →
        (b.fill memory outputAll).Nested ∧ (b.fill memory outputAll).Steady := fun a ha =>
      have hr := init_accepts_iff.mp ⟨a, ha⟩
      ⟨h hr, hr.steady⟩
    refine ⟨fun a ha => ?_, fun hno => ?_⟩
    · have := hboth a ha
      obtain ⟨-, -, -, rfl⟩ := init_ok ha
      exact this
    · cases e : b.init nPosPerEmbd nVocab memory nEmbd nSeqMax outputAll with
      | error x => exact ⟨x, rfl⟩
      | ok a => exact absurd (hboth a e) hno

/-- The sequence sets that the comment calls invalid, at the positions 0, 1 and 1. -/
def rejoined : Batch Nat :=
  { nTokens := 3, token := some [1, 2, 3], pos := some [0, 1, 1],
    seqId := some [[0, 1, 2], [0, 1], [1, 2]], logits := some [0, 0, 1] }

theorem not_init_law :
    ¬ ∀ (b : Batch Nat) (nPosPerEmbd nVocab nEmbd nSeqMax : Nat) (memory : Option MemoryPos)
      (outputAll : Bool) (a : BatchAllocr Nat),
      b.init nPosPerEmbd nVocab memory nEmbd nSeqMax outputAll = .ok a → a.batch.Nested := by
  intro h
  have hok : (rejoined.init 1 4 none 1 3 false).toOption.isSome = true := by decide +kernel
  cases e : rejoined.init 1 4 none 1 3 false with
  | error x =>
    rw [e] at hok
    cases hok
  | ok a =>
    have hn := h rejoined 1 4 1 3 none false a e
    obtain ⟨-, -, -, rfl⟩ := init_ok e
    -- the last token has a sequence that the one before it has not
    have := hn 2 (by decide) 1 (by decide) (by decide)
    exact absurd this (by decide)

end

end BeeLlama
