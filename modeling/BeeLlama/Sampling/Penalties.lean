import BeeLlama.Lib.CountMap
import BeeLlama.Lib.RingBuffer
import BeeLlama.Lib.Run
import Mathlib.Data.Int.Interval

/-!
# The repetition penalties (`llama_sampler_penalties`)

The sampler counts the last `penalty_last_n` tokens in a map, which `backend_set_input` writes into
two arrays of fixed size for the device.

* `Penalties.Counted`: the ring buffer has the last tokens, and the map counts them.
* `setInput_spec`: the counted tokens in increasing order, and one token that is not counted in the
  rows behind them; no assert fails.
* `penalties_counted`: both in every state that calls reach.

What the penalties do to the logits is left out: of the factors only counts whether they are
neutral. The order in which the loop goes over the map is a parameter.
-/

namespace BeeLlama.Sampling

open List

/-- The constant fields of `llama_sampler_penalties`; `neutral` if no penalty changes a logit. -/
structure PenaltiesParams where
  nVocab : Int
  penaltyLastN : Nat
  neutral : Bool
  deriving DecidableEq

/-- `is_disabled`. -/
def PenaltiesParams.isDisabled (p : PenaltiesParams) : Bool := p.penaltyLastN = 0 || p.neutral

/-- `llama_sampler_penalties`. -/
structure Penalties (p : PenaltiesParams) where
  prev : RingBuffer Int p.penaltyLastN := .new _ 0
  tokenCount : CountMap Int := ∅
  /-- `inp_token_ids` and `inp_counts` are there. -/
  hasInput : Bool := false
  nMax : Int := 0
  hostTokenIds : List Int := []
  hostCounts : List Int := []

/-- The asserts and the errors of the sampler. -/
inductive PenaltiesError where
  | ring (what : String)
  | emptyVocab
  | tooManyActive
  | noFiller
  deriving DecidableEq

namespace Penalties

variable {p : PenaltiesParams}

/-- `llama_sampler_penalties_accept`. The oldest token is in the map, as long as it is the one that
the buffer counts. -/
def accept (s : Penalties p) (token : Int) : Except PenaltiesError (Penalties p) := do
  if p.penaltyLastN = 0 then return s
  let tokenCount := s.tokenCount.inc token
  let tokenCount ←
    if s.prev.sz ≥ p.penaltyLastN then do
      let old ← s.prev.front.mapError .ring
      pure (tokenCount.dec old)
    else pure tokenCount
  let prev ← (s.prev.pushBack token).mapError .ring
  return { s with prev, tokenCount }

/-- `llama_sampler_penalties_reset`. -/
def reset (s : Penalties p) : Penalties p := { s with prev := s.prev.clear, tokenCount := ∅ }

/-- What `llama_sampler_penalties_backend_apply` does to the sampler. -/
def backendApply (s : Penalties p) : Except PenaltiesError (Penalties p) :=
  if p.isDisabled then .ok s
  else if p.nVocab ≤ 0 then .error .emptyVocab
  else
    let nMax := min (p.penaltyLastN : Int) p.nVocab
    let s := { s with hasInput := true, nMax }
    if (s.hostTokenIds.length : Int) ≠ nMax then
      .ok { s with hostTokenIds := .replicate nMax.toNat 0, hostCounts := .replicate nMax.toNat 0 }
    else .ok s

/-- `llama_sampler_penalties_backend_reset`. -/
def backendReset (s : Penalties p) : Penalties p := { s with hasInput := false }

/-- The entries go to the rows from `n` on, each of which is below `n_max`. -/
def fill (nMax : Int) : List (Int × Nat) → Nat → List Int × List Int →
    Except PenaltiesError (Nat × List Int × List Int)
  | [], n, host => .ok (n, host)
  | it :: its, n, (ids, counts) =>
    if (n : Int) < nMax then fill nMax its (n + 1) (ids.set n it.1, counts.set n it.2)
    else .error .tooManyActive

/-- `while (token_count.find(filler) != token_count.end()) ++filler`; no more rounds than entries
go on. -/
def findFiller (tokenCount : CountMap Int) : Nat → Int → Int
  | 0, filler => filler
  | fuel + 1, filler =>
    if filler ∈ tokenCount then findFiller tokenCount fuel (filler + 1) else filler

/-- `std::sort` of the entries by their tokens. -/
def sortEntries (entries : List (Int × Int)) : List (Int × Int) :=
  entries.mergeSort fun a b => decide (a.1 ≤ b.1)

/-- `llama_sampler_penalties_backend_set_input`; `order` is the order of the loop over the map. -/
def setInput (s : Penalties p) (order : List (Int × Nat)) :
    Except PenaltiesError (Penalties p) := do
  if s.hasInput = false ∨ s.nMax ≤ 0 ∨ p.nVocab ≤ 0 then return s
  if p.isDisabled then return s
  let (nActive, ids, counts) ← fill s.nMax order 0 (s.hostTokenIds, s.hostCounts)
  let entries := sortEntries ((ids.take nActive).zip (counts.take nActive))
  let ids := entries.map Prod.fst ++ ids.drop nActive
  let counts := entries.map Prod.snd ++ counts.drop nActive
  let filler := if nActive < s.nMax then
    findFiller s.tokenCount s.tokenCount.keys.card 0 else 0
  if nActive < s.nMax ∧ ¬ filler < p.nVocab then throw .noFiller
  let rest := s.nMax.toNat - nActive
  return { s with
    hostTokenIds := ids.take nActive ++ .replicate rest filler ++ ids.drop s.nMax.toNat
    hostCounts := counts.take nActive ++ .replicate rest 0 ++ counts.drop s.nMax.toNat }

/-! ## The counts -/

/-- The buffer has the tokens of the window, and the map counts them. -/
structure Counted (s : Penalties p) (window : List Int) : Prop where
  items : s.prev.toList = window
  counts : s.tokenCount.Counts fun t => window.count t

/-- The fields for the device are those of before. -/
structure SameInput (s s' : Penalties p) : Prop where
  hasInput : s'.hasInput = s.hasInput
  nMax : s'.nMax = s.nMax
  ids : s'.hostTokenIds = s.hostTokenIds
  counts : s'.hostCounts = s.hostCounts

variable {s : Penalties p} {n : Nat} {m : CountMap Int} {order : List (Int × Nat)}
  {window : List Int}

/-- A token goes to the window, and the oldest one leaves a full window. -/
theorem Counted.accept (h : s.Counted window) (hn : 0 < p.penaltyLastN) (token : Int) :
    ∃ s', s.accept token = .ok s' ∧ s'.Counted ((window ++ [token]).rtake p.penaltyLastN) ∧
      SameInput s s' := by
  obtain ⟨prev, hprev, hitems⟩ := RingBuffer.toList_pushBack (b := s.prev) (by omega) token
  rw [h.items] at hitems
  have hlen : window.length = s.prev.sz := by rw [← h.items, RingBuffer.length_toList]
  have hinc : (s.tokenCount.inc token).Counts fun t => (window ++ [token]).count t :=
    h.counts.inc (by simp) fun t hne => by simp [Ne.symm hne]
  unfold Penalties.accept
  rw [if_neg (by omega)]
  by_cases hfull : s.prev.sz ≥ p.penaltyLastN
  · obtain ⟨old, hold, hhead⟩ := RingBuffer.front_eq (b := s.prev) (by omega)
    rw [h.items] at hhead
    obtain ⟨rest, hwindow⟩ := head?_eq_some_iff.mp hhead
    have hle := s.prev.sz_le
    have hdrop : (window ++ [token]).rtake p.penaltyLastN = rest ++ [token] := by
      rw [List.rtake, length_append, hlen, length_singleton, hwindow,
        show s.prev.sz + 1 - p.penaltyLastN = 1 by omega]
      rfl
    have hdec : ((s.tokenCount.inc token).dec old).Counts fun t => (rest ++ [token]).count t := by
      refine hinc.dec ?_ fun t hne => ?_
      · simp [hwindow]
      · simp [hwindow, count_cons, Ne.symm hne]
    refine ⟨{ s with prev, tokenCount := (s.tokenCount.inc token).dec old }, ?_, ⟨hitems, ?_⟩,
      ⟨rfl, rfl, rfl, rfl⟩⟩
    · simp only [if_pos hfull, hold, hprev]
      rfl
    · rw [hdrop]
      exact hdec
  · have hkeep : (window ++ [token]).rtake p.penaltyLastN = window ++ [token] := by
      rw [List.rtake, length_append, hlen, length_singleton,
        Nat.sub_eq_zero_of_le (by omega), drop_zero]
    refine ⟨{ s with prev, tokenCount := s.tokenCount.inc token }, ?_, ⟨hitems, ?_⟩,
      ⟨rfl, rfl, rfl, rfl⟩⟩
    · simp only [if_neg hfull, hprev]
      rfl
    · rw [hkeep]
      exact hinc

theorem Counted.reset (s : Penalties p) : s.reset.Counted [] where
  items := rfl
  counts := .empty fun _ => rfl

/-! ## The arrays for the device -/

/-- The loop over the map meets each entry once, in this order. -/
structure Enumerates (tokenCount : CountMap Int) (order : List (Int × Nat)) : Prop where
  nodup : (order.map Prod.fst).Nodup
  mem : ∀ t n, (t, n) ∈ order ↔ tokenCount.lookup t = some n

/-- Writes to a row of an array. -/
theorem take_set_concat {α : Type} {l : List α} (h : n < l.length) (a : α) :
    (l.set n a).take (n + 1) = l.take n ++ [a] := by
  rw [take_add_one, take_set_of_le (le_refl n)]
  simp [h]

/-- The entries fill the rows from `n` on. -/
theorem fill_ok {nMax : Int} (order : List (Int × Nat)) : ∀ {n : Nat} {ids counts : List Int},
    (n + order.length : Int) ≤ nMax → (ids.length : Int) = nMax → (counts.length : Int) = nMax →
    fill nMax order n (ids, counts) = .ok (n + order.length,
      ids.take n ++ order.map Prod.fst ++ ids.drop (n + order.length),
      counts.take n ++ (order.map fun it => (it.2 : Int)) ++ counts.drop (n + order.length)) := by
  induction order with
  | nil => simp [fill]
  | cons it order ih =>
    intro n ids counts hle hids hcounts
    rw [length_cons] at hle
    unfold fill
    rw [if_pos (by omega), ih (by push_cast at hle ⊢; omega) (by simpa using hids)
      (by simpa using hcounts), take_set_concat (by omega), take_set_concat (by omega)]
    have hdrop : ∀ (l : List Int) (a : Int), (l.set n a).drop (n + 1 + order.length) =
        l.drop (n + 1 + order.length) := fun l a => drop_set_of_lt (by omega)
    rw [hdrop, hdrop, length_cons, show n + 1 + order.length = n + (order.length + 1) by omega]
    simp

/-- The filler is not in the map, and every token below it is. -/
theorem findFiller_spec (m : CountMap Int) (fuel : Nat) (filler : Int) :
    filler ≤ findFiller m fuel filler ∧
      (∀ t, filler ≤ t → t < findFiller m fuel filler → t ∈ m) ∧
      (findFiller m fuel filler ∉ m ∨ findFiller m fuel filler = filler + fuel) := by
  induction fuel generalizing filler with
  | zero =>
    exact ⟨le_rfl, fun t h h' => absurd (h.trans_lt h') (lt_irrefl _), .inr (by simp [findFiller])⟩
  | succ fuel ih =>
    unfold findFiller
    split
    · next hm =>
      obtain ⟨hle, hall, hend⟩ := ih (filler + 1)
      refine ⟨by omega, fun t ht hlt => ?_, hend.imp_right fun e => by omega⟩
      rcases eq_or_lt_of_le ht with rfl | ht
      · exact hm
      · exact hall t (by omega) hlt
    · next hm => exact ⟨le_rfl, fun t h h' => absurd (h.trans_lt h') (lt_irrefl _), .inl hm⟩

/-- As many tokens as lie below `t` are in the map if all of them are. -/
theorem card_of_forall_mem {t : Int} (h : ∀ k, 0 ≤ k → k < t → k ∈ m) : t ≤ m.keys.card := by
  have hsub : Finset.Ico 0 t ⊆ m.keys := fun k hk => by
    obtain ⟨h0, hlt⟩ := Finset.mem_Ico.mp hk
    exact Finmap.mem_keys.mpr (h k h0 hlt)
  have := Finset.card_le_card hsub
  rw [Int.card_Ico] at this
  omega

/-- There is a filler below the size of the vocabulary if not all tokens are in the map. -/
theorem findFiller_lt {m : CountMap Int} {nVocab : Int} (h : (m.keys.card : Int) < nVocab) :
    findFiller m m.keys.card 0 ∉ m ∧ 0 ≤ findFiller m m.keys.card 0 ∧
      findFiller m m.keys.card 0 < nVocab := by
  obtain ⟨hle, hall, hend⟩ := findFiller_spec m m.keys.card 0
  have hcard := card_of_forall_mem hall
  refine ⟨hend.elim id fun e hm => ?_, hle, by omega⟩
  have := card_of_forall_mem (m := m) (t := findFiller m m.keys.card 0 + 1) fun k h0 hlt => by
    rcases eq_or_lt_of_le (Int.lt_add_one_iff.mp hlt) with rfl | hlt
    · exact hm
    · exact hall k h0 hlt
  omega

/-- The rows for the device: the tokens of the window in increasing order with their counts, and
behind them one token that is not in the window, with the count `0`. -/
def Rows (window : List Int) (nVocab nMax : Int) (ids counts : List Int) : Prop :=
  ∃ (keys : List Int) (filler : Int), keys.Pairwise (· < ·) ∧ (∀ t, t ∈ keys ↔ t ∈ window) ∧
    (keys.length : Int) ≤ nMax ∧
    ((keys.length : Int) < nMax → filler ∉ window ∧ 0 ≤ filler ∧ filler < nVocab) ∧
    ids = keys ++ .replicate (nMax.toNat - keys.length) filler ∧
    counts = (keys.map fun t => (window.count t : Int)) ++
      .replicate (nMax.toNat - keys.length) 0

theorem Enumerates.length (h : Enumerates m order) : order.length = m.keys.card := by
  have hkeys : m.keys = (order.map Prod.fst).toFinset := by
    ext t
    rw [Finmap.mem_keys, ← Finmap.lookup_isSome, Option.isSome_iff_exists, mem_toFinset]
    simp [h.mem]
  rw [hkeys, toFinset_card_of_nodup h.nodup, length_map]

/-- The map has as many tokens at most as the window, and as the vocabulary. -/
theorem Counted.card_le (h : s.Counted window) (hv : ∀ t ∈ window, 0 ≤ t ∧ t < p.nVocab) :
    s.tokenCount.keys.card ≤ p.penaltyLastN ∧ (s.tokenCount.keys.card : Int) ≤ p.nVocab ⊔ 0 := by
  have hmem : ∀ t, t ∈ s.tokenCount.keys → t ∈ window := fun t ht =>
    count_pos_iff.mp ((h.counts.mem_iff t).mp (Finmap.mem_keys.mp ht))
  constructor
  · have hsub : s.tokenCount.keys ⊆ window.toFinset := fun t ht => mem_toFinset.mpr (hmem t ht)
    calc s.tokenCount.keys.card ≤ window.toFinset.card := Finset.card_le_card hsub
      _ ≤ window.length := toFinset_card_le window
      _ = s.prev.sz := by rw [← h.items, RingBuffer.length_toList]
      _ ≤ p.penaltyLastN := s.prev.sz_le
  · have hsub : s.tokenCount.keys ⊆ Finset.Ico 0 p.nVocab := fun t ht =>
      Finset.mem_Ico.mpr (hv t (hmem t ht))
    have := Finset.card_le_card hsub
    rw [Int.card_Ico] at this
    omega

/-- The entries of the map, sorted. -/
theorem sortEntries_spec (h : s.Counted window) (ho : Enumerates s.tokenCount order) :
    let entries := sortEntries (order.map fun it => (it.1, (it.2 : Int)))
    (entries.map Prod.fst).Pairwise (· < ·) ∧ (∀ t, t ∈ entries.map Prod.fst ↔ t ∈ window) ∧
      entries.map Prod.snd = (entries.map Prod.fst).map fun t => (window.count t : Int) := by
  intro entries
  have hperm : entries.Perm (order.map fun it => (it.1, (it.2 : Int))) := mergeSort_perm _ _
  have hfst : (entries.map Prod.fst).Perm (order.map Prod.fst) := by
    simpa [map_map, Function.comp_def] using hperm.map Prod.fst
  have hsorted : entries.Pairwise fun a b => a.1 ≤ b.1 := by
    refine (pairwise_mergeSort (fun a b c => ?_) (fun a b => ?_) _).imp fun hle =>
      of_decide_eq_true hle
    · simp only [decide_eq_true_eq]
      exact le_trans
    · simpa using le_total a.1 b.1
  refine ⟨?_, fun t => ?_, ?_⟩
  · have hle : (entries.map Prod.fst).Pairwise (· ≤ ·) := pairwise_map.mpr hsorted
    exact (hle.and (hfst.nodup_iff.mpr ho.nodup)).imp fun hab => lt_of_le_of_ne hab.1 hab.2
  · rw [hfst.mem_iff, mem_map]
    constructor
    · rintro ⟨it, hit, rfl⟩
      refine count_pos_iff.mp ((h.counts.mem_iff it.1).mp (Finmap.lookup_isSome.mp ?_))
      rw [(ho.mem it.1 it.2).mp hit]
      rfl
    · intro ht
      have hpos : 0 < window.count t := count_pos_iff.mpr ht
      refine ⟨(t, window.count t), (ho.mem t _).mpr ?_, rfl⟩
      rw [h.counts t, if_neg hpos.ne']
  · rw [map_map]
    refine map_congr_left fun e he => ?_
    obtain ⟨it, hit, rfl⟩ := mem_map.mp (hperm.mem_iff.mp he)
    have hl := (ho.mem it.1 it.2).mp hit
    rw [h.counts] at hl
    split at hl
    · cases hl
    · rw [← Option.some.inj hl]
      rfl

/-- The arrays have the size of the tensors. -/
structure Sized (s : Penalties p) : Prop where
  nMax : s.hasInput = true → s.nMax = min (p.penaltyLastN : Int) p.nVocab ∧ 0 < s.nMax ∧
    p.isDisabled = false
  ids : s.hasInput = true → (s.hostTokenIds.length : Int) = s.nMax
  same : s.hostCounts.length = s.hostTokenIds.length

/-- Rows that are written in front of the others, and the rest is filled. -/
theorem padded {keys l : List Int} {nMax x : Int} (hk : keys.length = n)
    (hl : (l.length : Int) = nMax) (hn : (n : Int) ≤ nMax) :
    (keys ++ l.drop n).take n ++ List.replicate (nMax.toNat - n) x ++
      (keys ++ l.drop n).drop nMax.toNat = keys ++ List.replicate (nMax.toNat - n) x := by
  have hend : (keys ++ l.drop n).drop nMax.toNat = [] :=
    drop_eq_nil_of_le (by rw [length_append, length_drop, hk]; omega)
  rw [hend, append_nil, take_left' hk]

/-- No assert of `backend_set_input` fails, and the rows are those of the window. -/
theorem setInput_spec (h : s.Counted window) (hz : s.Sized)
    (hv : ∀ t ∈ window, 0 ≤ t ∧ t < p.nVocab)
    (ho : Enumerates s.tokenCount order) : ∃ s', s.setInput order = .ok s' ∧
      s'.prev = s.prev ∧ s'.tokenCount = s.tokenCount ∧ s'.hasInput = s.hasInput ∧
      s'.nMax = s.nMax ∧
      (s.hasInput = false → s' = s) ∧
      (s.hasInput = true → Rows window p.nVocab s.nMax s'.hostTokenIds s'.hostCounts) := by
  unfold Penalties.setInput
  cases hin : s.hasInput with
  | false => exact ⟨s, by rw [if_pos (.inl rfl)]; rfl, rfl, rfl, hin, rfl, fun _ => rfl, by simp⟩
  | true =>
    obtain ⟨hmax, hpos, hdis⟩ := hz.nMax hin
    have hids := hz.ids hin
    have hcounts := hz.same
    obtain ⟨hcard1, hcard2⟩ := h.card_le hv
    have hlen := ho.length
    rw [if_neg (by rintro (e | e | e) <;> first | cases e | omega), hdis, if_neg (by simp)]
    have hfill := @fill_ok s.nMax order 0 s.hostTokenIds s.hostCounts (by omega) hids (by omega)
    simp only [take_zero, nil_append, Nat.zero_add] at hfill
    rw [hfill]
    obtain ⟨hpair, hmem, hsnd⟩ := sortEntries_spec h ho
    dsimp only [bind, Except.bind, pure, Except.pure, throw, throwThe, MonadExceptOf.throw]
    have hzip : ((order.map Prod.fst ++ s.hostTokenIds.drop order.length).take order.length).zip
        (((order.map fun it => (it.2 : Int)) ++ s.hostCounts.drop order.length).take
          order.length) = order.map fun it => (it.1, (it.2 : Int)) := by
      rw [take_left' (length_map _), take_left' (length_map _), zip_map']
    have hlength : (sortEntries (order.map fun it => (it.1, (it.2 : Int)))).length =
        order.length := by simp [sortEntries]
    rw [hzip, drop_left' (length_map _), drop_left' (length_map _)]
    generalize he : sortEntries (order.map fun it => (it.1, (it.2 : Int))) = entries
    rw [he] at hlength hpair hmem hsnd
    rw [padded (by simpa using hlength) hids (by omega),
      padded (by simpa using hlength) (by omega) (by omega)]
    have hkeys : (entries.map Prod.fst).length = order.length := by simpa using hlength
    by_cases hroom : (order.length : Int) < s.nMax
    · obtain ⟨hnot, h0, hlt⟩ := @findFiller_lt s.tokenCount p.nVocab (by omega)
      rw [if_pos hroom, if_neg (fun hn => hn.2 hlt)]
      refine ⟨_, rfl, rfl, rfl, rfl, rfl, by simp, fun _ => ⟨entries.map Prod.fst, _, hpair, hmem,
        by omega, fun _ => ⟨fun hw => hnot ?_, h0, hlt⟩, by rw [hkeys], by rw [hkeys, hsnd]⟩⟩
      exact (h.counts.mem_iff _).mpr (count_pos_iff.mpr hw)
    · rw [if_neg hroom, if_neg (fun hn => hroom hn.1)]
      exact ⟨_, rfl, rfl, rfl, rfl, rfl, by simp, fun _ => ⟨entries.map Prod.fst, 0, hpair, hmem,
        by omega, fun hlt => absurd hlt (by omega), by rw [hkeys], by rw [hkeys, hsnd]⟩⟩

/-! ## Runs -/

/-- A call of the sampler; `setInput` comes with the order of the loop over the map. -/
inductive Call where
  | accept (token : Int)
  | reset
  | backendApply
  | backendReset
  | setInput (order : List (Int × Nat))

/-- The result of a call. -/
def call (s : Penalties p) : Call → Except PenaltiesError (Penalties p)
  | .accept token => s.accept token
  | .reset => .ok s.reset
  | .backendApply => s.backendApply
  | .backendReset => .ok s.backendReset
  | .setInput order => s.setInput order

/-- The tokens that were accepted since the last reset. -/
def since (accepted : List Int) : Call → List Int
  | .accept token => accepted ++ [token]
  | .reset => []
  | _ => accepted

/-- The sampler beside the tokens since the last reset. -/
def sys (p : PenaltiesParams) : Sys (Penalties p × List Int) Call where
  init := fun s => s = ({}, [])
  step := fun s c s' => s.1.call c = .ok s'.1 ∧ s'.2 = since s.2 c

/-- Tokens of the vocabulary are accepted, and the loop over the map goes over its entries. -/
def Valid (s : Penalties p × List Int) : Call → Prop
  | .accept token => 0 ≤ token ∧ token < p.nVocab
  | .setInput order => Enumerates s.1.tokenCount order
  | _ => True

/-- What calls keep. -/
structure Inv (s : Penalties p × List Int) : Prop where
  counted : s.1.Counted (s.2.rtake p.penaltyLastN)
  sized : s.1.Sized
  range : ∀ t ∈ s.2, 0 ≤ t ∧ t < p.nVocab

theorem mem_rtake {t : Int} {l : List Int} (h : t ∈ l.rtake n) : t ∈ l :=
  mem_of_mem_drop h

theorem Sized.of_same {s s' : Penalties p} (h : s.Sized) (e : SameInput s s') : s'.Sized where
  nMax := by rw [e.hasInput, e.nMax]; exact h.nMax
  ids := by rw [e.hasInput, e.nMax, e.ids]; exact h.ids
  same := by rw [e.counts, e.ids]; exact h.same

theorem Sized.backendApply {s s' : Penalties p} (hn : 0 < p.penaltyLastN) (h : s.Sized)
    (e : s.backendApply = .ok s') :
    s'.Sized ∧ s'.prev = s.prev ∧ s'.tokenCount = s.tokenCount := by
  unfold Penalties.backendApply at e
  split at e
  · cases e
    exact ⟨h, rfl, rfl⟩
  · next hdis =>
    split at e
    · cases e
    · next hv =>
      dsimp only at e
      have hpos : 0 < min (p.penaltyLastN : Int) p.nVocab := by omega
      have hdis' : p.isDisabled = false := Bool.eq_false_iff.mpr hdis
      split at e
      · cases e
        refine ⟨⟨fun _ => ⟨rfl, hpos, hdis'⟩, fun _ => ?_, ?_⟩, rfl, rfl⟩
        · show ((List.replicate _ (0 : Int)).length : Int) = _
          rw [length_replicate]
          exact Int.toNat_of_nonneg hpos.le
        · simp
      · next hlen =>
        cases e
        exact ⟨⟨fun _ => ⟨rfl, hpos, hdis'⟩, fun _ => not_not.mp hlen, h.same⟩, rfl, rfl⟩

theorem Sized.setInput {s s' : Penalties p} (hc : s.Counted window)
    (h : s.Sized) (hv : ∀ t ∈ window, 0 ≤ t ∧ t < p.nVocab)
    (ho : Enumerates s.tokenCount order) (e : s.setInput order = .ok s') :
    s'.Sized ∧ s'.prev = s.prev ∧ s'.tokenCount = s.tokenCount := by
  obtain ⟨s₁, e1, hprev, hcount, hin, hmax, hsame, hrows⟩ := setInput_spec hc h hv ho
  obtain rfl : s₁ = s' := Except.ok.inj (e1.symm.trans e)
  refine ⟨?_, hprev, hcount⟩
  cases hi : s.hasInput with
  | false => exact hsame hi ▸ h
  | true =>
    obtain ⟨keys, filler, -, -, hle, -, hids, hcounts⟩ := hrows hi
    refine ⟨fun _ => by rw [hmax]; exact h.nMax hi, fun _ => ?_, ?_⟩
    · rw [hids, hmax, length_append, length_replicate]
      omega
    · rw [hids, hcounts]
      simp

/-- Every call keeps the counts and the sizes. -/
theorem inv_inductive (hn : 0 < p.penaltyLastN) : (sys p).Inductive Valid Inv where
  init s hs := by
    obtain rfl := hs
    refine ⟨⟨by simp, .empty fun _ => by simp⟩, ⟨fun h => ?_, fun h => ?_, rfl⟩, by simp⟩ <;>
      cases h
  step s c s' h _ e hok := by
    obtain ⟨s₁, accepted⟩ := s
    obtain ⟨s2, accepted'⟩ := s'
    obtain ⟨e, rfl⟩ := e
    cases c with
    | accept token =>
      obtain ⟨s3, e3, hc, hsame⟩ := h.counted.accept hn token
      obtain rfl : s3 = s2 := Except.ok.inj (e3.symm.trans e)
      refine ⟨?_, h.sized.of_same hsame, fun t ht => ?_⟩
      · rw [RingBuffer.rtake_concat] at hc
        exact hc
      · rcases mem_append.mp ht with ht | ht
        · exact h.range t ht
        · exact mem_singleton.mp ht ▸ hok
    | reset =>
      obtain rfl := Except.ok.inj e
      exact ⟨by simpa [since] using Counted.reset s₁, h.sized.of_same ⟨rfl, rfl, rfl, rfl⟩,
        by simp [since]⟩
    | backendApply =>
      obtain ⟨hsized, hprev, hcount⟩ := h.sized.backendApply hn e
      exact ⟨⟨by rw [hprev]; exact h.counted.items, by rw [hcount]; exact h.counted.counts⟩, hsized,
        h.range⟩
    | backendReset =>
      cases e
      refine ⟨⟨h.counted.items, h.counted.counts⟩, ?_, h.range⟩
      exact ⟨fun hi => absurd hi Bool.false_ne_true, fun hi => absurd hi Bool.false_ne_true,
        h.sized.same⟩
    | setInput order =>
      obtain ⟨hsized, hprev, hcount⟩ := h.sized.setInput h.counted
        (fun t ht => h.range t (mem_rtake ht)) hok e
      exact ⟨⟨by rw [hprev]; exact h.counted.items, by rw [hcount]; exact h.counted.counts⟩, hsized,
        h.range⟩

/-- After any calls the map counts the last tokens since the reset and has no other keys, a token of
the vocabulary is accepted, and `backend_set_input` meets its asserts and writes the rows. -/
theorem penalties_counted (hn : 0 < p.penaltyLastN) (s : Penalties p) (accepted : List Int)
    (h : (sys p).Reach Valid (s, accepted)) :
    (∀ t, s.tokenCount.lookup t = if (accepted.rtake p.penaltyLastN).count t = 0 then none
      else some ((accepted.rtake p.penaltyLastN).count t)) ∧
    (∀ t, ∃ s', s.accept t = .ok s') ∧
    ∀ order, Enumerates s.tokenCount order → ∃ s', s.setInput order = .ok s' ∧
      (s.hasInput = true → s.nMax = min (p.penaltyLastN : Int) p.nVocab ∧
        Rows (accepted.rtake p.penaltyLastN) p.nVocab s.nMax s'.hostTokenIds s'.hostCounts) := by
  have hi := h.inv (inv_inductive hn)
  refine ⟨hi.counted.counts, fun t => ?_, fun order ho => ?_⟩
  · obtain ⟨s', e, -⟩ := hi.counted.accept hn t
    exact ⟨s', e⟩
  · obtain ⟨s', e, -, -, -, -, -, hrows⟩ := setInput_spec hi.counted hi.sized
      (fun t ht => hi.range t (mem_rtake ht)) ho
    exact ⟨s', e, fun hin => ⟨(hi.sized.nMax hin).1, hrows hin⟩⟩

/-- A window of two tokens, out of three. -/
def twoOfThree : PenaltiesParams := ⟨3, 2, false⟩

/-- The tokens `1`, `1` and `2` are accepted; the first `1` is not in the window. -/
theorem penalties_counted_three : ∃ s : Penalties twoOfThree, s.hasInput = true ∧
    s.tokenCount.lookup 1 = some 1 ∧ s.tokenCount.lookup 2 = some 1 ∧
    ∀ order, Enumerates s.tokenCount order → ∃ s', s.setInput order = .ok s' ∧
      Rows [1, 2] 3 2 s'.hostTokenIds s'.hostCounts := by
  have h0 : ({} : Penalties twoOfThree).Counted [] := ⟨rfl, .empty fun _ => rfl⟩
  obtain ⟨s₁, e1, h1, -⟩ := h0.accept (by decide) 1
  obtain ⟨s2, e2, h2, -⟩ := h1.accept (by decide) 1
  obtain ⟨s3, e3, -⟩ := h2.accept (by decide) 2
  obtain ⟨s4, e4, hin⟩ : ∃ s4, s3.backendApply = .ok s4 ∧ s4.hasInput = true := by
    unfold Penalties.backendApply
    rw [if_neg (by decide), if_neg (by decide)]
    dsimp only
    split <;> exact ⟨_, rfl, rfl⟩
  have hstep : ∀ {s s' : Penalties twoOfThree} {l : List Int} {c : Call},
      (sys twoOfThree).Reach Valid (s, l) → s.call c = .ok s' → Valid (s, l) c →
      (sys twoOfThree).Reach Valid (s', since l c) := fun h e hv =>
    .step h (fun _ ho => ho.elim) ⟨e, rfl⟩ hv
  have r1 := @hstep _ _ [] (.accept 1) (.init rfl) e1 ⟨by decide, by decide⟩
  have r2 := @hstep _ _ [1] (.accept 1) r1 e2 ⟨by decide, by decide⟩
  have r3 := @hstep _ _ [1, 1] (.accept 2) r2 e3 ⟨by decide, by decide⟩
  have hreach := @hstep _ _ [1, 1, 2] .backendApply r3 e4 trivial
  obtain ⟨hcount, -, hset⟩ := penalties_counted (by decide) s4 [1, 1, 2] hreach
  refine ⟨s4, hin, hcount 1, hcount 2, fun order ho => ?_⟩
  obtain ⟨s', e, hrows⟩ := hset order ho
  obtain ⟨hmax, hrows⟩ := hrows hin
  rw [hmax] at hrows
  exact ⟨s', e, hrows⟩

end Penalties
end BeeLlama.Sampling
