import BeeLlama.Server.TokenEdits
import Mathlib.Algebra.BigOperators.Group.List.Basic
import Mathlib.Algebra.Ring.Int.Defs
import Mathlib.Order.Bounds.Basic

/-!
# Positions of tokens (`server_tokens::pos_next`, `size_up_to_pos`)

* `walk`: the places and the positions where the two loops stand, which both grow with every step.
* `idx_boundary`, `boundary_idx`: the places are the borders of the chunks and of the other tokens.
* `positions_exact`: the two conversions are inverse, but for the start of a list with media.
-/

namespace BeeLlama.Server.ServerTokens

open List Nat

section Defs

variable (nPos : MediaChunk → Nat) {hasMtmd : Bool} (a : ServerTokens hasMtmd)

/-- What a round of both loops adds to `idx` and to `pos`. -/
def advance (idx : Nat) : Nat × Nat :=
  match a.findChunk idx with
  | some chunk => (chunk.nTokens, nPos chunk)
  | none => (1, 1)

/-- The loop of `pos_next`. -/
def posNextLoop (nTokens : Nat) : Nat → Nat → Nat → Option Nat
  | 0, _, _ => none
  | fuel + 1, idx, pos =>
    if idx < nTokens then
      posNextLoop nTokens fuel (idx + (a.advance nPos idx).1) (pos + (a.advance nPos idx).2)
    else some pos

/-- `pos_next`, for `n_tokens` up to the size. -/
def posNext (nTokens : Int) : Option Int :=
  if hasMtmd = false then some (if nTokens < 0 then a.size else nTokens)
  else if nTokens < 0 then
    some (a.size + (a.media.map fun m => (nPos m.2 - m.2.nTokens : Int)).sum)
  else (posNextLoop nPos a nTokens.toNat (nTokens.toNat + 1) 0 0).map (↑)

/-- The loop of `size_up_to_pos`. -/
def sizeUpToPosLoop (maxPos : Nat) : Nat → Nat → Nat → Option Nat
  | 0, _, _ => none
  | fuel + 1, idx, pos =>
    if idx < a.size then
      if maxPos ≤ pos + (a.advance nPos idx).2 then some (idx + (a.advance nPos idx).1)
      else sizeUpToPosLoop maxPos fuel (idx + (a.advance nPos idx).1) (pos + (a.advance nPos idx).2)
    else some idx

/-- `size_up_to_pos`. -/
def sizeUpToPos (maxPos : Nat) : Option Nat :=
  if hasMtmd = false then some (min maxPos a.size)
  else sizeUpToPosLoop nPos a maxPos (a.size + 1) 0 0

/-- The place `n` is not inside of a chunk. -/
def Boundary (n : Nat) : Prop := n ≤ a.size ∧ ¬ a.raw.Inside n

/-- The least border whose position is at least `p`, or the size if there is none. -/
def IsFirst (pos : Nat → Nat) (p r : Nat) : Prop :=
  IsLeast { n | a.Boundary n ∧ p ≤ pos n } r ∨ (∀ n, a.Boundary n → pos n < p) ∧ r = a.size

/-- Both conversions return; `pos_next` does not decrease, and agrees with the sum for the whole
list; and the other one goes back, but for the start of a list with media. -/
def PositionsExact : Prop :=
  ∃ pos size : Nat → Nat,
    (∀ n ≤ a.size, posNext nPos a n = some (pos n : Int)) ∧
    (∀ n m, n ≤ m → m ≤ a.size → pos n ≤ pos m) ∧
    posNext nPos a (-1) = some (pos a.size : Int) ∧
    (∀ p, sizeUpToPos nPos a p = some (size p)) ∧
    (∀ n, a.Boundary n → (size (pos n) = n ↔ n ≠ 0 ∨ hasMtmd = false ∨ a.size = 0)) ∧
    ∀ p, a.IsFirst pos p (size p) ↔ p ≠ 0 ∨ hasMtmd = false ∨ a.size = 0

/-- The place and the position after some rounds, also past the end. -/
def walk : Nat → Nat × Nat
  | 0 => (0, 0)
  | k + 1 =>
    ((walk k).1 + (a.advance nPos (walk k).1).1, (walk k).2 + (a.advance nPos (walk k).1).2)

end Defs

section Walk

variable {nPos : MediaChunk → Nat} {hasMtmd : Bool} {a : ServerTokens hasMtmd} {n k : Nat}

theorem findChunk_some {c : MediaChunk} (h : a.findChunk n = some c) : (n, c) ∈ a.media := by
  obtain ⟨l1, l2, e, -⟩ := lookup_eq_some_iff.mp h
  rw [e]
  exact mem_append_right _ mem_cons_self

variable (hpos : ∀ m ∈ a.media, 0 < nPos m.2)

include hpos in
theorem advance_pos (n : Nat) : 0 < (a.advance nPos n).1 ∧ 0 < (a.advance nPos n).2 := by
  unfold advance
  split
  · next c h => exact ⟨(a.layout.mem (findChunk_some h)).2.1, hpos _ (findChunk_some h)⟩
  · exact ⟨Nat.one_pos, Nat.one_pos⟩

include hpos in
theorem walk_strictMono :
    StrictMono (fun k => (a.walk nPos k).1) ∧ StrictMono fun k => (a.walk nPos k).2 :=
  ⟨strictMono_nat_of_lt_succ fun _ => Nat.lt_add_of_pos_right (advance_pos hpos _).1,
    strictMono_nat_of_lt_succ fun _ => Nat.lt_add_of_pos_right (advance_pos hpos _).2⟩

/-- The loops stand at borders. -/
theorem idx_boundary (k : Nat) : ¬ a.raw.Inside (a.walk nPos k).1 := by
  induction k with
  | zero => exact fun ⟨m, _, h, _⟩ => absurd h (Nat.not_lt_zero _)
  | succ k ih =>
    rintro ⟨⟨l, d⟩, hm, h1, h2⟩
    simp only [walk, advance] at h1 h2
    split at h1
    · next c h =>
      rw [h] at h2
      rcases a.layout.disjoint (findChunk_some h) hm with ⟨e, rfl⟩ | e | e <;> dsimp only at * <;>
        omega
    · next h =>
      have hne := lookup_eq_none.mp h _ hm
      rw [h] at h2
      exact ih ⟨_, hm, by dsimp only at *; omega, by dsimp only at *; omega⟩

include hpos in
/-- Every border is met. -/
theorem boundary_idx (h : ¬ a.raw.Inside n) : ∃ k, (a.walk nPos k).1 = n := by
  obtain ⟨k, h1, h2⟩ : ∃ k, (a.walk nPos k).1 ≤ n ∧ n < (a.walk nPos (k + 1)).1 := by
    clear h
    induction n with
    | zero => exact ⟨0, le_rfl, (walk_strictMono hpos).1 Nat.one_pos⟩
    | succ n ih =>
      obtain ⟨k, h1, h2⟩ := ih
      rcases Nat.lt_or_eq_of_le (succ_le_of_lt h2) with h2 | h2
      · exact ⟨k, le_succ_of_le h1, h2⟩
      · have := (walk_strictMono hpos).1 (lt_succ_self (k + 1))
        exact ⟨k + 1, h2.ge, h2.trans_lt this⟩
  refine ⟨k, Nat.le_antisymm h1 (Nat.le_of_not_lt fun hlt => ?_)⟩
  simp only [walk, advance] at h2
  split at h2
  · next c hc => exact h ⟨_, findChunk_some hc, hlt, h2⟩
  · omega

include hpos

/-- `pos_next` stops at the first place that is not before `n`. -/
theorem posNextLoop_spec {fuel : Nat} (h0 : 0 < fuel) (hf : n < (a.walk nPos k).1 + fuel)
    (hlt : ∀ i < k, (a.walk nPos i).1 < n) :
    ∃ j, posNextLoop nPos a n fuel (a.walk nPos k).1 (a.walk nPos k).2 = some (a.walk nPos j).2 ∧
      n ≤ (a.walk nPos j).1 ∧ ∀ i < j, (a.walk nPos i).1 < n := by
  induction fuel generalizing k with
  | zero => cases h0
  | succ fuel ih =>
    rw [posNextLoop]
    split
    · next hk =>
      have := (advance_pos hpos (a.walk nPos k).1).1
      refine ih (k := k + 1) (by omega) (by rw [walk]; omega) fun i hi => ?_
      rcases Nat.lt_succ_iff_lt_or_eq.mp hi with hi | rfl
      · exact hlt i hi
      · exact hk
    · next hk => exact ⟨k, rfl, Nat.le_of_not_lt hk, hlt⟩

/-- `size_up_to_pos` makes a round if there is a token, and stops at the first place whose position
is not before `p`, or at the end. -/
theorem sizeUpToPosLoop_spec {p fuel : Nat} (h0 : 0 < fuel)
    (hf : a.size < (a.walk nPos k).1 + fuel) (hle : (a.walk nPos k).1 ≤ a.size)
    (hlt : ∀ i ≤ k, i ≠ 0 → (a.walk nPos i).2 < p) :
    ∃ j, sizeUpToPosLoop nPos a p fuel (a.walk nPos k).1 (a.walk nPos k).2 =
        some (a.walk nPos j).1 ∧ (a.walk nPos j).1 ≤ a.size ∧ (0 < a.size → j ≠ 0) ∧
      (p ≤ (a.walk nPos j).2 ∨ (a.walk nPos j).1 = a.size) ∧
      ∀ i < j, i ≠ 0 → (a.walk nPos i).2 < p := by
  induction fuel generalizing k with
  | zero => cases h0
  | succ fuel ih =>
    rw [sizeUpToPosLoop]
    split
    · next hk =>
      have hadv := (advance_pos hpos (a.walk nPos k).1).1
      have hle' : (a.walk nPos (k + 1)).1 ≤ a.size := by
        rw [walk, advance]
        split
        · next c hc =>
          have := (a.layout.mem (findChunk_some hc)).2.2
          rwa [Nat.zero_add] at this
        · exact hk
      split
      · next hp =>
        exact ⟨k + 1, rfl, hle', fun _ => k.succ_ne_zero, .inl hp,
          fun i hi => hlt i (le_of_lt_succ hi)⟩
      · next hp =>
        refine ih (k := k + 1) (by omega) (by rw [walk]; omega) hle' fun i hi hi0 => ?_
        rcases le_succ_iff.mp hi with hi | rfl
        · exact hlt i hi hi0
        · exact Nat.lt_of_not_le hp
    · next hk =>
      have he : (a.walk nPos k).1 = a.size := Nat.le_antisymm hle (Nat.le_of_not_lt hk)
      refine ⟨k, rfl, hle, ?_, .inr he, fun i hi => hlt i hi.le⟩
      rintro hs rfl
      exact hs.ne he

omit hpos in
/-- From any place on `pos_next` counts the tokens, and the positions of the chunks instead of
their tokens. -/
theorem posNextLoop_size {i p fuel : Nat} {ts : List Int32} {ms : List (Nat × MediaChunk)}
    (h : a.From i ts ms) (hf : ts.length < fuel) :
    ∃ q, posNextLoop nPos a a.size fuel i p = some q ∧
      (q : Int) = p + ts.length + (ms.map fun m => (nPos m.2 - m.2.nTokens : Int)).sum := by
  induction fuel generalizing i p ts ms with
  | zero => omega
  | succ fuel ih =>
    have hsize := h.size
    rw [posNextLoop, advance]
    cases hl : h.layout with
    | nil =>
      rw [if_neg (by rw [hsize]; simp)]
      exact ⟨p, rfl, by simp⟩
    | @text _ t ts _ ht hl' =>
      have hnone : a.findChunk i = none := by
        rw [h.find i le_rfl]
        exact lookup_eq_none.mpr fun m hm => by have := (hl'.mem hm).1; omega
      rw [length_cons] at hsize hf
      obtain ⟨q, e, hq⟩ := ih (p := p + 1) (h.text hl') (by omega)
      rw [if_pos (by omega), hnone]
      refine ⟨q, e, ?_⟩
      rw [hq, length_cons]
      omega
    | @media _ c ts ms hm hc hl' =>
      have hsome : a.findChunk i = some c := by rw [h.find i le_rfl, lookup_cons_self]
      rw [length_append, length_replicate] at hsize hf
      obtain ⟨q, e, hq⟩ := ih (p := p + nPos c) (h.media hc hl') (by omega)
      rw [if_pos (by omega), hsome]
      refine ⟨q, e, ?_⟩
      rw [hq, length_append, length_replicate, map_cons, sum_cons]
      push_cast
      omega

end Walk

section Exact

/-- A list without media has no chunks. -/
theorem media_false {i : Nat} {ts : List Int32} {ms : List (Nat × MediaChunk)}
    (h : Layout false i ts ms) : ms = [] := by
  generalize hb : false = b at h
  induction h with
  | nil => rfl
  | text _ _ ih => exact ih
  | media hm => exact absurd (hb.trans hm) (by decide)

variable {nPos : MediaChunk → Nat} {hasMtmd : Bool} {a : ServerTokens hasMtmd}

theorem positionsExact_text {a : ServerTokens false} : a.PositionsExact nPos := by
  have hin : ∀ n, ¬ a.raw.Inside n := by
    rintro n ⟨m, hm : m ∈ a.media, -⟩
    rw [media_false a.layout] at hm
    cases hm
  refine ⟨id, (min · a.size), fun n _ => by simp [posNext], fun _ _ h _ => h, rfl, fun _ => rfl,
    fun n hn => iff_of_true (min_eq_left hn.1) (.inr (.inl rfl)),
    fun p => iff_of_true ?_ (.inr (.inl rfl))⟩
  dsimp only
  rcases le_or_gt p a.size with hp | hp
  · rw [min_eq_left hp]
    exact .inl ⟨⟨⟨hp, hin p⟩, le_rfl⟩, fun n hn => hn.2⟩
  · exact .inr ⟨fun n hn => hn.1.trans_lt hp, min_eq_right hp.le⟩

theorem positionsExact_mtmd {a : ServerTokens true} (hpos : ∀ m ∈ a.media, 0 < nPos m.2) :
    a.PositionsExact nPos := by
  obtain ⟨hidx, hposm⟩ := walk_strictMono hpos
  choose j hj using fun n => posNextLoop_spec (k := 0) (n := n) hpos (succ_pos n)
    (by rw [walk]; omega) fun i hi => absurd hi (Nat.not_lt_zero i)
  choose s hs using fun p => sizeUpToPosLoop_spec (k := 0) (p := p) hpos (succ_pos a.size)
    (by rw [walk]; omega) (Nat.zero_le _) fun i hi hi0 => absurd (le_zero.mp hi) hi0
  have hjk : ∀ k, j (a.walk nPos k).1 = k := fun k => Nat.le_antisymm
    (Nat.le_of_not_lt fun h => lt_irrefl _ ((hj _).2.2 k h)) (hidx.le_iff_le.mp (hj _).2.1)
  refine ⟨fun n => (a.walk nPos (j n)).2, fun p => (a.walk nPos (s p)).1, ?_, ?_, ?_,
    fun p => (hs p).1, ?_, ?_⟩
  · intro n _
    rw [posNext, if_neg nofun, if_neg (by omega), Int.toNat_natCast]
    exact congrArg _ (hj n).1
  · refine fun n m hnm _ => hposm.monotone (Nat.le_of_not_lt fun h => ?_)
    have := (hj n).2.2 _ h
    have := (hj m).2.1
    omega
  · obtain ⟨q, e, hq⟩ := @posNextLoop_size nPos _ a _ 0 _ _ _ a.from_zero
      (lt_succ_self a.size)
    rw [posNext, if_neg nofun, if_pos (by decide)]
    dsimp only
    rw [← Option.some.inj (e.symm.trans (hj a.size).1), hq]
    simp [size]
  · rintro n ⟨hn, hin⟩
    obtain ⟨k, rfl⟩ := boundary_idx hpos hin
    obtain ⟨-, hle, h0, hstop, hbefore⟩ := hs (a.walk nPos k).2
    dsimp only
    rw [hjk]
    rcases eq_or_ne k 0 with rfl | hk
    · rcases Nat.eq_zero_or_pos a.size with hz | hz
      · exact iff_of_true (le_zero.mp (hz ▸ hle)) (.inr (.inr hz))
      · have := hidx (Nat.pos_of_ne_zero (h0 hz))
        refine iff_of_false this.ne' ?_
        rintro (h | h | h)
        · exact h rfl
        · cases h
        · omega
    · have hle' : s (a.walk nPos k).2 ≤ k :=
        Nat.le_of_not_lt fun h => lt_irrefl _ (hbefore k h hk)
      have hge : k ≤ s (a.walk nPos k).2 := by
        rcases hstop with h | h
        · exact hposm.le_iff_le.mp h
        · exact hidx.le_iff_le.mp (hn.trans h.ge)
      rw [Nat.le_antisymm hle' hge]
      exact iff_of_true rfl (.inl (hidx (Nat.pos_of_ne_zero hk)).ne')
  · intro p
    obtain ⟨-, hle, h0, hstop, hbefore⟩ := hs p
    dsimp only [IsFirst]
    rcases eq_or_ne p 0 with rfl | hp
    · rcases Nat.eq_zero_or_pos a.size with hz | hz
      · have he : (a.walk nPos (s 0)).1 = 0 := le_zero.mp (hz ▸ hle)
        refine iff_of_true (.inl ⟨⟨⟨hle, idx_boundary _⟩, Nat.zero_le _⟩, fun n _ => ?_⟩)
          (.inr (.inr hz))
        exact he.trans_le (Nat.zero_le n)
      · have hlt := hidx (Nat.pos_of_ne_zero (h0 hz))
        have hb : a.Boundary 0 := ⟨Nat.zero_le _, @idx_boundary nPos _ a 0⟩
        refine iff_of_false ?_ ?_
        · rintro (h | ⟨h, -⟩)
          · exact absurd (h.2 ⟨hb, Nat.zero_le _⟩) (Nat.not_le_of_lt hlt)
          · exact Nat.not_lt_zero _ (h 0 hb)
        · rintro (h | h | h)
          · exact h rfl
          · cases h
          · omega
    · refine iff_of_true ?_ (.inl hp)
      by_cases hps : p ≤ (a.walk nPos (s p)).2
      · refine .inl ⟨⟨⟨hle, idx_boundary _⟩, by rwa [hjk]⟩, fun n ⟨⟨_, hin⟩, hpn⟩ => ?_⟩
        obtain ⟨k, rfl⟩ := boundary_idx hpos hin
        rw [hjk] at hpn
        refine hidx.monotone (Nat.le_of_not_lt fun h => ?_)
        rcases eq_or_ne k 0 with rfl | hk
        · exact hp (le_zero.mp hpn)
        · exact absurd (hbefore k h hk) (Nat.not_lt_of_le hpn)
      · have he := hstop.resolve_left hps
        refine .inr ⟨fun n ⟨hn, hin⟩ => ?_, he⟩
        obtain ⟨k, rfl⟩ := boundary_idx hpos hin
        have hk : k ≤ s p := hidx.le_iff_le.mp (hn.trans he.ge)
        rw [hjk]
        exact (hposm.monotone hk).trans_lt (Nat.lt_of_not_le hps)

theorem positions_exact (nPos : MediaChunk → Nat) (hasMtmd : Bool) (a : ServerTokens hasMtmd)
    (hpos : ∀ m ∈ a.media, 0 < nPos m.2) : a.PositionsExact nPos := by
  cases hasMtmd with
  | false => exact positionsExact_text
  | true => exact positionsExact_mtmd hpos

theorem positions_exact_textThenImage : textThenImage.PositionsExact fun _ => 2 :=
  positions_exact (fun _ => 2) true textThenImage fun _ _ => by decide

/-- No token has a position before 0, but the first one is counted. -/
theorem positions_textThenImage :
    textThenImage.Boundary 0 ∧ posNext (fun _ => 2) textThenImage 0 = some 0 ∧
      sizeUpToPos (fun _ => 2) textThenImage 0 = some 1 :=
  ⟨⟨by decide, by decide⟩, rfl, rfl⟩

end Exact

end BeeLlama.Server.ServerTokens
