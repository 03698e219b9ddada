import Mathlib.Data.Finmap
import Mathlib.Data.Finset.Max

/-!
# Counting maps

A `CountMap κ` is a finite map from keys to counts, the way an index keeps a multiset: a key is
in the map iff its count is positive. `Counts m f` says that `m` represents the function
`f : κ → Nat`; `inc` and `dec` change one count and keep the representation (`Counts.inc`,
`Counts.dec`), and two maps that represent one function are equal (`Counts.ext`).

`minKey`/`maxKey` are the first and the last key of an ordered map. For a map that represents
`f` they are the least and the greatest `k` with `0 < f k` (`Counts.minKey`, `Counts.maxKey`).
-/

namespace BeeLlama

/-- A finite map from keys to counts. -/
abbrev CountMap (κ : Type) := Finmap fun _ : κ => Nat

namespace CountMap

variable {κ : Type} [DecidableEq κ]

/-- `m[k]++`, with the count `0` for an absent key. -/
def inc (m : CountMap κ) (k : κ) : CountMap κ := m.insert k ((m.lookup k).getD 0 + 1)

/-- `if (--m[k] == 0) m.erase(k)` for a present key. -/
def dec (m : CountMap κ) (k : κ) : CountMap κ :=
  match m.lookup k with
  | none => m
  | some n => if n - 1 = 0 then m.erase k else m.insert k (n - 1)

/-- `m` maps each key to its count `f k`, and has no key with count `0`. -/
def Counts (m : CountMap κ) (f : κ → Nat) : Prop :=
  ∀ k, m.lookup k = if f k = 0 then none else some (f k)

variable {f : κ → Nat}

theorem Counts.empty (h : ∀ k, f k = 0) : Counts ∅ f := by
  intro k; simp [h k]

variable {m : CountMap κ} {f g : κ → Nat}

theorem Counts.congr (h : Counts m f) (e : ∀ k, g k = f k) : Counts m g := by
  intro k; rw [e k]; exact h k

/-- Two maps that represent one function are equal. -/
theorem Counts.ext {m m' : CountMap κ} (h : Counts m f) (h' : Counts m' f) : m = m' :=
  Finmap.ext_lookup fun k => by rw [h k, h' k]

theorem Counts.mem_iff (h : Counts m f) (k : κ) : k ∈ m ↔ 0 < f k := by
  rw [← Finmap.lookup_isSome, h k]
  by_cases e : f k = 0
  · simp [e]
  · simp [e, Nat.pos_of_ne_zero e]

theorem Counts.inc {k : κ} (h : Counts m f)
    (hk : g k = f k + 1) (hne : ∀ j, j ≠ k → g j = f j) : Counts (m.inc k) g := by
  intro j
  unfold CountMap.inc
  by_cases e : j = k
  · subst e
    rw [Finmap.lookup_insert, h j, hk]
    by_cases e0 : f j = 0 <;> simp [e0]
  · rw [Finmap.lookup_insert_of_ne _ e, h j, hne j e]

theorem Counts.dec {k : κ} (h : Counts m f)
    (hk : f k = g k + 1) (hne : ∀ j, j ≠ k → g j = f j) : Counts (m.dec k) g := by
  have hl : m.lookup k = some (g k + 1) := by rw [h k, hk]; simp
  intro j
  unfold CountMap.dec
  rw [hl]
  simp only [Nat.add_sub_cancel]
  by_cases e : j = k
  · subst e
    by_cases e0 : g j = 0
    · simp [e0]
    · simp [e0]
  · rw [hne j e, ← h j]
    split
    · exact Finmap.lookup_erase_ne e
    · exact Finmap.lookup_insert_of_ne _ e

section Order

variable {κ : Type} [LinearOrder κ]

/-- The first key (`m.begin()->first`), or `d` for an empty map. -/
def minKey (m : CountMap κ) (d : κ) : κ :=
  if h : m.keys.Nonempty then m.keys.min' h else d

/-- The last key (`m.rbegin()->first`), or `d` for an empty map. -/
def maxKey (m : CountMap κ) (d : κ) : κ :=
  if h : m.keys.Nonempty then m.keys.max' h else d

variable {m : CountMap κ} {f : κ → Nat} {d : κ}

private theorem coe_keys (h : Counts m f) : (m.keys : Set κ) = { k | 0 < f k } := by
  ext k; simp [Finmap.mem_keys, h.mem_iff k]

theorem Counts.minKey (h : Counts m f) {k : κ} (hk : 0 < f k) :
    IsLeast { j | 0 < f j } (m.minKey d) := by
  have hne : m.keys.Nonempty := ⟨k, Finmap.mem_keys.mpr ((h.mem_iff k).mpr hk)⟩
  rw [CountMap.minKey, dif_pos hne, ← coe_keys h]
  exact m.keys.isLeast_min' hne

theorem Counts.maxKey (h : Counts m f) {k : κ} (hk : 0 < f k) :
    IsGreatest { j | 0 < f j } (m.maxKey d) := by
  have hne : m.keys.Nonempty := ⟨k, Finmap.mem_keys.mpr ((h.mem_iff k).mpr hk)⟩
  rw [CountMap.maxKey, dif_pos hne, ← coe_keys h]
  exact m.keys.isGreatest_max' hne

theorem Counts.not_nonempty (h : Counts m f) (hz : ∀ k, f k = 0) : ¬ m.keys.Nonempty := by
  rintro ⟨k, hk⟩
  have := (h.mem_iff k).mp (Finmap.mem_keys.mp hk)
  have := hz k
  omega

theorem Counts.minKey_of_zero (h : Counts m f) (hz : ∀ k, f k = 0) : m.minKey d = d :=
  dif_neg (h.not_nonempty hz)

theorem Counts.maxKey_of_zero (h : Counts m f) (hz : ∀ k, f k = 0) : m.maxKey d = d :=
  dif_neg (h.not_nonempty hz)

end Order

end CountMap
end BeeLlama
