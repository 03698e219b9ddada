import Mathlib.Data.List.Lex
import Mathlib.Data.List.Sort

/-!
# JSON values and the order of their keys

The members of an object are a list. A map that sorts its keys is such a list in the order of the
keys: `mapOf` inserts the members one by one, and of two members with one key the first one stays.

* `lookup_mapOf`: a member is found in the map as it is found in the list.
* `mapOf_eq_self`: a list that is sorted is its own map.
* `Json.sorted`: the value with the members of all its objects sorted. `sorted_eq_iff` says when
  this is the value itself.
-/

namespace BeeLlama

open List Option

/-- A value: scalars `σ`, arrays, and objects with keys `κ`. -/
inductive Json (κ σ : Type) where
  | scalar (a : σ)
  | array (elems : List (Json κ σ))
  | object (members : List (κ × Json κ σ))

section Maps

variable {κ α β : Type} [LinearOrder κ]

/-- The keys increase. -/
def SortedKeys (m : List (κ × α)) : Prop := m.Pairwise fun p q => p.1 < q.1

/-- A member is inserted in a sorted map, if its key is new. -/
def insertKey (k : κ) (v : α) : List (κ × α) → List (κ × α)
  | [] => [(k, v)]
  | p :: m =>
    if k < p.1 then (k, v) :: p :: m else if p.1 < k then p :: insertKey k v m else p :: m

/-- The map of some members. -/
def mapOf (l : List (κ × α)) : List (κ × α) := l.foldl (fun m p => insertKey p.1 p.2 m) []

variable {k : κ} {m : List (κ × α)}

theorem mem_insertKey {v : α} {q : κ × α} (h : q ∈ insertKey k v m) : q = (k, v) ∨ q ∈ m := by
  induction m with
  | nil => exact .inl (mem_singleton.mp h)
  | cons p m ih =>
    unfold insertKey at h
    split_ifs at h with hlt hgt
    · exact mem_cons.mp h
    · rcases mem_cons.mp h with rfl | h
      · exact .inr mem_cons_self
      · exact (ih h).imp_right (mem_cons_of_mem _)
    · exact .inr h

theorem SortedKeys.insertKey (h : SortedKeys m) (k : κ) (v : α) : SortedKeys (insertKey k v m) := by
  induction m with
  | nil => exact pairwise_singleton _ _
  | cons p m ih =>
    have hp := pairwise_cons.mp h
    unfold BeeLlama.insertKey
    split_ifs with hlt hgt
    · refine pairwise_cons.mpr ⟨fun q hq => ?_, h⟩
      rcases mem_cons.mp hq with rfl | hq
      · exact hlt
      · exact hlt.trans (hp.1 q hq)
    · refine pairwise_cons.mpr ⟨fun q hq => ?_, ih hp.2⟩
      rcases mem_insertKey hq with rfl | hq
      · exact hgt
      · exact hp.1 q hq
    · exact h

theorem lookup_cons_ite {κ : Type} [DecidableEq κ] [BEq κ] [LawfulBEq κ] (k : κ) (p : κ × α)
    (m : List (κ × α)) : (p :: m).lookup k = if k = p.1 then some p.2 else m.lookup k := by
  obtain ⟨k', v⟩ := p
  rw [lookup_cons]
  by_cases h : k = k'
  · rw [if_pos h, beq_iff_eq.mpr h]
  · rw [if_neg h, beq_eq_false_iff_ne.mpr h]

theorem lookup_of_lt [BEq κ] [LawfulBEq κ] (h : ∀ q ∈ m, k < q.1) : m.lookup k = none := by
  induction m with
  | nil => rfl
  | cons p m ih =>
    rw [lookup_cons_ite, if_neg (h p mem_cons_self).ne, ih fun q hq => h q (mem_cons_of_mem _ hq)]

theorem lookup_insertKey [BEq κ] [LawfulBEq κ] (h : SortedKeys m) (k k' : κ)
    (v : α) : (insertKey k v m).lookup k' = (m.lookup k').or (if k' = k then some v else none) := by
  induction m with
  | nil => exact lookup_cons_ite k' (k, v) []
  | cons p m ih =>
    have hp := pairwise_cons.mp h
    have ih := ih hp.2
    unfold BeeLlama.insertKey
    by_cases hlt : k < p.1
    · rw [if_pos hlt, lookup_cons_ite k' (k, v)]
      by_cases hk : k' = k
      · have hnone : (p :: m).lookup k' = none := lookup_of_lt fun q hq => by
          rcases mem_cons.mp hq with rfl | hq
          · exact hk ▸ hlt
          · exact hk ▸ hlt.trans (hp.1 q hq)
        rw [hnone, none_or]
      · rw [if_neg hk, if_neg hk, or_none]
    · rw [if_neg hlt]
      by_cases hgt : p.1 < k
      · rw [if_pos hgt, lookup_cons_ite, lookup_cons_ite, ih]
        split_ifs with hp' hk
        · exact absurd (hk.symm.trans hp') hgt.ne'
        · rfl
        · rfl
        · rfl
      · have hk : k = p.1 := le_antisymm (not_lt.mp hgt) (not_lt.mp hlt)
        rw [if_neg hgt, lookup_cons_ite]
        split_ifs with hp' hk'
        · rfl
        · rfl
        · exact absurd (‹k' = k›.trans hk) hp'
        · rw [or_none]

theorem sortedKeys_foldl (l : List (κ × α)) (h : SortedKeys m) :
    SortedKeys (l.foldl (fun m p => insertKey p.1 p.2 m) m) := by
  induction l generalizing m with
  | nil => exact h
  | cons p l ih => exact ih (h.insertKey p.1 p.2)

/-- A map is sorted. -/
theorem sortedKeys_mapOf (l : List (κ × α)) : SortedKeys (mapOf l) :=
  sortedKeys_foldl l List.Pairwise.nil

theorem lookup_foldl [BEq κ] [LawfulBEq κ] (l : List (κ × α)) (h : SortedKeys m) (k : κ) :
    (l.foldl (fun m p => insertKey p.1 p.2 m) m).lookup k = (m.lookup k).or (l.lookup k) := by
  induction l generalizing m with
  | nil => exact or_none.symm
  | cons p l ih =>
    rw [foldl_cons, ih (h.insertKey p.1 p.2), lookup_insertKey h, Option.or_assoc, lookup_cons_ite]
    split_ifs <;> rfl

/-- A map has the first member of every key. -/
@[simp] theorem lookup_mapOf [BEq κ] [LawfulBEq κ] (l : List (κ × α)) (k : κ) :
    (mapOf l).lookup k = l.lookup k :=
  (lookup_foldl l .nil k).trans rfl

theorem insertKey_append (h : ∀ q ∈ m, q.1 < k) (v : α) : insertKey k v m = m ++ [(k, v)] := by
  induction m with
  | nil => rfl
  | cons p m ih =>
    have hp := h p mem_cons_self
    rw [insertKey, if_neg hp.not_gt, if_pos hp, ih fun q hq => h q (mem_cons_of_mem _ hq),
      cons_append]

theorem foldl_insertKey_append (l m : List (κ × α)) (h : SortedKeys (m ++ l)) :
    l.foldl (fun m p => insertKey p.1 p.2 m) m = m ++ l := by
  induction l generalizing m with
  | nil => exact (append_nil m).symm
  | cons p l ih =>
    have hlt := (pairwise_append.mp h).2.2
    have happ : m ++ p :: l = m ++ [p] ++ l := append_cons m p l
    rw [foldl_cons, insertKey_append fun q hq => hlt q hq p mem_cons_self, happ]
    exact ih (m ++ [p]) (happ ▸ h)

/-- A sorted list is its own map. -/
theorem mapOf_eq_self {l : List (κ × α)} (h : SortedKeys l) : mapOf l = l :=
  foldl_insertKey_append l [] h

theorem sortedKeys_iff : SortedKeys m ↔ (m.map Prod.fst).Pairwise (· < ·) :=
  pairwise_map.symm

end Maps

namespace Json

variable {κ σ : Type} [LinearOrder κ]

mutual
/-- The value with sorted keys. -/
def sorted : Json κ σ → Json κ σ
  | .scalar a => .scalar a
  | .array elems => .array (sortedElems elems)
  | .object members => .object (mapOf (sortedMembers members))

/-- The elements with sorted keys. -/
def sortedElems : List (Json κ σ) → List (Json κ σ)
  | [] => []
  | j :: js => j.sorted :: sortedElems js

/-- The members, each with sorted keys. -/
def sortedMembers : List (κ × Json κ σ) → List (κ × Json κ σ)
  | [] => []
  | p :: ps => sortedMember p :: sortedMembers ps

/-- A member with sorted keys. -/
def sortedMember : κ × Json κ σ → κ × Json κ σ
  | (k, j) => (k, j.sorted)
end

/-- The keys of every object of the value increase. -/
inductive IsSorted : Json κ σ → Prop where
  | scalar {a : σ} : IsSorted (.scalar a)
  | array {elems : List (Json κ σ)} (h : ∀ j ∈ elems, IsSorted j) : IsSorted (.array elems)
  | object {members : List (κ × Json κ σ)} (hkeys : SortedKeys members)
      (h : ∀ p ∈ members, IsSorted p.2) : IsSorted (.object members)

theorem isSorted_array {elems : List (Json κ σ)} :
    IsSorted (.array elems) ↔ ∀ j ∈ elems, IsSorted j :=
  ⟨fun h => (by cases h with | array h => exact h), .array⟩

variable {members : List (κ × Json κ σ)}

theorem isSorted_object :
    IsSorted (.object members) ↔ SortedKeys members ∧ ∀ p ∈ members, IsSorted p.2 :=
  ⟨fun h => (by cases h with | object hkeys h => exact ⟨hkeys, h⟩), fun h => .object h.1 h.2⟩

theorem keys_sortedMembers (members : List (κ × Json κ σ)) :
    (sortedMembers members).map Prod.fst = members.map Prod.fst := by
  induction members with
  | nil => rfl
  | cons p ps ih =>
    obtain ⟨k, j⟩ := p
    rw [sortedMembers, sortedMember, map_cons, map_cons, ih]

/-- The map of the sorted members is what was there, if the keys and the members are sorted. -/
theorem mapOf_sortedMembers_eq_iff : mapOf (sortedMembers members) = members ↔
      SortedKeys members ∧ sortedMembers members = members := by
  have hself : SortedKeys members → mapOf (sortedMembers members) = sortedMembers members :=
    fun h => mapOf_eq_self (sortedKeys_iff.mpr (keys_sortedMembers members ▸ sortedKeys_iff.mp h))
  refine ⟨fun h => ?_, fun ⟨hkeys, h⟩ => (hself hkeys).trans h⟩
  have hkeys : SortedKeys members := h ▸ sortedKeys_mapOf _
  exact ⟨hkeys, (hself hkeys).symm.trans h⟩

mutual
/-- Sorting keeps a value that is sorted, and no other one. -/
theorem sorted_eq_iff : ∀ j : Json κ σ, j.sorted = j ↔ j.IsSorted
  | .scalar a => ⟨fun _ => .scalar, fun _ => rfl⟩
  | .array elems => by
    rw [sorted, Json.array.injEq, isSorted_array]
    exact sortedElems_eq_iff elems
  | .object members => by
    rw [sorted, Json.object.injEq, mapOf_sortedMembers_eq_iff, isSorted_object]
    exact and_congr_right fun _ => sortedMembers_eq_iff members

theorem sortedElems_eq_iff : ∀ js : List (Json κ σ), sortedElems js = js ↔ ∀ j ∈ js, j.IsSorted
  | [] => ⟨fun _ => forall_mem_nil _, fun _ => rfl⟩
  | j :: js => by
    rw [sortedElems, List.cons.injEq, forall_mem_cons]
    exact and_congr (sorted_eq_iff j) (sortedElems_eq_iff js)

theorem sortedMembers_eq_iff :
    ∀ ps : List (κ × Json κ σ), sortedMembers ps = ps ↔ ∀ p ∈ ps, p.2.IsSorted
  | [] => ⟨fun _ => forall_mem_nil _, fun _ => rfl⟩
  | p :: ps => by
    rw [sortedMembers, List.cons.injEq, forall_mem_cons]
    exact and_congr (sortedMember_eq_iff p) (sortedMembers_eq_iff ps)

theorem sortedMember_eq_iff : ∀ p : κ × Json κ σ, sortedMember p = p ↔ p.2.IsSorted
  | (k, j) => by
    rw [sortedMember, Prod.mk.injEq, and_iff_right rfl]
    exact sorted_eq_iff j
end

end Json

end BeeLlama
