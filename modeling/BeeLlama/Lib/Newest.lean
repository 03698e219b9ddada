import Mathlib.Data.List.Perm.Subperm

/-!
# The newest items of a stream

A list in ascending order keeps the newest `k` items of what came in (`IsNewest`). A list that is
longer than `k` keeps more than them, and `newest k` are its last `k` items.

* `IsNewest.insert`: an insertion at the place of the new item, and a cut later.
* `isNewest_evict_iff`: the first item goes before the insertion; this is right if and only if the
  list was longer than `k` or the new item is not below the first one.
-/

namespace BeeLlama

open List

variable {α : Type} {le : α → α → Prop} {k : Nat} {all : List α} {x v : α}

/-- The last `k` items. -/
def newest (k : Nat) (l : List α) : List α := l.drop (l.length - k)

/-- `kept` are the `k` newest of `all`. -/
structure IsNewest (le : α → α → Prop) (k : Nat) (all kept : List α) : Prop where
  sub : ∀ a ∈ kept, a ∈ all
  nodup : kept.Nodup
  length : kept.length = min k all.length
  le : ∀ a ∈ all, a ∉ kept → ∀ b ∈ kept, le a b

theorem newest_of_length_le {l : List α} (h : l.length ≤ k) : newest k l = l := by
  rw [newest, Nat.sub_eq_zero_of_le h, drop_zero]

theorem newest_newest (k : Nat) (l : List α) : newest k (newest k l) = newest k l :=
  newest_of_length_le (by rw [newest, length_drop]; omega)

theorem length_newest (k : Nat) (l : List α) : (newest k l).length = min k l.length := by
  rw [newest, length_drop]
  omega

theorem newest_append (k : Nat) (a b : List α) :
    newest k (a ++ b) = newest (k - b.length) a ++ newest k b := by
  rw [newest, newest, newest, drop_append, length_append]
  congr 1
  · rcases Nat.lt_or_ge b.length k with h | h
    · congr 1
      omega
    · rw [drop_eq_nil_of_le (by omega), drop_eq_nil_of_le (by omega)]
  · congr 1
    omega

/-- A smaller number of newest items, of a list without its first ones. -/
theorem mem_of_mem_newest_drop {j m : Nat} {l : List α} (hj : j ≤ k)
    (h : x ∈ newest j (l.drop m)) : x ∈ newest k l := by
  unfold newest at h ⊢
  rw [length_drop, drop_drop] at h
  exact drop_subset_drop_left l (by omega) h

/-- With a new item among the last ones one more is known. -/
theorem newest_insert_all {p : α → Prop} {pre suf : List α} (hx : p x) (hsuf : ∀ a ∈ suf, p a)
    (h : ∀ a ∈ newest k (pre ++ suf), p a) : ∀ a ∈ newest (k + 1) (pre ++ x :: suf), p a := by
  intro a ha
  rw [newest_append] at h ha
  have hlen : k + 1 - (x :: suf).length = k - suf.length := by
    rw [length_cons]
    omega
  rw [hlen] at ha
  rcases mem_append.mp ha with ha | ha
  · exact h a (mem_append_left _ ha)
  · rcases mem_cons.mp (mem_of_mem_drop ha) with rfl | ha
    · exact hx
    · exact hsuf a ha

/-- Without one of the items one less is known. -/
theorem mem_newest_insert {pre suf : List α} (h : v ∈ newest k (pre ++ suf)) :
    v ∈ newest (k + 1) (pre ++ x :: suf) := by
  rw [newest_append] at h ⊢
  rw [length_cons, Nat.add_sub_add_right]
  refine (mem_append.mp h).elim (mem_append_left _) fun h => mem_append_right _ ?_
  rw [← singleton_append, newest_append]
  exact mem_append_right _ (mem_of_mem_newest_drop (Nat.le_succ k) (m := 0) h)

theorem newest_append_of_le {pre suf : List α} (h : k ≤ suf.length) :
    newest k (pre ++ suf) = newest k suf := by
  rw [newest, newest, length_append, drop_append, drop_eq_nil_of_le (by omega), nil_append]
  congr 1
  omega

theorem newest_map {β : Type} (f : α → β) (l : List α) :
    newest k (l.map f) = (newest k l).map f := by
  rw [newest, newest, map_drop, length_map]

theorem IsNewest.nil (le : α → α → Prop) (k : Nat) : IsNewest le k [] [] :=
  ⟨fun _ h => h, nodup_nil, by simp, fun _ h => absurd h not_mem_nil⟩

/-- The last items of a list in order. -/
theorem isNewest_newest {l : List α} (hs : l.Pairwise le) (hnd : (newest k l).Nodup) :
    IsNewest le k l (newest k l) where
  sub _ h := mem_of_mem_drop h
  nodup := hnd
  length := length_newest k l
  le a ha hk b hb := by
    rw [← take_append_drop (l.length - k) l] at ha hs
    exact (pairwise_append.mp hs).2.2 a ((mem_append.mp ha).resolve_right hk) b hb

/-- Only the items matter, not the order in which they came. -/
theorem IsNewest.perm {all' kept : List α} (h : IsNewest le k all kept) (hp : all.Perm all') :
    IsNewest le k all' kept :=
  ⟨fun a ha => hp.mem_iff.mp (h.sub a ha), h.nodup, by rw [h.length, hp.length_eq],
    fun a ha hk => h.le a (hp.mem_iff.mpr ha) hk⟩

/-- The list is not full: nothing was dropped. -/
theorem IsNewest.all_mem {kept : List α} (h : IsNewest le k all kept) (hlt : kept.length < k)
    {a : α} (ha : a ∈ all) : a ∈ kept := by
  have hlen := h.length
  have hp := (subperm_of_subset h.nodup h.sub).perm_of_length_le (by omega)
  exact hp.mem_iff.mpr ha

section Insert

variable {pre suf : List α}

/-- A list with one more item than a part of it has that item somewhere. -/
theorem exists_place {base l : List α} (hsub : base.Sublist l) (hp : l.Perm (x :: base)) :
    ∃ pre suf, base = pre ++ suf ∧ l = pre ++ x :: suf := by
  induction hsub with
  | slnil => exact absurd hp.length_eq (by simp)
  | @cons l1 l2 a h ih =>
    obtain rfl := h.eq_of_length (Nat.succ.inj hp.length_eq).symm
    have ha : [a].Perm [x] := (perm_append_right_iff l1).mp hp
    obtain rfl := singleton_perm_singleton.mp ha
    exact ⟨[], l1, rfl, rfl⟩
  | @cons_cons l1 l2 a h ih =>
    obtain ⟨pre, suf, rfl, rfl⟩ := ih ((hp.trans (List.Perm.swap a x l1)).cons_inv)
    exact ⟨a :: pre, suf, rfl, rfl⟩

theorem mem_insert_place {b : α} : b ∈ pre ++ x :: suf ↔ b = x ∨ b ∈ pre ++ suf := by
  simp only [mem_append, mem_cons]
  tauto

/-- The list has `k` items from some place of the first part on. -/
theorem exists_cut (hlt : suf.length < k) (hle : k ≤ (pre ++ suf).length) :
    ∃ p h q, pre = p ++ h :: q ∧ (h :: (q ++ suf)).length = k := by
  rw [length_append] at hle
  have hm : pre.length + suf.length - k < pre.length := by omega
  refine ⟨pre.take (pre.length + suf.length - k), pre[pre.length + suf.length - k],
    pre.drop (pre.length + suf.length - k + 1), ?_, ?_⟩
  · rw [← drop_eq_getElem_cons hm, take_append_drop]
  · rw [length_cons, length_append, length_drop]
    omega

/-- A new item goes to its place in the list, which is cut then or later. -/
theorem IsNewest.insert (h : IsNewest le k all (newest k (pre ++ suf)))
    (htrans : ∀ a b c, le a b → le b c → le a c) (hs : (pre ++ x :: suf).Pairwise le)
    (hnd : (pre ++ x :: suf).Nodup) (hx : x ∉ all) :
    IsNewest le k (x :: all) (newest k (pre ++ x :: suf)) := by
  obtain ⟨-, hxsuf, hpre⟩ := pairwise_append.mp hs
  have hpx : ∀ a ∈ pre, le a x := fun a ha => hpre a ha x mem_cons_self
  have hlen := h.length
  rw [length_newest] at hlen
  rcases Nat.lt_or_ge suf.length k with hlt | hge
  · rcases Nat.lt_or_ge (pre ++ suf).length k with hall | hfull
    · -- nothing was dropped yet, and nothing is now
      rw [newest_of_length_le (Nat.le_of_lt hall)] at h
      have hlen' : (pre ++ x :: suf).length = (pre ++ suf).length + 1 := by simp; omega
      rw [newest_of_length_le (by omega)]
      refine ⟨fun a ha => ?_, hnd, by rw [length_cons]; omega, fun a ha hk => ?_⟩
      · rcases mem_insert_place.mp ha with rfl | ha
        · exact mem_cons_self
        · exact mem_cons_of_mem _ (h.sub a ha)
      · refine absurd (mem_insert_place.mpr ?_) hk
        exact (mem_cons.mp ha).imp_right fun ha => h.all_mem hall ha
    · -- the first of the `k` items goes
      obtain ⟨p, v, q, rfl, hk⟩ := exists_cut hlt hfull
      have e : newest k ((p ++ v :: q) ++ suf) = v :: (q ++ suf) := by
        rw [append_assoc, cons_append, newest_append_of_le (Nat.le_of_eq hk.symm),
          newest_of_length_le (Nat.le_of_eq hk)]
      have hk' : (q ++ x :: suf).length = k := by
        rw [← hk]; simp; omega
      have e' : newest k ((p ++ v :: q) ++ x :: suf) = q ++ x :: suf := by
        have : (p ++ v :: q) ++ x :: suf = (p ++ [v]) ++ (q ++ x :: suf) := by simp
        rw [this, newest_append_of_le (Nat.le_of_eq hk'.symm),
          newest_of_length_le (Nat.le_of_eq hk')]
      rw [e] at h
      rw [e']
      have hvq : ∀ b ∈ q ++ x :: suf, le v b := by
        have hs' : (p ++ v :: (q ++ x :: suf)).Pairwise le := by simpa using hs
        exact (pairwise_cons.mp (pairwise_append.mp hs').2.1).1
      refine ⟨fun a ha => ?_, ?_, by rw [length_cons]; omega, fun a ha hka b hb => ?_⟩
      · rcases mem_insert_place.mp ha with rfl | ha
        · exact mem_cons_self
        · exact mem_cons_of_mem _ (h.sub a (mem_cons_of_mem v ha))
      · exact hnd.sublist (by simp)
      · rcases mem_cons.mp ha with rfl | hall
        · exact absurd (mem_insert_place.mpr (.inl rfl)) hka
        · by_cases hav : a = v
          · exact hav ▸ hvq b hb
          · have hout : a ∉ v :: (q ++ suf) := fun hm =>
              (mem_cons.mp hm).elim hav fun hm => hka (mem_insert_place.mpr (.inr hm))
            rcases mem_insert_place.mp hb with rfl | hb
            · exact htrans a v b (h.le a hall hout v mem_cons_self)
                (hvq b (mem_insert_place.mpr (.inl rfl)))
            · exact h.le a hall hout b (mem_cons_of_mem v hb)
  · -- the new item is before the last `k` ones
    have e : newest k (pre ++ x :: suf) = newest k (pre ++ suf) := by
      have : pre ++ x :: suf = (pre ++ [x]) ++ suf := by simp
      rw [this, newest_append_of_le hge, newest_append_of_le hge]
    rw [e]
    refine ⟨fun a ha => mem_cons_of_mem x (h.sub a ha), h.nodup, ?_, fun a ha hk b hb => ?_⟩
    · rw [length_newest, length_cons]
      rw [length_append] at hlen ⊢
      omega
    · rcases mem_cons.mp ha with rfl | ha
      · rw [newest_append_of_le hge] at hb
        exact (pairwise_cons.mp hxsuf).1 b (mem_of_mem_drop hb)
      · exact h.le a ha hk b hb

/-- A list with `k` items or more loses its first one before the insertion. -/
theorem isNewest_evict_iff (h : IsNewest le k all (newest k (v :: (pre ++ suf))))
    (hge : k ≤ (v :: (pre ++ suf)).length) (htrans : ∀ a b c, le a b → le b c → le a c)
    (hl : (v :: (pre ++ suf)).Pairwise le) (hs : (pre ++ x :: suf).Pairwise le)
    (hnd : (v :: (pre ++ x :: suf)).Nodup) (hx : x ∉ all) :
    IsNewest le k (x :: all) (newest k (pre ++ x :: suf)) ↔
      k < (v :: (pre ++ suf)).length ∨ le v x := by
  rcases Nat.lt_or_ge k (v :: (pre ++ suf)).length with hlt | hle
  · rw [← singleton_append, newest_append_of_le (Nat.le_of_lt_succ hlt)] at h
    exact iff_of_true (h.insert htrans hs (nodup_cons.mp hnd).2 hx) (.inl hlt)
  · rw [newest_of_length_le hle] at h
    have hlen : (pre ++ x :: suf).length = (v :: (pre ++ suf)).length := by simp; omega
    rw [newest_of_length_le (by omega), or_iff_right (by omega)]
    constructor
    · intro h'
      exact h'.le v (mem_cons_of_mem x (h.sub v mem_cons_self))
        (nodup_cons.mp hnd).1 x (mem_insert_place.mpr (.inl rfl))
    · intro hvx
      have hlen' := h.length
      refine ⟨fun a ha => ?_, (nodup_cons.mp hnd).2, by rw [length_cons]; omega,
        fun a ha hka b hb => ?_⟩
      · rcases mem_insert_place.mp ha with rfl | ha
        · exact mem_cons_self
        · exact mem_cons_of_mem _ (h.sub a (mem_cons_of_mem v ha))
      · rcases mem_cons.mp ha with rfl | hall
        · exact absurd (mem_insert_place.mpr (.inl rfl)) hka
        · have hv : ∀ b ∈ pre ++ suf, le v b := (pairwise_cons.mp hl).1
          by_cases hav : a = v
          · subst hav
            rcases mem_insert_place.mp hb with rfl | hb
            · exact hvx
            · exact hv b hb
          · have hout : a ∉ v :: (pre ++ suf) := fun hm =>
              (mem_cons.mp hm).elim hav fun hm => hka (mem_insert_place.mpr (.inr hm))
            rcases mem_insert_place.mp hb with rfl | hb
            · exact htrans a v b (h.le a hall hout v mem_cons_self) hvx
            · exact h.le a hall hout b (mem_cons_of_mem v hb)

end Insert

end BeeLlama
