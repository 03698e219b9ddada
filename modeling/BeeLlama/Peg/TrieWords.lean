import BeeLlama.Peg.Trie

/-!
# The words of a trie

A node stands for the symbols on its path from the root.

* `Tree`: every node has one parent, which was created before it.
* `Tree.path_inj`: a node stands for one word.
* `hasWord_trieOf_iff`: the words of the trie are the prefixes of the inserted ones.
* `hasPattern_trieOf_iff`: a pattern ends at the nodes of the inserted words.
-/

namespace BeeLlama.Peg

open List Trie
namespace Trie

/-- The symbols lead from the root to the node. -/
inductive Path (t : Trie) : List Nat → Nat → Prop
  | nil : Path t [] 0
  | snoc {w : List Nat} {u ch v : Nat} (h : Path t w u) (hc : t.child u ch = some v) :
      Path t (w ++ [ch]) v

/-- The index of the pattern that ends at the node. -/
def patternAt (t : Trie) (v : Nat) : Int := (t.nodes.getD v {}).pattern

/-- The nodes are a tree, in the order in which they were created. -/
structure Tree (t : Trie) : Prop where
  pos : 0 < t.nodes.length
  keys : ∀ node ∈ t.nodes, node.children.Pairwise fun a b => a.1 < b.1
  lt : ∀ {u ch v}, t.child u ch = some v → u < v
  bound : ∀ {u ch v}, t.child u ch = some v → v < t.nodes.length
  inj : ∀ {u u' ch ch' v}, t.child u ch = some v → t.child u' ch' = some v → u = u' ∧ ch = ch'
  reached : ∀ v < t.nodes.length, ∃ w, t.Path w v

theorem lookup_cons_ite (a : Nat × Nat) (m : List (Nat × Nat)) (k : Nat) :
    (a :: m).lookup k = if k = a.1 then some a.2 else m.lookup k := by
  rw [lookup_cons]
  by_cases h : k = a.1
  · simp [h]
  · simp [h, beq_eq_false_iff_ne.mpr h]

/-- In a map the entry of a key is what `find` gives. -/
theorem mem_iff_lookup {m : List (Nat × Nat)} (h : m.Pairwise fun a b => a.1 < b.1)
    {k v : Nat} : (k, v) ∈ m ↔ m.lookup k = some v := by
  induction m with
  | nil => simp
  | cons a m ih =>
    obtain ⟨hlt, hrest⟩ := pairwise_cons.mp h
    have hm : (k, v) ∈ m ↔ m.lookup k = some v := ih hrest
    rw [lookup_cons_ite, mem_cons]
    by_cases hk : k = a.1
    · subst hk
      have hnot : (a.1, v) ∉ m := fun hb => lt_irrefl _ (hlt (a.1, v) hb)
      rw [if_pos rfl, Option.some.injEq, or_iff_left hnot]
      exact ⟨fun e => by rw [← e], fun e => by rw [← e]⟩
    · rw [if_neg hk, ← hm]
      exact or_iff_right fun e => hk (congrArg Prod.fst e)

section Path

variable {t : Trie}

theorem Path.unique {w : List Nat} {v v' : Nat} (h : t.Path w v) (h' : t.Path w v') : v = v' := by
  induction h generalizing v' with
  | nil =>
    generalize e : ([] : List Nat) = w at h'
    cases h' with
    | nil => rfl
    | snoc => simp at e
  | @snoc w u ch v h hc ih =>
    generalize e : w ++ [ch] = w' at h'
    cases h' with
    | nil => simp at e
    | snoc h' hc' =>
      obtain ⟨rfl, e2⟩ := append_inj' e rfl
      obtain rfl := singleton_inj.mp e2
      rw [← ih h', hc] at hc'
      exact Option.some.inj hc'

/-- The path of a longer word goes over the node of the word. -/
theorem path_snoc_iff {w : List Nat} {ch v : Nat} :
    t.Path (w ++ [ch]) v ↔ ∃ u, t.Path w u ∧ t.child u ch = some v := by
  constructor
  · intro h
    generalize e : w ++ [ch] = w' at h
    cases h with
    | nil => simp at e
    | snoc h hc =>
      obtain ⟨rfl, e2⟩ := append_inj' e rfl
      obtain rfl := singleton_inj.mp e2
      exact ⟨_, h, hc⟩
  · rintro ⟨u, h, hc⟩
    exact h.snoc hc

theorem path_nil_iff {v : Nat} : t.Path [] v ↔ v = 0 :=
  ⟨fun h => h.unique .nil, fun h => h ▸ .nil⟩

namespace Tree

variable (ht : t.Tree)

include ht

theorem child_ne_zero {u ch v : Nat} (h : t.child u ch = some v) : v ≠ 0 :=
  Nat.ne_of_gt (Nat.zero_lt_of_lt (ht.lt h))

theorem path_lt {w : List Nat} {v : Nat} (h : t.Path w v) : v < t.nodes.length := by
  cases h with
  | nil => exact ht.pos
  | snoc _ hc => exact ht.bound hc

/-- A node stands for one word. -/
theorem path_inj {w w' : List Nat} {v : Nat} (h : t.Path w v) (h' : t.Path w' v) : w = w' := by
  induction h generalizing w' with
  | nil =>
    cases h' with
    | nil => rfl
    | snoc _ hc => exact absurd rfl (ht.child_ne_zero hc)
  | snoc h hc ih =>
    cases h' with
    | nil => exact absurd rfl (ht.child_ne_zero hc)
    | snoc h' hc' =>
      obtain ⟨rfl, rfl⟩ := ht.inj hc hc'
      rw [ih h']

/-- A word is no longer than the number of its node. -/
theorem length_le {w : List Nat} {v : Nat} (h : t.Path w v) : w.length ≤ v := by
  induction h with
  | nil => exact le_rfl
  | snoc _ hc ih =>
    have := ht.lt hc
    simp only [length_append, length_singleton]
    omega

/-- An entry of the children is what `find` gives. -/
theorem mem_children_iff {u ch v : Nat} :
    (ch, v) ∈ (t.nodes.getD u {}).children ↔ t.child u ch = some v := by
  have hkeys : (t.nodes.getD u {}).children.Pairwise fun a b => a.1 < b.1 := by
    rw [getD_eq_getElem?_getD]
    cases e : t.nodes[u]? with
    | none => exact .nil
    | some node => exact ht.keys node (mem_of_getElem? e)
  exact mem_iff_lookup hkeys

end Tree

end Path

/-! ## Insertion -/

theorem lookup_insertKey {key value : Nat} {m : List (Nat × Nat)} (hn : m.lookup key = none)
    (k : Nat) : (insertKey key value m).lookup k = if k = key then some value else m.lookup k := by
  induction m with
  | nil => simp [insertKey, lookup_cons_ite (key, value) [] k]
  | cons a m ih =>
    rw [lookup_cons_ite] at hn
    have hne : key ≠ a.1 := fun e => by simp [e] at hn
    rw [if_neg hne] at hn
    unfold insertKey
    split
    · rw [lookup_cons_ite]
    · rw [lookup_cons_ite, lookup_cons_ite, ih hn]
      by_cases hk : k = a.1
      · rw [if_pos hk, if_neg (fun e => hne (e.symm.trans hk)), if_pos hk]
      · rw [if_neg hk, if_neg hk]

theorem pairwise_insertKey {key value : Nat} {m : List (Nat × Nat)}
    (h : m.Pairwise fun a b => a.1 < b.1) (hn : m.lookup key = none) :
    (insertKey key value m).Pairwise fun a b => a.1 < b.1 := by
  induction m with
  | nil => simp [insertKey]
  | cons a m ih =>
    obtain ⟨hlt, hrest⟩ := pairwise_cons.mp h
    rw [lookup_cons_ite] at hn
    have hne : key ≠ a.1 := fun e => by simp [e] at hn
    rw [if_neg hne] at hn
    unfold insertKey
    split
    · next hka =>
      refine pairwise_cons.mpr ⟨fun b hb => ?_, h⟩
      rcases mem_cons.mp hb with rfl | hb
      · exact hka
      · exact lt_trans hka (hlt b hb)
    · next hka =>
      refine pairwise_cons.mpr ⟨fun b hb => ?_, ih hrest hn⟩
      rcases mem_insertKey hb with rfl | hb
      · exact lt_of_le_of_ne (Nat.le_of_not_lt hka) (Ne.symm hne)
      · exact hlt b hb

theorem getD_set_append {l : List TrieNode} {i : Nat} (hi : i < l.length) (a d : TrieNode)
    (u : Nat) : (l.set i a ++ [d]).getD u d = if u = i then a else l.getD u d := by
  simp only [getD_eq_getElem?_getD, getElem?_append, length_set, getElem?_set, getElem?_singleton]
  by_cases hu : u = i
  · subst hu
    simp [hi]
  · rw [if_neg hu]
    by_cases hl : u < l.length
    · simp [hl, Ne.symm hu]
    · simp only [if_neg hl, getElem?_eq_none (not_lt.mp hl), Option.getD_none]
      split <;> rfl

section Insert

variable {t : Trie}

/-- A new child is the last node. -/
theorem child_insertSymbol {current ch : Nat} (hc : current < t.nodes.length)
    (hn : t.child current ch = none) (u c : Nat) : (t.insertSymbol current ch).1.child u c =
      if u = current ∧ c = ch then some t.nodes.length else t.child u c := by
  unfold insertSymbol
  rw [hn]
  unfold child at hn ⊢
  rw [getD_set_append hc]
  by_cases hu : u = current
  · subst hu
    rw [if_pos rfl, lookup_insertKey hn]
    simp
  · simp [hu]

theorem patternAt_insertSymbol {current ch : Nat} (hc : current < t.nodes.length) (v : Nat) :
    (t.insertSymbol current ch).1.patternAt v = t.patternAt v := by
  unfold insertSymbol
  split
  · rfl
  · unfold patternAt
    rw [getD_set_append hc]
    split
    · next hv => rw [hv]
    · rfl

theorem length_insertSymbol (current ch : Nat) (hn : t.child current ch = none) :
    (t.insertSymbol current ch).1.nodes.length = t.nodes.length + 1 := by
  simp [insertSymbol, hn]

/-- What an insertion does to the words and the patterns: the words that the trie has, those with
the given prefixes, and no pattern. -/
structure Inserted (t t' : Trie) (new : List Nat → Prop) : Prop where
  tree : t'.Tree
  mono : ∀ w v, t.Path w v → t'.Path w v
  path : ∀ w v, t'.Path w v → t.Path w v ∨ new w
  pattern : ∀ v, t'.patternAt v = t.patternAt v
  count : t'.nPatterns = t.nPatterns

theorem Tree.insertSymbol (ht : t.Tree) {x : List Nat} {current : Nat} (hx : t.Path x current)
    (ch : Nat) : Inserted t (t.insertSymbol current ch).1 (fun w => w = x ++ [ch]) ∧
      (t.insertSymbol current ch).1.Path (x ++ [ch]) (t.insertSymbol current ch).2 := by
  cases hn : t.child current ch with
  | some next =>
    have e : t.insertSymbol current ch = (t, next) := by simp [Trie.insertSymbol, hn]
    rw [e]
    exact ⟨⟨ht, fun _ _ h => h, fun _ _ h => .inl h, fun _ => rfl, rfl⟩, hx.snoc hn⟩
  | none =>
    have hc := ht.path_lt hx
    have hlen := length_insertSymbol current ch hn
    have hchild := child_insertSymbol hc hn
    have hnext : (t.insertSymbol current ch).2 = t.nodes.length := by simp [Trie.insertSymbol, hn]
    -- a child is an old one, or it is the new node
    have hcases : ∀ {u c v}, (t.insertSymbol current ch).1.child u c = some v →
        t.child u c = some v ∨ u = current ∧ c = ch ∧ v = t.nodes.length := by
      intro u c v h
      rw [hchild] at h
      split at h
      · next hu => exact .inr ⟨hu.1, hu.2, (Option.some.inj h).symm⟩
      · exact .inl h
    have hmono : ∀ w v, t.Path w v → (t.insertSymbol current ch).1.Path w v := by
      intro w v h
      induction h with
      | nil => exact .nil
      | @snoc w u c v h hv ih =>
        refine ih.snoc ?_
        rw [hchild, if_neg]
        · exact hv
        · rintro ⟨rfl, rfl⟩
          rw [hn] at hv
          cases hv
    have hnew : (t.insertSymbol current ch).1.Path (x ++ [ch]) t.nodes.length := by
      refine (hmono x current hx).snoc ?_
      rw [hchild, if_pos ⟨rfl, rfl⟩]
    have hpath : ∀ w v, (t.insertSymbol current ch).1.Path w v → t.Path w v ∨ w = x ++ [ch] := by
      intro w v h
      induction h with
      | nil => exact .inl .nil
      | @snoc w u c v h hv ih =>
        -- the new node has no children
        have hw : t.Path w u := by
          rcases ih with ih | rfl
          · exact ih
          · have hu := hnew.unique h
            rcases hcases hv with hv | ⟨rfl, -, -⟩
            · rw [← hu, child] at hv
              simp at hv
            · exact absurd hc (by omega)
        rcases hcases hv with hv | ⟨rfl, rfl, -⟩
        · exact .inl (hw.snoc hv)
        · exact .inr (by rw [ht.path_inj hw hx])
    refine ⟨⟨⟨by omega, fun node hnode => ?_, fun {u c v} h => ?_, fun {u c v} h => ?_,
      fun {u u' c c' v} h h' => ?_, fun v hv => ?_⟩, hmono, hpath, patternAt_insertSymbol hc, ?_⟩,
      hnext ▸ hnew⟩
    · simp only [Trie.insertSymbol, hn] at hnode
      rcases mem_append.mp hnode with hnode | hnode
      · rcases mem_or_eq_of_mem_set hnode with hnode | rfl
        · exact ht.keys node hnode
        · refine pairwise_insertKey ?_ hn
          rw [getD_eq_getElem?_getD, getElem?_eq_getElem hc]
          exact ht.keys _ (getElem_mem hc)
      · obtain rfl := mem_singleton.mp hnode
        exact .nil
    · rcases hcases h with h | ⟨rfl, -, rfl⟩
      · exact ht.lt h
      · exact hc
    · rcases hcases h with h | ⟨-, -, rfl⟩
      · have := ht.bound h
        omega
      · omega
    · rcases hcases h with h | ⟨rfl, rfl, rfl⟩
      · rcases hcases h' with h' | ⟨-, -, rfl⟩
        · exact ht.inj h h'
        · exact absurd (ht.bound h) (lt_irrefl _)
      · rcases hcases h' with h' | ⟨rfl, rfl, -⟩
        · exact absurd (ht.bound h') (lt_irrefl _)
        · exact ⟨rfl, rfl⟩
    · rw [hlen] at hv
      rcases Nat.lt_succ_iff_lt_or_eq.mp hv with hv | rfl
      · obtain ⟨w, hw⟩ := ht.reached v hv
        exact ⟨w, hmono w v hw⟩
      · exact ⟨_, hnew⟩
    · simp [Trie.insertSymbol, hn]

theorem Tree.insertPath (ht : t.Tree) {x : List Nat} {current : Nat} (hx : t.Path x current)
    (symbols : List Nat) :
    Inserted t (t.insertPath current symbols).1 (fun w => ∃ p, p <+: symbols ∧ w = x ++ p) ∧
      (t.insertPath current symbols).1.Path (x ++ symbols) (t.insertPath current symbols).2 := by
  induction symbols generalizing t x current with
  | nil =>
    refine ⟨⟨ht, fun _ _ h => h, fun _ _ h => .inl h, fun _ => rfl, rfl⟩, ?_⟩
    rw [append_nil]
    exact hx
  | cons ch symbols ih =>
    obtain ⟨h1, hp1⟩ := ht.insertSymbol hx ch
    obtain ⟨h2, hp2⟩ := ih h1.tree hp1
    rw [append_assoc, singleton_append] at hp2
    refine ⟨⟨h2.tree, fun w v h => h2.mono w v (h1.mono w v h), fun w v h => ?_,
      fun v => (h2.pattern v).trans (h1.pattern v), h2.count.trans h1.count⟩, hp2⟩
    rcases h2.path w v h with h | ⟨p, hp, rfl⟩
    · rcases h1.path w v h with h | rfl
      · exact .inl h
      · exact .inr ⟨[ch], prefix_cons_inj ch |>.mpr nil_prefix, rfl⟩
    · refine .inr ⟨ch :: p, (prefix_cons_inj ch).mpr hp, ?_⟩
      rw [append_assoc, singleton_append]

end Insert

/-- The trie has the word. -/
def HasWord (t : Trie) (w : List Nat) : Prop := ∃ v, t.Path w v

/-- A pattern ends at the node of the word. -/
def HasPattern (t : Trie) (w : List Nat) : Prop := ∃ v, t.Path w v ∧ 0 ≤ t.patternAt v

section Patterns

variable {t : Trie}

/-- The trie with a pattern at the node. -/
def setPattern (t : Trie) (v : Nat) : Trie :=
  { nodes := t.nodes.set v { t.nodes.getD v {} with pattern := t.nPatterns }
    nPatterns := t.nPatterns + 1 }

theorem getD_setPattern (v u : Nat) : (t.setPattern v).nodes.getD u {} =
    if u = v ∧ v < t.nodes.length then { t.nodes.getD v {} with pattern := t.nPatterns }
    else t.nodes.getD u {} := by
  simp only [setPattern, getD_eq_getElem?_getD, getElem?_set]
  by_cases hu : v = u
  · subst hu
    by_cases hv : v < t.nodes.length
    · simp [hv]
    · simp [hv, getElem?_eq_none (not_lt.mp hv)]
  · simp [hu, Ne.symm hu]

theorem child_setPattern (v u ch : Nat) : (t.setPattern v).child u ch = t.child u ch := by
  unfold child
  rw [getD_setPattern]
  split
  · next h => rw [h.1]
  · rfl

theorem patternAt_setPattern {v : Nat} (hv : v < t.nodes.length) (u : Nat) :
    (t.setPattern v).patternAt u = if u = v then (t.nPatterns : Int) else t.patternAt u := by
  unfold patternAt
  rw [getD_setPattern]
  by_cases hu : u = v
  · rw [if_pos ⟨hu, hv⟩, if_pos hu]
  · rw [if_neg fun h => hu h.1, if_neg hu]

theorem path_setPattern_iff {v : Nat} {w : List Nat} {u : Nat} :
    (t.setPattern v).Path w u ↔ t.Path w u := by
  constructor
  · intro h
    induction h with
    | nil => exact .nil
    | snoc h hc ih => exact ih.snoc (child_setPattern _ _ _ ▸ hc)
  · intro h
    induction h with
    | nil => exact .nil
    | snoc h hc ih => exact ih.snoc ((child_setPattern _ _ _).symm ▸ hc)

theorem Tree.setPattern (ht : t.Tree) (v : Nat) : (t.setPattern v).Tree := by
  have hlen : (t.setPattern v).nodes.length = t.nodes.length := by simp [Trie.setPattern]
  have hc := fun u ch => child_setPattern (t := t) v u ch
  refine ⟨hlen ▸ ht.pos, fun node hnode => ?_, fun {u ch w} h => ht.lt (hc u ch ▸ h),
    fun {u ch w} h => hlen ▸ ht.bound (hc u ch ▸ h),
    fun {u u' ch ch' w} h h' => ht.inj (hc u ch ▸ h) (hc u' ch' ▸ h'), fun w hw => ?_⟩
  · rcases mem_or_eq_of_mem_set hnode with hnode | rfl
    · exact ht.keys node hnode
    · change (t.nodes.getD v {}).children.Pairwise _
      rw [getD_eq_getElem?_getD]
      cases e : t.nodes[v]? with
      | none => exact .nil
      | some node => exact ht.keys node (mem_of_getElem? e)
  · obtain ⟨x, hx⟩ := ht.reached w (hlen ▸ hw)
    exact ⟨x, path_setPattern_iff.mpr hx⟩

/-- `common_trie::insert` walks the symbols, and a pattern that is already there stays. -/
theorem insert_eq (symbols : List Nat) : t.insert symbols =
    if (t.insertPath 0 symbols).1.patternAt (t.insertPath 0 symbols).2 < 0 then
      (t.insertPath 0 symbols).1.setPattern (t.insertPath 0 symbols).2
    else (t.insertPath 0 symbols).1 := rfl

theorem Tree.hasWord_insertPath (ht : t.Tree) (symbols w : List Nat) :
    HasWord (t.insertPath 0 symbols).1 w ↔ HasWord t w ∨ w <+: symbols := by
  obtain ⟨h, hp⟩ := ht.insertPath .nil symbols
  constructor
  · rintro ⟨v, hv⟩
    rcases h.path w v hv with hv | ⟨p, hp, rfl⟩
    · exact .inl ⟨v, hv⟩
    · exact .inr hp
  · rintro (⟨v, hv⟩ | ⟨l, rfl⟩)
    · exact ⟨v, h.mono w v hv⟩
    · -- the prefixes of a word of the trie are words
      have hpre : ∀ (l w : List Nat) (v : Nat), (t.insertPath 0 (w ++ l)).1.Path (w ++ l) v →
          HasWord (t.insertPath 0 (w ++ l)).1 w := by
        intro l w
        generalize (t.insertPath 0 (w ++ l)).1 = t'
        induction l using List.reverseRecOn with
        | nil =>
          intro v hv
          rw [append_nil] at hv
          exact ⟨v, hv⟩
        | append_singleton l ch ih =>
          intro v hv
          rw [← append_assoc] at hv
          obtain ⟨u, hu, -⟩ := path_snoc_iff.mp hv
          exact ih u hu
      exact hpre l w _ hp

theorem Tree.insert (ht : t.Tree) (symbols : List Nat) : (t.insert symbols).Tree := by
  have h := (ht.insertPath .nil symbols).1.tree
  rw [insert_eq]
  split
  · exact h.setPattern _
  · exact h

theorem Tree.hasWord_insert (ht : t.Tree) (symbols w : List Nat) :
    HasWord (t.insert symbols) w ↔ HasWord t w ∨ w <+: symbols := by
  rw [← ht.hasWord_insertPath symbols w, insert_eq]
  split
  · exact exists_congr fun v => path_setPattern_iff
  · exact Iff.rfl

/-- The patterns that a trie has are those of its nodes. -/
theorem Tree.patternAt_of_ge (v : Nat) (hv : t.nodes.length ≤ v) : t.patternAt v = -1 := by
  simp [patternAt, hv]

theorem Tree.hasPattern_insertPath (ht : t.Tree) (symbols w : List Nat) :
    HasPattern (t.insertPath 0 symbols).1 w ↔ HasPattern t w := by
  obtain ⟨h, hp⟩ := ht.insertPath .nil symbols
  constructor
  · rintro ⟨v, hv, hpat⟩
    rw [h.pattern] at hpat
    rcases Nat.lt_or_ge v t.nodes.length with hlt | hge
    · obtain ⟨w', hw'⟩ := ht.reached v hlt
      rw [h.tree.path_inj hv (h.mono w' v hw')]
      exact ⟨v, hw', hpat⟩
    · rw [Tree.patternAt_of_ge v hge] at hpat
      omega
  · rintro ⟨v, hv, hpat⟩
    exact ⟨v, h.mono w v hv, (h.pattern v).symm ▸ hpat⟩

theorem Tree.hasPattern_insert (ht : t.Tree) (symbols w : List Nat) :
    HasPattern (t.insert symbols) w ↔ HasPattern t w ∨ w = symbols := by
  obtain ⟨h, hp⟩ := ht.insertPath .nil symbols
  rw [← ht.hasPattern_insertPath symbols w, insert_eq]
  split
  · constructor
    · rintro ⟨v, hv, hpat⟩
      rw [path_setPattern_iff] at hv
      rw [patternAt_setPattern (h.tree.path_lt hp)] at hpat
      split at hpat
      · next hv' =>
        subst hv'
        exact .inr (h.tree.path_inj hv hp)
      · exact .inl ⟨v, hv, hpat⟩
    · rintro (⟨v, hv, hpat⟩ | rfl)
      · refine ⟨v, path_setPattern_iff.mpr hv, ?_⟩
        rw [patternAt_setPattern (h.tree.path_lt hp)]
        split
        · omega
        · exact hpat
      · refine ⟨_, path_setPattern_iff.mpr hp, ?_⟩
        rw [patternAt_setPattern (h.tree.path_lt hp), if_pos rfl]
        omega
  · next hpat =>
    refine ⟨.inl, ?_⟩
    rintro (h | rfl)
    · exact h
    · exact ⟨_, hp, not_lt.mp hpat⟩

end Patterns

/-! ## The trie of a list of words -/

theorem child_empty (u ch : Nat) : ({} : Trie).child u ch = none := by
  unfold child
  match u with
  | 0 => rfl
  | u + 1 => rfl

variable {w : List Nat} {words : List (List UInt8)}

theorem path_empty_iff {v : Nat} : ({} : Trie).Path w v ↔ w = [] ∧ v = 0 := by
  constructor
  · intro h
    cases h with
    | nil => exact ⟨rfl, rfl⟩
    | snoc _ hc =>
      rw [child_empty] at hc
      cases hc
  · rintro ⟨rfl, rfl⟩
    exact .nil

theorem tree_empty : ({} : Trie).Tree where
  pos := Nat.one_pos
  keys := by simp
  lt := fun h => by simp [child_empty] at h
  bound := fun h => by simp [child_empty] at h
  inj := fun h => by simp [child_empty] at h
  reached := fun v hv => ⟨[], by
    obtain rfl : v = 0 := Nat.lt_one_iff.mp hv
    exact .nil⟩

/-- Sequences that are inserted: the words and the patterns of the trie. -/
theorem tree_foldl_insert (seqs : List (List Nat)) {t : Trie} (ht : t.Tree) :
    (seqs.foldl Trie.insert t).Tree ∧
      (∀ w, HasWord (seqs.foldl Trie.insert t) w ↔ HasWord t w ∨ ∃ s ∈ seqs, w <+: s) ∧
      ∀ w, HasPattern (seqs.foldl Trie.insert t) w ↔ HasPattern t w ∨ w ∈ seqs := by
  induction seqs generalizing t with
  | nil => simp [ht]
  | cons s seqs ih =>
    obtain ⟨h1, h2, h3⟩ := ih (ht.insert s)
    refine ⟨h1, fun w => ?_, fun w => ?_⟩
    · rw [foldl_cons, h2, ht.hasWord_insert, or_assoc]
      simp
    · rw [foldl_cons, h3, ht.hasPattern_insert, or_assoc]
      simp

/-- A trie of words: its words and its patterns. -/
theorem tree_foldl (words : List (List UInt8)) {t : Trie} (ht : t.Tree) :
    (words.foldl (fun t w => t.insert (symbolsOf w)) t).Tree ∧
      (∀ w, HasWord (words.foldl (fun t w => t.insert (symbolsOf w)) t) w ↔
        HasWord t w ∨ ∃ d ∈ words, w <+: symbolsOf d) ∧
      ∀ w, HasPattern (words.foldl (fun t w => t.insert (symbolsOf w)) t) w ↔
        HasPattern t w ∨ ∃ d ∈ words, w = symbolsOf d := by
  have h := tree_foldl_insert (words.map symbolsOf) ht
  rw [foldl_map] at h
  simpa [eq_comm] using h

theorem tree_trieOf (words : List (List UInt8)) : (trieOf words).Tree :=
  (tree_foldl words tree_empty).1

/-- The words of the trie are the prefixes of the inserted words. -/
theorem hasWord_trieOf_iff (hne : words ≠ []) :
    HasWord (trieOf words) w ↔ ∃ d ∈ words, w <+: symbolsOf d := by
  refine ((tree_foldl words tree_empty).2.1 w).trans ⟨?_, .inr⟩
  rintro (⟨v, h⟩ | h)
  · obtain ⟨d, hd⟩ := exists_mem_of_ne_nil words hne
    exact ⟨d, hd, (path_empty_iff.mp h).1 ▸ nil_prefix⟩
  · exact h

/-- The patterns of the trie are the inserted words. -/
theorem hasPattern_trieOf_iff : HasPattern (trieOf words) w ↔ ∃ d ∈ words, w = symbolsOf d := by
  refine ((tree_foldl words tree_empty).2.2 w).trans ⟨?_, .inr⟩
  rintro (⟨v, h, hp⟩ | h)
  · obtain ⟨-, rfl⟩ := path_empty_iff.mp h
    exact absurd hp (by decide)
  · exact h

end Trie
end BeeLlama.Peg
