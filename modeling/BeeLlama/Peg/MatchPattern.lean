import BeeLlama.Peg.AhoCorasick

/-!
# The index of a match (`common_aho_corasick::match_pattern`)

`common_trie::insert` numbers the symbol sequences in the order in which they are inserted, and a
state of the automaton has the number of the longest one that ends there.

* `Numbered`: the patterns of a trie are a list of sequences, by their numbers.
* `numbered_trieOfSymbols`: so it is for the trie of different sequences.
* `matchPattern_longest`: a match is the number of the longest pattern that the word of the state
  ends with.
* `feed_spec`, `feed_matchPattern`: the state and the match after a stream of symbols.
-/

namespace BeeLlama.Peg

open Suffix List Trie

/-- The trie of symbol sequences. -/
def trieOfSymbols (seqs : List (List Nat)) : Trie :=
  seqs.foldl (fun t symbols => t.insert symbols) {}

/-- `match_pattern`. -/
def AhoCorasick.matchPattern (ac : AhoCorasick) (s : Nat) : Int := ac.longestPattern.getD s (-1)

namespace Trie

variable {t : Trie}

/-- The patterns of the trie are these sequences, and their numbers the positions. -/
structure Numbered (t : Trie) (seqs : List (List Nat)) : Prop where
  tree : t.Tree
  count : t.nPatterns = seqs.length
  mem : ∀ w, t.HasPattern w → w ∈ seqs
  number : ∀ w v, t.Path w v → 0 ≤ t.patternAt v → seqs[(t.patternAt v).toNat]? = some w

theorem numbered_empty : ({} : Trie).Numbered [] where
  tree := tree_empty
  count := rfl
  mem := fun w ⟨v, hv, hp⟩ => by
    obtain ⟨-, rfl⟩ := path_empty_iff.mp hv
    exact absurd hp (by decide)
  number := fun w v hv hp => by
    obtain ⟨-, rfl⟩ := path_empty_iff.mp hv
    exact absurd hp (by decide)

variable {seqs : List (List Nat)}

/-- A new sequence gets the next number. -/
theorem Numbered.insert (h : t.Numbered seqs) {symbols : List Nat}
    (hnew : symbols ∉ seqs) : (t.insert symbols).Numbered (seqs ++ [symbols]) := by
  obtain ⟨hi, hp⟩ := h.tree.insertPath .nil symbols
  rw [nil_append] at hp
  have hnone : (t.insertPath 0 symbols).1.patternAt (t.insertPath 0 symbols).2 < 0 := by
    by_contra hge
    refine hnew (h.mem _ ((h.tree.hasPattern_insertPath symbols symbols).mp ?_))
    exact ⟨_, hp, not_lt.mp hge⟩
  have hcount : (t.insertPath 0 symbols).1.nPatterns = seqs.length := by
    rw [hi.count, h.count]
  refine ⟨h.tree.insert symbols, ?_, fun w hw => ?_, fun w v hv hpat => ?_⟩
  · rw [insert_eq, if_pos hnone]
    simp [setPattern, hcount]
  · rcases (h.tree.hasPattern_insert symbols w).mp hw with hw | rfl
    · exact mem_append_left _ (h.mem w hw)
    · exact mem_append_right _ mem_cons_self
  · rw [insert_eq, if_pos hnone] at hv hpat ⊢
    rw [path_setPattern_iff] at hv
    rw [patternAt_setPattern (hi.tree.path_lt hp)] at hpat ⊢
    by_cases hvp : v = (t.insertPath 0 symbols).2
    · subst hvp
      rw [if_pos rfl, hcount, Int.toNat_natCast, getElem?_concat_length, hi.tree.path_inj hv hp]
    · rw [if_neg hvp] at hpat ⊢
      obtain ⟨u, hu, hpu⟩ := (h.tree.hasPattern_insertPath symbols w).mp ⟨v, hv, hpat⟩
      obtain rfl := hv.unique (hi.mono w u hu)
      rw [hi.pattern] at hpat ⊢
      have hnum := h.number w v hu hpat
      rw [List.getElem?_append_left (List.getElem?_eq_some_iff.mp hnum).1, hnum]

/-- A sequence that is there already keeps its number. -/
theorem Numbered.insert_mem (h : t.Numbered seqs) {symbols : List Nat}
    (hp : t.HasPattern symbols) : (t.insert symbols).Numbered seqs := by
  obtain ⟨hi, hpath⟩ := h.tree.insertPath .nil symbols
  rw [nil_append] at hpath
  have hsome : ¬ (t.insertPath 0 symbols).1.patternAt (t.insertPath 0 symbols).2 < 0 := by
    obtain ⟨v, hv, hpat⟩ := (h.tree.hasPattern_insertPath symbols symbols).mpr hp
    rw [hpath.unique hv]
    exact not_lt.mpr hpat
  have htree := h.tree.insert symbols
  rw [insert_eq, if_neg hsome] at htree ⊢
  refine ⟨htree, by rw [hi.count, h.count], fun w hw => ?_, fun w v hv hpat => ?_⟩
  · exact h.mem w ((h.tree.hasPattern_insertPath symbols w).mp hw)
  · obtain ⟨u, hu, hpu⟩ := (h.tree.hasPattern_insertPath symbols w).mp ⟨v, hv, hpat⟩
    obtain rfl := hv.unique (hi.mono w u hu)
    rw [hi.pattern]
    exact h.number w v hu hpu

/-- A sequence more among the different ones. -/
theorem eraseDups_concat (seqs : List (List Nat)) (s : List Nat) :
    (seqs ++ [s]).eraseDups = if s ∈ seqs then seqs.eraseDups else seqs.eraseDups ++ [s] := by
  rw [eraseDups_append]
  split <;> simp [List.removeAll, eraseDups_cons, *]

theorem eraseDups_of_nodup (h : seqs.Nodup) : seqs.eraseDups = seqs := by
  induction seqs using List.reverseRecOn with
  | nil => rfl
  | append_singleton seqs s ih =>
    obtain ⟨h1, -, hne⟩ := nodup_append.mp h
    rw [eraseDups_concat, if_neg fun hs => hne s hs s mem_cons_self rfl, ih h1]

/-- The numbers are the positions among the different sequences. -/
theorem numbered_eraseDups (seqs : List (List Nat)) :
    (trieOfSymbols seqs).Numbered seqs.eraseDups := by
  induction seqs using List.reverseRecOn with
  | nil => exact numbered_empty
  | append_singleton seqs s ih =>
    have hmem := (tree_foldl_insert seqs tree_empty).2.2 s
    rw [trieOfSymbols, foldl_append, eraseDups_concat]
    split
    · next hs => exact ih.insert_mem (hmem.mpr (.inr hs))
    · next hs => exact ih.insert fun hs' => hs (mem_eraseDups.mp hs')

theorem numbered_trieOfSymbols (hnodup : seqs.Nodup) : (trieOfSymbols seqs).Numbered seqs := by
  have h := numbered_eraseDups seqs
  rwa [eraseDups_of_nodup hnodup] at h

/-- The words of the trie are the prefixes of the sequences. -/
theorem hasWord_trieOfSymbols_iff {w : List Nat} :
    (trieOfSymbols seqs).HasWord w ↔ w = [] ∨ ∃ s ∈ seqs, w <+: s := by
  refine ((tree_foldl_insert seqs tree_empty).2.1 w).trans (or_congr_left ?_)
  exact ⟨fun ⟨_, h⟩ => (path_empty_iff.mp h).1, fun h => ⟨0, path_empty_iff.mpr ⟨h, rfl⟩⟩⟩

/-- The patterns of the trie are the sequences. -/
theorem hasPattern_trieOfSymbols_iff {w : List Nat} :
    (trieOfSymbols seqs).HasPattern w ↔ w ∈ seqs := by
  refine ((tree_foldl_insert seqs tree_empty).2.2 w).trans (or_iff_right ?_)
  rintro ⟨v, h, hp⟩
  obtain ⟨-, rfl⟩ := path_empty_iff.mp h
  exact absurd hp (by decide)

/-- What is known of a number: it is that of a pattern that the word ends with. -/
def Ends (t : Trie) (w : List Nat) (p : Int) : Prop :=
  ∃ x u, t.Path x u ∧ x <:+ w ∧ t.patternAt u = p

/-- The number is that of the longest pattern that the word ends with. -/
def LongestEnds (t : Trie) (w : List Nat) (p : Int) : Prop :=
  ∃ x u, t.Path x u ∧ Longest t.HasPattern w x ∧ t.patternAt u = p

/-- A pattern at the end of a word that is no pattern is one at the end of the link. -/
theorem longest_of_link {w x y : List Nat} (hn : ¬ t.HasPattern w)
    (hlong : Longest t.HasWord w.tail x) (hy : Longest t.HasPattern x y) :
    Longest t.HasPattern w y := by
  refine ⟨hy.suffix.trans (hlong.suffix.trans (tail_suffix w)), hy.mem, fun z hz hp => ?_⟩
  have htail : z <:+ w.tail := by
    cases w with
    | nil => exact hz
    | cons a w =>
      rcases suffix_cons_iff.mp hz with rfl | hz
      · exact absurd hp hn
      · exact hz
  exact hy.longest z (hlong.longest z htail (hasWord_of_hasPattern hp)) hp

/-- Every number that the loop over the nodes writes is that of the longest pattern at the end of
the word. -/
theorem foldl_matchStep_longest {fail order : List Nat} (h : t.Bfs fail order [])
    (rest : List Nat) (hrest : ∀ v ∈ rest, v ∈ order) {longest : List Int}
    (hlen : longest.length = t.nodes.length)
    (hl : ∀ w v, t.Path w v → 0 ≤ longest.getD v (-1) → t.LongestEnds w (longest.getD v (-1))) :
    ∀ w v, t.Path w v → 0 ≤ (rest.foldl (t.matchStep fail) longest).getD v (-1) →
      t.LongestEnds w ((rest.foldl (t.matchStep fail) longest).getD v (-1)) := by
  induction rest generalizing longest with
  | nil => exact hl
  | cons u rest ih =>
    have hu : u ∈ order ++ [] := by simpa using hrest u mem_cons_self
    refine ih (fun v hv => hrest v (mem_cons_of_mem _ hv))
      ((length_matchStep fail longest u).trans hlen) fun w v hw hp => ?_
    rw [getD_matchStep (hlen ▸ h.bound u hu)] at hp ⊢
    by_cases hvu : v = u
    · subst hvu
      rw [if_pos rfl] at hp ⊢
      by_cases hpat : 0 ≤ t.patternAt v
      · rw [if_pos hpat]
        exact ⟨w, v, hw, .self ⟨v, hw, hpat⟩, rfl⟩
      · rw [if_neg hpat] at hp ⊢
        by_cases hv0 : v = 0
        · rw [if_neg (fun e => e hv0)] at hp
          exact absurd hp (by decide)
        · rw [if_pos hv0] at hp ⊢
          -- the word of the link is a suffix
          obtain ⟨x, hx, hlong⟩ := h.ok v hu w hw
          obtain ⟨y, s, hy, hsuf, he⟩ := hl x _ hx hp
          refine ⟨y, s, hy, longest_of_link (fun ⟨v', hv', hp'⟩ => hpat ?_) hlong hsuf, he⟩
          exact hw.unique hv' ▸ hp'
    · rw [if_neg hvu] at hp ⊢
      exact hl w v hw hp

end Trie

variable {t : Trie}

/-- A match is the number of the longest pattern that the word of the state ends with. -/
theorem AhoCorasick.matchPattern_longest (ht : t.Tree) {w : List Nat} {s : Nat}
    (hw : t.Path w s) (hp : 0 ≤ (ahoCorasick t).matchPattern s) :
    t.LongestEnds w ((ahoCorasick t).matchPattern s) := by
  refine foldl_matchStep_longest (bfs_end ht) _ (fun v hv => hv) length_replicate
    (fun v u _ hneg => ?_) w s hw hp
  have : (List.replicate t.nodes.length (-1 : Int)).getD u (-1) = -1 := by
    rw [getD_eq_getElem?_getD, getElem?_replicate]
    split <;> rfl
  rw [this] at hneg
  exact absurd hneg (by decide)

/-- A match is the number of a pattern that the word of the state ends with. -/
theorem AhoCorasick.matchPattern_spec (ht : t.Tree) {w : List Nat} {s : Nat}
    (hw : t.Path w s) (hp : 0 ≤ (ahoCorasick t).matchPattern s) :
    t.Ends w ((ahoCorasick t).matchPattern s) := by
  obtain ⟨x, u, hx, hlong, e⟩ := matchPattern_longest ht hw hp
  exact ⟨x, u, hx, hlong.suffix, e⟩

theorem Trie.foldl_matchStep_neg {fail : List Nat} {v : Nat} (order : List Nat) :
    ∀ {longest : List Int}, (∀ v, 0 ≤ longest.getD v (-1) ∨ longest.getD v (-1) = -1) →
      0 ≤ (order.foldl (t.matchStep fail) longest).getD v (-1) ∨
        (order.foldl (t.matchStep fail) longest).getD v (-1) = -1 := by
  induction order with
  | nil => exact fun h => h v
  | cons u order ih =>
    refine fun {longest} h => ih fun v => ?_
    by_cases hu : u < longest.length
    · rw [getD_matchStep hu]
      split
      · split
        · next hp => exact .inl hp
        · split
          · exact h _
          · exact .inr rfl
      · exact h v
    · rw [matchStep, set_eq_of_length_le (not_lt.mp hu)]
      exact h v

/-- Without a match the number is `-1`. -/
theorem AhoCorasick.matchPattern_neg {s : Nat}
    (h : ¬ 0 ≤ (ahoCorasick t).matchPattern s) : (ahoCorasick t).matchPattern s = -1 := by
  refine (foldl_matchStep_neg (ahoCorasick t).order fun v => .inr ?_).resolve_left h
  rw [getD_eq_getElem?_getD, getElem?_replicate]
  split <;> rfl

/-! ## Streams of symbols -/

/-- The state after the symbols of a stream. -/
def AhoCorasick.feed (ac : AhoCorasick) (stream : List Nat) : Nat := stream.foldl ac.next 0

theorem AhoCorasick.feed_snoc (ac : AhoCorasick) (stream : List Nat) (ch : Nat) :
    ac.feed (stream ++ [ch]) = ac.next (ac.feed stream) ch := by
  simp [feed]

/-- The state is the node of the longest word of the trie that the stream ends with. -/
theorem AhoCorasick.feed_spec (ht : t.Tree) (stream : List Nat) :
    ∃ z, t.Path z ((ahoCorasick t).feed stream) ∧ Longest t.HasWord stream z := by
  induction stream using List.reverseRecOn with
  | nil => exact ⟨[], .nil, .nil t.prefixClosed⟩
  | append_singleton stream ch ih =>
    obtain ⟨z, hz, hlong⟩ := ih
    obtain ⟨y, hy, hlong'⟩ := next_spec ht hz ch
    rw [feed_snoc]
    exact ⟨y, hy, hlong.snoc t.prefixClosed hlong'⟩

/-- The index of the longest sequence that the stream ends with, or `-1`. -/
def LongestIndex {α : Type} (seqs : List (List α)) (stream : List α) (p : Int) : Prop :=
  (p = -1 ∧ ∀ s ∈ seqs, ¬ s <:+ stream) ∨
    ∃ x, 0 ≤ p ∧ seqs[p.toNat]? = some x ∧ Longest (· ∈ seqs) stream x

/-- `match_pattern` after a stream, for patterns that are numbered by the list. -/
theorem AhoCorasick.feed_matchPattern {seqs : List (List Nat)} (hn : t.Numbered seqs)
    (hp : ∀ w, t.HasPattern w ↔ w ∈ seqs) (stream : List Nat) :
    LongestIndex seqs stream ((ahoCorasick t).matchPattern ((ahoCorasick t).feed stream)) := by
  obtain ⟨z, hz, hlong⟩ := feed_spec hn.tree stream
  by_cases hpos : 0 ≤ (ahoCorasick t).matchPattern ((ahoCorasick t).feed stream)
  · obtain ⟨x, u, hx, hxl, e⟩ := matchPattern_longest hn.tree hz hpos
    have hnum := hn.number x u hx (e ▸ hpos)
    refine .inr ⟨x, hpos, e ▸ hnum, hxl.suffix.trans hlong.suffix, (hp x).mp hxl.mem,
      fun y hy hmem => ?_⟩
    have hpat := (hp y).mpr hmem
    exact hxl.longest y (hlong.longest y hy (hasWord_of_hasPattern hpat)) hpat
  · refine .inl ⟨matchPattern_neg hpos, fun s hs hsuf => hpos ?_⟩
    have hpat := (hp s).mpr hs
    exact of_decide_eq_true ((isTerminal_iff hn.tree hz).mpr
      ⟨s, hpat, hlong.longest s hsuf (hasWord_of_hasPattern hpat)⟩)

end BeeLlama.Peg
