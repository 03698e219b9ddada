import BeeLlama.Lib.Suffix
import BeeLlama.Peg.TrieWords

/-!
# The automaton of the delimiters (`common_aho_corasick`)

The failure link of a node leads to the longest word of the trie that is a proper suffix of the word
of the node. The links are made in breadth-first order, so that those of shorter words are there.

* `FailOk`: what a failure link is.
* `goto_spec`: the failure links lead to the longest suffix after one more character.
* `Bfs.step`: one round of the breadth-first loop.
* `AhoCorasick.next_spec`, `AhoCorasick.isTerminal_iff`: what the automaton does.
-/

namespace BeeLlama.Peg

open Suffix List Trie

/-- `common_aho_corasick`. -/
structure AhoCorasick where
  t : Trie
  fail : List Nat
  order : List Nat
  longestPattern : List Int
  alphabet : List Nat
  deriving DecidableEq, Repr

namespace Trie

/-- `while (f && nodes[f].children.find(ch) == nodes[f].children.end()) f = fail[f]`. -/
def fallback (t : Trie) (fail : List Nat) (ch : Nat) : Nat → Nat → Nat
  | 0, f => f
  | fuel + 1, f =>
    if f ≠ 0 ∧ t.child f ch = none then fallback t fail ch fuel (fail.getD f 0) else f

/-- One child of the loop over the queue: its failure link, and the child at the end of the
queue. -/
def linkChild (t : Trie) (u : Nat) (s : List Nat × List Nat) (c : Nat × Nat) :
    List Nat × List Nat :=
  let fail :=
    if u ≠ 0 then
      let f := fallback t s.1 c.1 t.nodes.length (s.1.getD u 0)
      s.1.set c.2 (match t.child f c.1 with
        | some v => if v ≠ c.2 then v else 0
        | none => 0)
    else s.1
  (fail, s.2 ++ [c.2])

/-- The loop over the queue: the failure links and the order. -/
def bfs (t : Trie) : Nat → List Nat → List Nat → List Nat → List Nat × List Nat
  | 0, fail, order, _ => (fail, order)
  | _ + 1, fail, order, [] => (fail, order)
  | fuel + 1, fail, order, u :: queue =>
    let s := (t.nodes.getD u {}).children.foldl (t.linkChild u) (fail, queue)
    bfs t fuel s.1 (order ++ [u]) s.2

/-- The longest pattern that ends at a node, in the order of the nodes. -/
def matchStep (t : Trie) (fail : List Nat) (longest : List Int) (u : Nat) : List Int :=
  longest.set u (if 0 ≤ t.patternAt u then t.patternAt u
    else if u ≠ 0 then longest.getD (fail.getD u 0) (-1) else -1)

/-- `std::set::insert`. -/
def insertSymbolSet (ch : Nat) : List Nat → List Nat
  | [] => [ch]
  | c :: cs =>
    if ch < c then ch :: c :: cs else if ch = c then c :: cs else c :: insertSymbolSet ch cs

end Trie

/-- The constructor of `common_aho_corasick`. -/
def ahoCorasick (t : Trie) : AhoCorasick :=
  let n := t.nodes.length
  let links := t.bfs n (List.replicate n 0) [] [0]
  { t
    fail := links.1
    order := links.2
    longestPattern := links.2.foldl (t.matchStep links.1) (List.replicate n (-1))
    alphabet := (t.nodes.flatMap fun node => node.children.map Prod.fst).foldl
      (fun cs ch => Trie.insertSymbolSet ch cs) [] }

namespace AhoCorasick

/-- `num_states`. -/
def numStates (ac : AhoCorasick) : Nat := ac.t.nodes.length

/-- `is_terminal`. -/
def isTerminal (ac : AhoCorasick) (s : Nat) : Bool := 0 ≤ ac.longestPattern.getD s (-1)

/-- `next`. -/
def next (ac : AhoCorasick) (state ch : Nat) : Nat :=
  (ac.t.child (ac.t.fallback ac.fail ch ac.t.nodes.length state) ch).getD 0

end AhoCorasick

/-! ## The failure links -/

namespace Trie

variable {t : Trie}

theorem prefixClosed (t : Trie) : PrefixClosed t.HasWord where
  nil := ⟨0, .nil⟩
  init := fun _ _ ⟨_, h⟩ => by
    obtain ⟨u, hu, -⟩ := path_snoc_iff.mp h
    exact ⟨u, hu⟩

/-- The link leads to the longest proper suffix of the word of the node. -/
def FailOk (t : Trie) (fail : List Nat) (v : Nat) : Prop :=
  ∀ w, t.Path w v → ∃ x, t.Path x (fail.getD v 0) ∧ Longest t.HasWord w.tail x

/-- A word that does not go on with the character. -/
theorem not_hasWord_snoc {y : List Nat} {f ch : Nat} (hy : t.Path y f)
    (hc : t.child f ch = none) : ¬ t.HasWord (y ++ [ch]) := by
  rintro ⟨v, hv⟩
  obtain ⟨u, hu, hc'⟩ := path_snoc_iff.mp hv
  rw [hu.unique hy, hc] at hc'
  cases hc'

/-- The loop of the failure links ends at the root or at a node that has a child. -/
theorem goto_stop (ht : t.Tree) {y : List Nat} {f ch : Nat} (hy : t.Path y f)
    (hcond : f = 0 ∨ t.child f ch ≠ none) :
    ∃ z, t.Path z ((t.child f ch).getD 0) ∧ Longest t.HasWord (y ++ [ch]) z := by
  cases hc : t.child f ch with
  | some v => exact ⟨_, hy.snoc hc, .self ⟨v, hy.snoc hc⟩⟩
  | none =>
    have hf0 : f = 0 := hcond.resolve_right fun h => h hc
    subst hf0
    obtain rfl := ht.path_inj hy .nil
    exact ⟨[], .nil, Longest.of_tail (not_hasWord_snoc .nil hc) (.nil t.prefixClosed)⟩

/-- The links of the nodes lead to the longest suffix after one more character. -/
theorem goto_spec (ht : t.Tree) {fail : List Nat} {fuel : Nat} {y : List Nat} {f : Nat}
    (hy : t.Path y f) (hf : ∀ w v, t.Path w v → w.length ≤ y.length → t.FailOk fail v)
    (hl : y.length ≤ fuel) (ch : Nat) :
    ∃ z, t.Path z ((t.child (t.fallback fail ch fuel f) ch).getD 0) ∧
      Longest t.HasWord (y ++ [ch]) z := by
  induction fuel generalizing y f with
  | zero =>
    obtain rfl : y = [] := length_eq_zero_iff.mp (Nat.le_zero.mp hl)
    exact goto_stop ht hy (.inl (path_nil_iff.mp hy))
  | succ fuel ih =>
    unfold fallback
    split
    · next hcond =>
      obtain ⟨hf0, hnone⟩ := hcond
      cases y with
      | nil => exact absurd (path_nil_iff.mp hy) hf0
      | cons a y =>
        obtain ⟨x, hx, hlong⟩ := hf _ f hy le_rfl _ hy
        have hle : x.length ≤ y.length := hlong.suffix.length_le
        obtain ⟨z, hz, hzl⟩ := ih hx (fun w v hw hwl => hf w v hw (by simp; omega))
          (by simp only [length_cons] at hl; omega)
        exact ⟨z, hz, Longest.of_tail (not_hasWord_snoc hy hnone) (hlong.snoc t.prefixClosed hzl)⟩
    · next hcond =>
      refine goto_stop ht hy ?_
      by_contra h
      exact hcond ⟨fun h0 => h (.inl h0), by_contra fun hc => h (.inr hc)⟩

/-! ## The loop over the queue -/

/-- No word of the first node is longer than one of the second. -/
def NotDeeper (t : Trie) (u v : Nat) : Prop :=
  ∀ x y, t.Path x u → t.Path y v → x.length ≤ y.length

/-- The state of the loop: the nodes in the order and the queue are those of the shortest words, and
they have their links. -/
structure Bfs (t : Trie) (fail order queue : List Nat) : Prop where
  root : 0 ∈ order ++ queue
  bound : ∀ v ∈ order ++ queue, v < t.nodes.length
  closed : ∀ u ∈ order, ∀ ch v, t.child u ch = some v → v ∈ order ++ queue
  parent : ∀ v ∈ order ++ queue, v ≠ 0 → ∃ u ∈ order, ∃ ch, t.child u ch = some v
  nodup : (order ++ queue).Nodup
  sorted : (order ++ queue).Pairwise t.NotDeeper
  near : ∀ u rest, queue = u :: rest → ∀ v ∈ rest, ∀ x y, t.Path x u → t.Path y v →
    y.length ≤ x.length + 1
  length : fail.length = t.nodes.length
  ok : ∀ v ∈ order ++ queue, t.FailOk fail v
  fresh : ∀ v, v ∉ order ++ queue → fail.getD v 0 = 0

section Bfs

variable {fail order queue : List Nat}

variable {u : Nat} {v : Nat}

/-- All nodes that are no deeper than the first one of the queue are there. -/
theorem Bfs.mem_of_le (ht : t.Tree) {rest : List Nat}
    (h : t.Bfs fail order (u :: rest)) {x : List Nat} (hx : t.Path x u) {w : List Nat}
    (hw : t.Path w v) (hle : w.length ≤ x.length) :
    v ∈ order ++ u :: rest := by
  induction w using List.reverseRecOn generalizing v with
  | nil => exact path_nil_iff.mp hw ▸ h.root
  | append_singleton w ch ih =>
    obtain ⟨p, hp, hc⟩ := path_snoc_iff.mp hw
    rw [length_append, length_singleton] at hle
    rcases mem_append.mp (ih hp (by omega)) with hmem | hmem
    · exact h.closed p hmem ch v hc
    · -- the parent is no deeper than the first node of the queue
      have hsorted := (pairwise_append.mp h.sorted).2.1
      have hnot : x.length ≤ w.length := by
        rcases mem_cons.mp hmem with rfl | hmem
        · exact (ht.path_inj hx hp ▸ le_refl x.length)
        · exact (pairwise_cons.mp hsorted).1 p hmem x w hx hp
      omega

theorem failOk_congr {fail fail' : List Nat} (h : t.FailOk fail v)
    (e : fail'.getD v 0 = fail.getD v 0) : t.FailOk fail' v := fun w hw => by
  rw [e]
  exact h w hw

/-- The link of a child, if the links of the nodes that are no deeper than its parent are there. -/
theorem failOk_linkChild (ht : t.Tree) {u ch v : Nat} {x : List Nat} (hx : t.Path x u)
    (hc : t.child u ch = some v) {fail queue : List Nat} (hlen : fail.length = t.nodes.length)
    (hok : ∀ w v, t.Path w v → w.length ≤ x.length → t.FailOk fail v)
    (hfresh : u = 0 → fail.getD v 0 = 0) :
    t.FailOk (t.linkChild u (fail, queue) (ch, v)).1 v := by
  have hv : t.Path (x ++ [ch]) v := hx.snoc hc
  intro w hw
  obtain rfl := ht.path_inj hw hv
  unfold linkChild
  by_cases hu : u = 0
  · subst hu
    obtain rfl := ht.path_inj hx .nil
    simp only [ne_eq, not_true_eq_false, if_false, hfresh rfl]
    exact ⟨[], .nil, .nil t.prefixClosed⟩
  · cases x with
    | nil => exact absurd (path_nil_iff.mp hx) hu
    | cons a x =>
      obtain ⟨y, hy, hlong⟩ := hok _ u hx le_rfl _ hx
      have hle : y.length ≤ x.length := hlong.suffix.length_le
      have hylen := ht.length_le hy
      have hybound := ht.path_lt hy
      obtain ⟨z, hz, hzl⟩ := goto_spec ht hy
        (fun w v hw hwl => hok w v hw (by simp only [length_cons]; omega))
        (show y.length ≤ t.nodes.length by omega) ch
      refine ⟨z, ?_, hlong.snoc t.prefixClosed hzl⟩
      have hvlt : v < fail.length := hlen ▸ ht.path_lt hv
      -- the link is shorter than the word, so it is not the child itself
      have hne : (t.child (t.fallback fail ch t.nodes.length (fail.getD u 0)) ch).getD 0 ≠ v := by
        rintro e
        rw [e] at hz
        obtain rfl := ht.path_inj hz hv
        have hlz := hzl.suffix.length_le
        simp only [length_append, length_cons] at hlz
        omega
      simp only [ne_eq, hu, not_false_eq_true, if_true, getD_eq_getElem?_getD,
        getElem?_set_self hvlt, Option.getD_some]
      rw [← getD_eq_getElem?_getD]
      cases hchild : t.child (t.fallback fail ch t.nodes.length (fail.getD u 0)) ch with
      | some v' =>
        rw [hchild] at hz hne
        dsimp only
        rw [if_pos (show ¬ v' = v from hne)]
        exact hz
      | none =>
        rw [hchild] at hz
        exact hz

/-- One child changes no other link. -/
theorem getD_linkChild {fail queue : List Nat} {c : Nat × Nat} (hv : v ≠ c.2) :
    (t.linkChild u (fail, queue) c).1.getD v 0 = fail.getD v 0 := by
  unfold linkChild
  split
  · rw [getD_eq_getElem?_getD, getElem?_set_ne (Ne.symm hv), ← getD_eq_getElem?_getD]
  · rfl

theorem length_linkChild {fail queue : List Nat} {c : Nat × Nat} :
    (t.linkChild u (fail, queue) c).1.length = fail.length := by
  unfold linkChild
  split
  · exact length_set
  · rfl

/-- The children of a node get their links, one after the other. -/
theorem foldl_linkChild (ht : t.Tree) {u : Nat} {x : List Nat} (hx : t.Path x u)
    (cs : List (Nat × Nat)) (hcs : ∀ c ∈ cs, t.child u c.1 = some c.2)
    (hnodup : (cs.map Prod.snd).Nodup) {fail queue : List Nat}
    (hlen : fail.length = t.nodes.length)
    (hok : ∀ w v, t.Path w v → w.length ≤ x.length → t.FailOk fail v)
    (hfresh : ∀ c ∈ cs, fail.getD c.2 0 = 0) :
    let s := cs.foldl (t.linkChild u) (fail, queue)
    s.2 = queue ++ cs.map Prod.snd ∧ s.1.length = t.nodes.length ∧
      (∀ v, v ∉ cs.map Prod.snd → s.1.getD v 0 = fail.getD v 0) ∧
      ∀ v ∈ cs.map Prod.snd, t.FailOk s.1 v := by
  induction cs generalizing fail queue with
  | nil => simp [hlen]
  | cons c cs ih =>
    obtain ⟨hnot, hrest⟩ := nodup_cons.mp hnodup
    have hc := hcs c mem_cons_self
    have hv : t.Path (x ++ [c.1]) c.2 := hx.snoc hc
    have hlen' : (t.linkChild u (fail, queue) c).1.length = t.nodes.length :=
      length_linkChild.trans hlen
    have hok' : ∀ w v, t.Path w v → w.length ≤ x.length →
        t.FailOk (t.linkChild u (fail, queue) c).1 v := by
      intro w v hw hwl
      refine failOk_congr (hok w v hw hwl) (getD_linkChild ?_)
      rintro rfl
      obtain rfl := ht.path_inj hw hv
      simp only [length_append, length_singleton] at hwl
      omega
    obtain ⟨h1, h2, h3, h4⟩ := @ih (fun c' hc' => hcs c' (mem_cons_of_mem c hc')) hrest _
      (t.linkChild u (fail, queue) c).2 hlen' hok' (fun c' hc' => by
        rw [getD_linkChild fun e => hnot (e ▸ mem_map_of_mem hc')]
        exact hfresh c' (mem_cons_of_mem c hc'))
    refine ⟨?_, h2, fun v hvn => ?_, fun v hvm => ?_⟩
    · rw [foldl_cons, h1]
      simp [linkChild]
    · rw [map_cons, mem_cons, not_or] at hvn
      exact (h3 v hvn.2).trans (getD_linkChild hvn.1)
    · rcases mem_cons.mp hvm with rfl | hvm
      · refine failOk_congr ?_ (h3 _ hnot)
        exact failOk_linkChild ht hx hc hlen hok fun _ => hfresh c mem_cons_self
      · exact h4 v hvm

theorem mem_map_children (ht : t.Tree) {u v : Nat} :
    v ∈ (t.nodes.getD u {}).children.map Prod.snd ↔ ∃ ch, t.child u ch = some v := by
  rw [mem_map]
  constructor
  · rintro ⟨c, hc, rfl⟩
    exact ⟨c.1, ht.mem_children_iff.mp hc⟩
  · rintro ⟨ch, hc⟩
    exact ⟨(ch, v), ht.mem_children_iff.mpr hc, rfl⟩

theorem nodup_children (ht : t.Tree) (u : Nat) :
    ((t.nodes.getD u {}).children.map Prod.snd).Nodup := by
  have hkeys : (t.nodes.getD u {}).children.Pairwise fun a b => a.1 < b.1 := by
    rw [getD_eq_getElem?_getD]
    cases e : t.nodes[u]? with
    | none => exact .nil
    | some node => exact ht.keys node (mem_of_getElem? e)
  refine pairwise_map.mpr (hkeys.imp_of_mem fun {a b} ha hb hlt e => ?_)
  have h1 : t.child u a.1 = some a.2 := ht.mem_children_iff.mp ha
  have h2 : t.child u b.1 = some b.2 := ht.mem_children_iff.mp hb
  rw [← e] at h2
  exact absurd (ht.inj h1 h2).2 (Nat.ne_of_lt hlt)

/-- One round of the loop keeps its state. -/
theorem Bfs.step (ht : t.Tree) {u : Nat} (h : t.Bfs fail order (u :: queue)) :
    let s := (t.nodes.getD u {}).children.foldl (t.linkChild u) (fail, queue)
    t.Bfs s.1 (order ++ [u]) s.2 := by
  have hu : u ∈ order ++ u :: queue := mem_append_right _ mem_cons_self
  obtain ⟨x, hx⟩ := ht.reached u (h.bound u hu)
  -- a child is new, since its parent was not in the order
  have hnew : ∀ ch v, t.child u ch = some v → v ∉ order ++ u :: queue := by
    intro ch v hc hv
    obtain ⟨p, hp, ch', hc'⟩ := h.parent v hv (ht.child_ne_zero hc)
    obtain ⟨rfl, -⟩ := ht.inj hc hc'
    exact (nodup_append.mp h.nodup).2.2 u hp u mem_cons_self rfl
  have hok : ∀ w v, t.Path w v → w.length ≤ x.length → t.FailOk fail v := fun w v hw hle =>
    h.ok v (h.mem_of_le ht hx hw hle)
  obtain ⟨h1, h2, h3, h4⟩ := @foldl_linkChild t ht u x hx (t.nodes.getD u {}).children
    (fun c hc => ht.mem_children_iff.mp hc) (nodup_children ht u) fail queue h.length hok
    (fun c hc => h.fresh c.2 (hnew c.1 c.2 (ht.mem_children_iff.mp hc)))
  have hlist : order ++ [u] ++ (queue ++ (t.nodes.getD u {}).children.map Prod.snd) =
      (order ++ u :: queue) ++ (t.nodes.getD u {}).children.map Prod.snd := by simp
  -- the children are one deeper than the node
  have hdepth : ∀ v ∈ (t.nodes.getD u {}).children.map Prod.snd, ∀ y, t.Path y v →
      y.length = x.length + 1 := by
    intro v hv y hy
    obtain ⟨ch, hc⟩ := (mem_map_children ht).mp hv
    rw [ht.path_inj hy (hx.snoc hc)]
    simp
  have hqueue : ∀ v ∈ queue, ∀ y, t.Path y v → x.length ≤ y.length ∧ y.length ≤ x.length + 1 :=
    fun v hv y hy =>
      ⟨(pairwise_cons.mp (pairwise_append.mp h.sorted).2.1).1 v hv x y hx hy,
      h.near u queue rfl v hv x y hx hy⟩
  refine ⟨?_, ?_, ?_, ?_, ?_, ?_, ?_, h2, ?_, ?_⟩ <;> rw [h1] <;> try rw [hlist]
  · exact mem_append_left _ h.root
  · intro v hv
    rcases mem_append.mp hv with hv | hv
    · exact h.bound v hv
    · obtain ⟨ch, hc⟩ := (mem_map_children ht).mp hv
      exact ht.bound hc
  · intro p hp ch v hc
    rcases mem_append.mp hp with hp | hp
    · exact mem_append_left _ (h.closed p hp ch v hc)
    · rw [mem_singleton.mp hp] at hc
      exact mem_append_right _ ((mem_map_children ht).mpr ⟨ch, hc⟩)
  · intro v hv hv0
    rcases mem_append.mp hv with hv | hv
    · obtain ⟨p, hp, hc⟩ := h.parent v hv hv0
      exact ⟨p, mem_append_left _ hp, hc⟩
    · exact ⟨u, mem_append_right _ (mem_singleton_self u), (mem_map_children ht).mp hv⟩
  · refine nodup_append.mpr ⟨h.nodup, nodup_children ht u, fun a ha b hb => ?_⟩
    rintro rfl
    obtain ⟨ch, hc⟩ := (mem_map_children ht).mp hb
    exact hnew ch a hc ha
  · refine pairwise_append.mpr ⟨h.sorted, ?_, fun a ha b hb y z hy hz => ?_⟩
    · exact pairwise_of_forall_mem_list fun a ha b hb y z hy hz => by
        rw [hdepth a ha y hy, hdepth b hb z hz]
    · rw [hdepth b hb z hz]
      have hle : y.length ≤ x.length + 1 := by
        rcases mem_append.mp ha with ha | ha
        · have := (pairwise_append.mp h.sorted).2.2 a ha u mem_cons_self y x hy hx
          omega
        · rcases mem_cons.mp ha with rfl | ha
          · rw [ht.path_inj hy hx]
            omega
          · exact (hqueue a ha y hy).2
      exact hle
  · intro u' rest e v hv y z hy hz
    have hmem : ∀ v ∈ u' :: rest, ∀ y, t.Path y v →
        x.length ≤ y.length ∧ y.length ≤ x.length + 1 := by
      rw [← e]
      intro v hv y hy
      rcases mem_append.mp hv with hv | hv
      · exact hqueue v hv y hy
      · rw [hdepth v hv y hy]
        omega
    have := (hmem u' mem_cons_self y hy).1
    have := (hmem v (mem_cons_of_mem u' hv) z hz).2
    omega
  · intro v hv
    rcases mem_append.mp hv with hv | hv
    · refine failOk_congr (h.ok v hv) (h3 v fun hc => ?_)
      obtain ⟨ch, hc⟩ := (mem_map_children ht).mp hc
      exact hnew ch v hc hv
    · exact h4 v hv
  · intro v hv
    rw [mem_append, not_or] at hv
    exact (h3 v hv.2).trans (h.fresh v hv.1)

/-- Before the loop only the root is in the queue. -/
theorem bfs_start (ht : t.Tree) : t.Bfs (List.replicate t.nodes.length 0) [] [0] where
  root := mem_singleton_self 0
  bound := fun v hv => mem_singleton.mp hv ▸ ht.pos
  closed := fun u hu => absurd hu not_mem_nil
  parent := fun v hv h0 => absurd (mem_singleton.mp hv) h0
  nodup := nodup_singleton 0
  sorted := pairwise_singleton _ 0
  near := fun u rest e v hv => by
    cases e
    exact absurd hv not_mem_nil
  length := length_replicate
  ok := fun v hv w hw => by
    obtain rfl := mem_singleton.mp hv
    obtain rfl := ht.path_inj hw .nil
    refine ⟨[], ?_, .nil t.prefixClosed⟩
    rw [getD_eq_getElem?_getD, getElem?_replicate, if_pos ht.pos]
    exact .nil
  fresh := fun v _ => by
    rw [getD_eq_getElem?_getD, getElem?_replicate]
    split <;> rfl

/-- The fuel is enough for the loop, which ends with an empty queue. -/
theorem Bfs.run (ht : t.Tree) {fuel : Nat} (h : t.Bfs fail order queue)
    (hf : t.nodes.length ≤ order.length + fuel) :
    t.Bfs (t.bfs fuel fail order queue).1 (t.bfs fuel fail order queue).2 [] := by
  induction fuel generalizing fail order queue with
  | zero =>
    -- all nodes are in the order
    have hle : (order ++ queue).length ≤ t.nodes.length := by
      have hsub : order ++ queue ⊆ List.range t.nodes.length := fun v hv =>
        mem_range.mpr (h.bound v hv)
      simpa using (h.nodup.subperm hsub).length_le
    have hq : queue = [] := by
      rw [length_append] at hle
      exact length_eq_zero_iff.mp (by omega)
    subst hq
    exact h
  | succ fuel ih =>
    cases queue with
    | nil => exact h
    | cons u queue =>
      refine ih (h.step ht) ?_
      rw [length_append, length_singleton]
      omega

/-- After the loop every node is in the order. -/
theorem Bfs.mem_order (h : t.Bfs fail order []) {w : List Nat} (hw : t.Path w v) : v ∈ order := by
  have hroot := h.root
  rw [append_nil] at hroot
  induction hw with
  | nil => exact hroot
  | @snoc w u ch v hw hc ih =>
    have hv := h.closed u ih ch v hc
    rwa [append_nil] at hv

end Bfs

/-! ## The patterns that end at a node -/

theorem hasWord_of_hasPattern {w : List Nat} (h : t.HasPattern w) : t.HasWord w :=
  h.imp fun _ hv => hv.1

theorem length_matchStep (fail : List Nat) (longest : List Int) (u : Nat) :
    (t.matchStep fail longest u).length = longest.length := by
  simp [matchStep]

theorem getD_matchStep {fail : List Nat} {longest : List Int} {u : Nat} (hu : u < longest.length)
    (v : Nat) : (t.matchStep fail longest u).getD v (-1) =
      if v = u then (if 0 ≤ t.patternAt u then t.patternAt u
        else if u ≠ 0 then longest.getD (fail.getD u 0) (-1) else -1)
      else longest.getD v (-1) := by
  unfold matchStep
  simp only [getD_eq_getElem?_getD, getElem?_set]
  by_cases hv : v = u
  · subst hv
    simp [hu]
  · simp [hv, Ne.symm hv]

/-- At a node of the loop a pattern ends if it is that of the node, or if it ends at its link. -/
theorem foldl_matchStep (ht : t.Tree) {fail order : List Nat} (h : t.Bfs fail order [])
    (rest : List Nat) {done : List Nat} (he : done ++ rest = order) {longest : List Int}
    (hlen : longest.length = t.nodes.length)
    (hdone : ∀ v ∈ done, ∀ w, t.Path w v → (0 ≤ longest.getD v (-1) ↔ EndsIn t.HasPattern w)) :
    ∀ v ∈ order, ∀ w, t.Path w v →
      (0 ≤ (rest.foldl (t.matchStep fail) longest).getD v (-1) ↔ EndsIn t.HasPattern w) := by
  induction rest generalizing done longest with
  | nil =>
    rw [append_nil] at he
    subst he
    exact hdone
  | cons u rest ih =>
    have hmem : ∀ v, v ∈ order ↔ v ∈ order ++ [] := fun v => by simp
    have hu : u ∈ order := he ▸ mem_append_right _ mem_cons_self
    have hlt : u < longest.length := hlen ▸ h.bound u ((hmem u).mp hu)
    refine ih (show (done ++ [u]) ++ rest = order by simpa using he)
      ((length_matchStep fail longest u).trans hlen) fun v hv w hw => ?_
    rw [getD_matchStep hlt]
    by_cases hvu : v = u
    · subst hvu
      rw [if_pos rfl]
      have hpat : t.HasPattern w ↔ 0 ≤ t.patternAt v :=
        ⟨fun ⟨v', hv', hp⟩ => hw.unique hv' ▸ hp, fun hp => ⟨v, hw, hp⟩⟩
      by_cases hp : 0 ≤ t.patternAt v
      · rw [if_pos hp]
        exact ⟨fun _ => ⟨w, hpat.mpr hp, suffix_refl w⟩, fun _ => hp⟩
      · rw [if_neg hp]
        cases w with
        | nil =>
          have hv0 : v = 0 := path_nil_iff.mp hw
          rw [if_neg (fun h => h hv0)]
          refine ⟨fun h => absurd h (by decide), fun ⟨x, hx, hsuf⟩ => ?_⟩
          rw [suffix_nil.mp hsuf, hpat] at hx
          exact absurd hx hp
        | cons a w =>
          have hv0 : v ≠ 0 := fun e => by
            subst e
            exact absurd (ht.path_inj hw .nil) (cons_ne_nil a w)
          rw [if_pos hv0, endsIn_cons, hpat, or_iff_right hp]
          obtain ⟨x, hx, hlong⟩ := h.ok v ((hmem v).mp hu) _ hw
          rw [tail_cons] at hlong
          rw [endsIn_iff (fun y hy => hasWord_of_hasPattern hy) hlong]
          -- the link is shorter, so it was there before
          refine hdone _ ?_ x hx
          have hf := h.mem_order hx
          rw [← he] at hf
          rcases mem_append.mp hf with hf | hf
          · exact hf
          · have hsorted : (v :: rest).Pairwise t.NotDeeper := by
              have := h.sorted
              rw [append_nil, ← he] at this
              exact (pairwise_append.mp this).2.1
            have hle := hlong.suffix.length_le
            have hge : (a :: w).length ≤ x.length := by
              rcases mem_cons.mp hf with hf | hf
              · exact (ht.path_inj (hf ▸ hx) hw) ▸ le_refl _
              · exact (pairwise_cons.mp hsorted).1 _ hf _ _ hw hx
            simp only [length_cons] at hge
            omega
    · rw [if_neg hvu]
      rcases mem_append.mp hv with hv | hv
      · exact hdone v hv w hw
      · exact absurd (mem_singleton.mp hv) hvu

theorem mem_insertSymbolSet {ch c : Nat} {cs : List Nat} :
    c ∈ insertSymbolSet ch cs ↔ c = ch ∨ c ∈ cs := by
  induction cs with
  | nil => simp [insertSymbolSet]
  | cons d cs ih =>
    unfold insertSymbolSet
    split
    · exact mem_cons
    · split
      · next hd => simp [hd]
      · rw [mem_cons, ih, mem_cons]
        exact or_left_comm

theorem mem_foldl_insertSymbolSet {c : Nat} (l : List Nat) (cs : List Nat) :
    c ∈ l.foldl (fun cs ch => insertSymbolSet ch cs) cs ↔ c ∈ cs ∨ c ∈ l := by
  induction l generalizing cs with
  | nil => simp
  | cons ch l ih =>
    rw [foldl_cons, ih, mem_insertSymbolSet, mem_cons, or_assoc]
    exact or_left_comm

theorem pairwise_insertSymbolSet {ch : Nat} {cs : List Nat} (h : cs.Pairwise (· < ·)) :
    (insertSymbolSet ch cs).Pairwise (· < ·) := by
  induction cs with
  | nil => exact pairwise_singleton _ ch
  | cons c cs ih =>
    obtain ⟨hlt, hrest⟩ := pairwise_cons.mp h
    unfold insertSymbolSet
    split
    · next hc =>
      refine pairwise_cons.mpr ⟨fun d hd => ?_, h⟩
      rcases mem_cons.mp hd with rfl | hd
      · exact hc
      · exact lt_trans hc (hlt d hd)
    · split
      · exact h
      · refine pairwise_cons.mpr ⟨fun d hd => ?_, ih hrest⟩
        rcases mem_insertSymbolSet.mp hd with rfl | hd
        · omega
        · exact hlt d hd

theorem pairwise_foldl_insertSymbolSet (l : List Nat) {cs : List Nat} (h : cs.Pairwise (· < ·)) :
    (l.foldl (fun cs ch => insertSymbolSet ch cs) cs).Pairwise (· < ·) := by
  induction l generalizing cs with
  | nil => exact h
  | cons ch l ih => exact ih (pairwise_insertSymbolSet h)

end Trie

/-! ## The automaton -/

namespace AhoCorasick

variable {t : Trie}

theorem bfs_end (ht : t.Tree) : t.Bfs (ahoCorasick t).fail (ahoCorasick t).order [] :=
  (bfs_start ht).run ht (by simp)

/-- `next` keeps the longest word of the trie that the input ends with. -/
theorem next_spec (ht : t.Tree) {w : List Nat} {s : Nat} (hw : t.Path w s) (ch : Nat) :
    ∃ z, t.Path z ((ahoCorasick t).next s ch) ∧ Longest t.HasWord (w ++ [ch]) z := by
  have h := bfs_end ht
  refine goto_spec ht hw (fun x v hx _ => h.ok v (by simpa using h.mem_order hx)) ?_ ch
  have := ht.length_le hw
  have := ht.path_lt hw
  change w.length ≤ t.nodes.length
  omega

/-- A state is terminal if a pattern ends there. -/
theorem isTerminal_iff (ht : t.Tree) {w : List Nat} {s : Nat} (hw : t.Path w s) :
    (ahoCorasick t).isTerminal s = true ↔ EndsIn t.HasPattern w := by
  have h := bfs_end ht
  unfold isTerminal
  rw [decide_eq_true_iff]
  exact foldl_matchStep ht h (ahoCorasick t).order (nil_append _) length_replicate
    (fun v hv => absurd hv not_mem_nil) s (h.mem_order hw) w hw

/-- Every character of a child is in the alphabet. -/
theorem mem_alphabet (ht : t.Tree) {u ch v : Nat} (h : t.child u ch = some v) :
    ch ∈ (ahoCorasick t).alphabet := by
  have hu : u < t.nodes.length := by
    by_contra hge
    simp [child, not_lt.mp hge] at h
  refine (mem_foldl_insertSymbolSet _ _).mpr (.inr ?_)
  refine mem_flatMap.mpr ⟨t.nodes.getD u {}, ?_, ?_⟩
  · rw [getD_eq_getElem?_getD, getElem?_eq_getElem hu]
    exact getElem_mem hu
  · exact mem_map.mpr ⟨(ch, v), ht.mem_children_iff.mpr h, rfl⟩

/-- A character that leads out of the root is in the alphabet. -/
theorem mem_alphabet_of_next (ht : t.Tree) {s ch : Nat} (h : (ahoCorasick t).next s ch ≠ 0) :
    ch ∈ (ahoCorasick t).alphabet := by
  unfold next at h
  cases hc : (ahoCorasick t).t.child
      ((ahoCorasick t).t.fallback (ahoCorasick t).fail ch (ahoCorasick t).t.nodes.length s) ch with
  | some v => exact mem_alphabet ht hc
  | none =>
    rw [hc] at h
    exact absurd rfl h

end AhoCorasick
end BeeLlama.Peg
