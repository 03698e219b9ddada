import BeeLlama.Peg.Utf8

/-!
# The trie of the delimiters (`common_trie`)

A node has its children by code point, in the order of `std::map`, and the index of the pattern that
ends there.

* `child_trieOf_ne`: no child is the root, so that `check_at` knows whether it has read a symbol.
-/

namespace BeeLlama.Peg

open List

/-- `common_trie::node`. -/
structure TrieNode where
  children : List (Nat × Nat) := []
  pattern : Int := -1
  deriving DecidableEq, Repr

/-- `common_trie`. -/
structure Trie where
  nodes : List TrieNode := [{}]
  nPatterns : Nat := 0
  deriving DecidableEq, Repr

namespace Trie

/-- `nodes[current].children.find(ch)`. -/
def child (t : Trie) (current ch : Nat) : Option Nat :=
  (t.nodes.getD current {}).children.lookup ch

/-- The assignment to a new key of a `std::map`. -/
def insertKey (key value : Nat) : List (Nat × Nat) → List (Nat × Nat)
  | [] => [(key, value)]
  | (k, v) :: m => if key < k then (key, value) :: (k, v) :: m else (k, v) :: insertKey key value m

/-- One symbol of `insert`: the node that it leads to, which is created if there is none. -/
def insertSymbol (t : Trie) (current ch : Nat) : Trie × Nat :=
  match t.child current ch with
  | some next => (t, next)
  | none =>
    let node := t.nodes.getD current {}
    let node := { node with children := insertKey ch t.nodes.length node.children }
    ({ t with nodes := t.nodes.set current node ++ [{}] }, t.nodes.length)

/-- The loop over the symbols. -/
def insertPath : Trie → Nat → List Nat → Trie × Nat
  | t, current, [] => (t, current)
  | t, current, ch :: symbols =>
    let (t, current) := t.insertSymbol current ch
    insertPath t current symbols

/-- `common_trie::insert` for symbols. -/
def insert (t : Trie) (symbols : List Nat) : Trie :=
  let (t, current) := t.insertPath 0 symbols
  let node := t.nodes.getD current {}
  if node.pattern < 0 then
    { nodes := t.nodes.set current { node with pattern := t.nPatterns }
      nPatterns := t.nPatterns + 1 }
  else t

end Trie

/-- The symbols of a word, up to the first byte that begins no code point. -/
def symbolsFrom (word : List UInt8) : Nat → Nat → List Nat
  | 0, _ => []
  | fuel + 1, pos =>
    match parseUtf8 word pos with
    | .success ch k => ch :: symbolsFrom word fuel (pos + k)
    | _ => []

/-- The symbols that `common_trie::insert` reads from a word. -/
def symbolsOf (word : List UInt8) : List Nat := symbolsFrom word word.length 0

/-- The constructor of `common_trie` for words. -/
def trieOf (words : List (List UInt8)) : Trie :=
  words.foldl (fun t w => t.insert (symbolsOf w)) {}

/-- `common_trie::match_result`. -/
inductive MatchResult where
  | noMatch
  | partialMatch
  | completeMatch
  deriving DecidableEq, Repr

namespace Trie

/-- The loop of `check_at`. -/
def checkLoop (t : Trie) (sv : List UInt8) : Nat → Nat → Nat → MatchResult
  | 0, _, current => if current ≠ 0 then .partialMatch else .noMatch
  | fuel + 1, pos, current =>
    match parseUtf8 sv pos with
    | .success ch k =>
      match t.child current ch with
      | none => .noMatch
      | some next =>
        if 0 ≤ (t.nodes.getD next {}).pattern then .completeMatch
        else checkLoop t sv fuel (pos + k) next
    | _ => if current ≠ 0 then .partialMatch else .noMatch

/-- `common_trie::check_at`: a delimiter begins at the position, or the input ends inside of one. -/
def checkAt (t : Trie) (sv : List UInt8) (startPos : Nat) : MatchResult :=
  checkLoop t sv (sv.length - startPos) startPos 0

end Trie

/-! ## The root is no child -/

namespace Trie

/-- There is a root, and it is no child. -/
structure Rooted (t : Trie) : Prop where
  pos : 0 < t.nodes.length
  ne : ∀ node ∈ t.nodes, ∀ c ∈ node.children, c.2 ≠ 0

variable {t : Trie}

theorem mem_insertKey {key value : Nat} {m : List (Nat × Nat)} {c : Nat × Nat}
    (h : c ∈ insertKey key value m) : c = (key, value) ∨ c ∈ m := by
  induction m with
  | nil => simpa [insertKey] using h
  | cons a m ih =>
    unfold insertKey at h
    split at h
    · simpa using h
    · rcases mem_cons.mp h with rfl | h
      · exact .inr mem_cons_self
      · exact (ih h).imp id (mem_cons_of_mem _)

theorem Rooted.getD (h : t.Rooted) (i : Nat) : ∀ c ∈ (t.nodes.getD i {}).children, c.2 ≠ 0 := by
  rw [getD_eq_getElem?_getD]
  cases e : t.nodes[i]? with
  | none => simp
  | some node => exact h.ne node (mem_of_getElem? e)

theorem Rooted.child (h : t.Rooted) {current ch next : Nat} (e : t.child current ch = some next) :
    next ≠ 0 := by
  obtain ⟨l1, l2, hl, -⟩ := List.lookup_eq_some_iff.mp e
  exact h.getD current (ch, next) (hl ▸ mem_append_right l1 mem_cons_self)

theorem Rooted.insertSymbol (h : t.Rooted) (current ch : Nat) :
    (t.insertSymbol current ch).1.Rooted := by
  unfold Trie.insertSymbol
  split
  · exact h
  · refine ⟨by simp, fun node hnode => ?_⟩
    rcases mem_append.mp hnode with hnode | hnode
    · rcases mem_or_eq_of_mem_set hnode with hnode | rfl
      · exact h.ne node hnode
      · intro c hc
        rcases mem_insertKey hc with rfl | hc
        · exact Nat.pos_iff_ne_zero.mp h.pos
        · exact h.getD current c hc
    · obtain rfl := mem_singleton.mp hnode
      simp

theorem Rooted.insertPath (h : t.Rooted) (current : Nat) (symbols : List Nat) :
    (t.insertPath current symbols).1.Rooted := by
  induction symbols generalizing t current with
  | nil => exact h
  | cons ch symbols ih => exact ih (h.insertSymbol current ch) _

theorem Rooted.insert (h : t.Rooted) (symbols : List Nat) : (t.insert symbols).Rooted := by
  have hp := h.insertPath 0 symbols
  unfold Trie.insert
  dsimp only
  split
  · refine ⟨by simpa using hp.pos, fun node hnode => ?_⟩
    rcases mem_or_eq_of_mem_set hnode with hnode | rfl
    · exact hp.ne node hnode
    · exact hp.getD _
  · exact hp

theorem rooted_trieOf (words : List (List UInt8)) : (trieOf words).Rooted := by
  have hfold : ∀ (words : List (List UInt8)) (t : Trie), t.Rooted →
      (words.foldl (fun t w => t.insert (symbolsOf w)) t).Rooted := by
    intro words
    induction words with
    | nil => exact fun t h => h
    | cons w words ih => exact fun t h => ih _ (h.insert _)
  exact hfold words {} ⟨Nat.one_pos, by simp⟩

end Trie

end BeeLlama.Peg
