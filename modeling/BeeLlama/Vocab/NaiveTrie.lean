import Mathlib.Data.List.Infix

/-!
# The trie of the tokenizers (`naive_trie`)

A node has its children by byte. `find` walks from a node along the bytes of a key.

* `find_ofKeys`: in the trie of some keys there is a node for each prefix of a key, and a value for
  each key, which is that of its last insertion.
* `longestPrefix_ofKeys`: `get_longest_prefix` finds the longest prefix that some key begins with;
  this prefix need not be a key.
-/

namespace BeeLlama

open List

/-- `naive_trie`. -/
inductive NaiveTrie where
  | node (hasValue : Bool) (value : Nat) (children : List (UInt8 × NaiveTrie))

namespace NaiveTrie

/-- `naive_trie()`. -/
def empty : NaiveTrie := .node false 0 []

/-- `has_value`. -/
def hasValue : NaiveTrie → Bool
  | .node hasValue _ _ => hasValue

/-- `value`. -/
def value : NaiveTrie → Nat
  | .node _ value _ => value

/-- `children`. -/
def children : NaiveTrie → List (UInt8 × NaiveTrie)
  | .node _ _ children => children

/-- `traverse`. -/
def traverse (t : NaiveTrie) (c : UInt8) : Option NaiveTrie := t.children.lookup c

/-- The node with the child `s` at `c`. -/
def setChild (t : NaiveTrie) (c : UInt8) (s : NaiveTrie) : NaiveTrie :=
  .node t.hasValue t.value ((c, s) :: t.children)

/-- `insert`. -/
def insert (t : NaiveTrie) : List UInt8 → Nat → NaiveTrie
  | [], value => .node true value t.children
  | c :: key, value =>
    match t.traverse c with
    | some s => t.setChild c (insert s key value)
    | none => t.setChild c (insert empty key value)

/-- The length that `get_longest_prefix` returns for the bytes from `offset` on. -/
def longestPrefix (t : NaiveTrie) : List UInt8 → Nat → Nat
  | [], offset => offset
  | c :: key, offset =>
    match t.traverse c with
    | some s => longestPrefix s key (offset + 1)
    | none => offset

/-- The node that a key leads to. -/
def find (t : NaiveTrie) : List UInt8 → Option NaiveTrie
  | [] => some t
  | c :: key => (t.traverse c).bind fun s => find s key

/-- The value at a key. -/
def get (t : NaiveTrie) (key : List UInt8) : Option Nat :=
  (t.find key).bind fun s => if s.hasValue then some s.value else none

variable {t s : NaiveTrie} {c d : UInt8}

@[simp] theorem traverse_setChild :
    (t.setChild c s).traverse d = if d = c then some s else t.traverse d := by
  unfold traverse setChild
  by_cases h : d = c
  · simp [children, h]
  · simp [children, h, lookup_cons, beq_false_of_ne h]

@[simp] theorem traverse_empty : empty.traverse c = none := rfl

@[simp] theorem hasValue_setChild : (t.setChild c s).hasValue = t.hasValue := rfl

@[simp] theorem value_setChild : (t.setChild c s).value = t.value := rfl

theorem insert_cons (t : NaiveTrie) (c : UInt8) (key : List UInt8) (v : Nat) :
    t.insert (c :: key) v = t.setChild c (((t.traverse c).getD empty).insert key v) := by
  rw [insert]
  cases t.traverse c <;> rfl

theorem get_cons (key : List UInt8) :
    t.get (c :: key) = (t.traverse c).bind fun s => s.get key := by
  rw [get, find]
  cases t.traverse c with
  | none => rfl
  | some s => simp [get]

@[simp] theorem get_empty (key : List UInt8) : empty.get key = none := by
  cases key <;> rfl

theorem get_getD_empty (o : Option NaiveTrie) (key : List UInt8) :
    (o.getD empty).get key = o.bind fun s => s.get key := by
  cases o with
  | none => exact get_empty key
  | some s => rfl

/-- An insertion changes the value of its key. -/
theorem get_insert (t : NaiveTrie) (key p : List UInt8) (v : Nat) :
    (t.insert key v).get p = if p = key then some v else t.get p := by
  induction key generalizing t p with
  | nil =>
    cases p with
    | nil => rfl
    | cons d p =>
      rw [get_cons, get_cons, if_neg (by simp)]
      rfl
  | cons c key ih =>
    rw [insert_cons]
    cases p with
    | nil => rw [if_neg (by simp)]; rfl
    | cons d p =>
      rw [get_cons, get_cons, traverse_setChild]
      by_cases h : d = c
      · subst h
        simp only [if_true, Option.bind_some, ih, get_getD_empty, List.cons.injEq, true_and]
      · rw [if_neg h, if_neg (by simp [h])]

theorem isSome_find_cons (p : List UInt8) :
    (t.find (c :: p)).isSome = ((t.traverse c).bind fun s => s.find p).isSome := rfl

/-- An insertion adds the nodes on the way to its key. -/
theorem isSome_find_insert (t : NaiveTrie) (key p : List UInt8) (v : Nat) :
    ((t.insert key v).find p).isSome = true ↔ p <+: key ∨ (t.find p).isSome = true := by
  induction key generalizing t p with
  | nil =>
    cases p with
    | nil => simp [find]
    | cons d p =>
      have : ((t.insert [] v).find (d :: p)) = t.find (d :: p) := rfl
      simp [this]
  | cons c key ih =>
    rw [insert_cons]
    cases p with
    | nil => simp [find]
    | cons d p =>
      rw [isSome_find_cons, isSome_find_cons, traverse_setChild, cons_prefix_cons]
      by_cases h : d = c
      · subst h
        simp only [if_true, Option.bind_some, ih, true_and]
        cases ht : t.traverse d with
        | none =>
          cases p with
          | nil => simp [find]
          | cons => simp [find]
        | some s => simp
      · simp [h]

/-! ## The trie of some keys -/

/-- The keys one after the other. -/
def ofKeys (keys : List (List UInt8 × Nat)) : NaiveTrie :=
  keys.foldl (fun t k => t.insert k.1 k.2) empty

theorem get_foldl_insert (keys : List (List UInt8 × Nat)) (t : NaiveTrie) (p : List UInt8) :
    (keys.foldl (fun t k => t.insert k.1 k.2) t).get p =
      ((keys.reverse.find? fun k => k.1 = p).map Prod.snd).or (t.get p) := by
  induction keys generalizing t with
  | nil => rfl
  | cons k keys ih =>
    rw [foldl_cons, ih, get_insert, reverse_cons, find?_append]
    cases (keys.reverse.find? fun k => k.1 = p) with
    | some => rfl
    | none =>
      by_cases h : p = k.1
      · simp [h]
      · simp [h, Ne.symm h]

/-- The value of a key is that of its last insertion. -/
theorem get_ofKeys (keys : List (List UInt8 × Nat)) (p : List UInt8) :
    (ofKeys keys).get p = (keys.reverse.find? fun k => k.1 = p).map Prod.snd := by
  rw [ofKeys, get_foldl_insert, get_empty, Option.or_none]

theorem isSome_find_foldl_insert (keys : List (List UInt8 × Nat)) (t : NaiveTrie)
    (p : List UInt8) : ((keys.foldl (fun t k => t.insert k.1 k.2) t).find p).isSome = true ↔
      (∃ k ∈ keys, p <+: k.1) ∨ (t.find p).isSome = true := by
  induction keys generalizing t with
  | nil => simp
  | cons k keys ih =>
    rw [foldl_cons, ih, isSome_find_insert]
    simp [or_assoc, or_left_comm]

/-- There is a node for each prefix of a key. -/
theorem isSome_find_ofKeys (keys : List (List UInt8 × Nat)) (p : List UInt8) :
    ((ofKeys keys).find p).isSome = true ↔ p = [] ∨ ∃ k ∈ keys, p <+: k.1 := by
  rw [ofKeys, isSome_find_foldl_insert, or_comm]
  refine or_congr_left ?_
  cases p with
  | nil => simp [find]
  | cons => simp [find]

/-! ## `get_longest_prefix` -/

theorem longestPrefix_offset (t : NaiveTrie) (key : List UInt8) (offset : Nat) :
    t.longestPrefix key offset = offset + t.longestPrefix key 0 := by
  induction key generalizing t offset with
  | nil => rfl
  | cons c key ih =>
    rw [longestPrefix, longestPrefix]
    cases t.traverse c with
    | none => rfl
    | some s =>
      dsimp only
      rw [ih s (offset + 1), ih s (0 + 1)]
      omega

theorem longestPrefix_le (t : NaiveTrie) (key : List UInt8) :
    t.longestPrefix key 0 ≤ key.length := by
  induction key generalizing t with
  | nil => exact le_rfl
  | cons c key ih =>
    rw [longestPrefix, length_cons]
    cases t.traverse c with
    | none => exact Nat.zero_le _
    | some s =>
      dsimp only
      rw [longestPrefix_offset]
      have := ih s
      omega

/-- The walk stops where there is no node for one more byte. -/
theorem isSome_find_take (t : NaiveTrie) (key : List UInt8) {n : Nat} (hn : n ≤ key.length) :
    (t.find (key.take n)).isSome = true ↔ n ≤ t.longestPrefix key 0 := by
  induction key generalizing t n with
  | nil =>
    obtain rfl : n = 0 := by simpa using hn
    simp [find]
  | cons c key ih =>
    cases n with
    | zero => simp [find]
    | succ n =>
      rw [take_succ_cons, isSome_find_cons, longestPrefix]
      cases t.traverse c with
      | none => simp
      | some s =>
        dsimp only [Option.bind_some]
        rw [ih s (by simpa using hn), longestPrefix_offset s key (0 + 1)]
        omega

/-- The longest prefix that some key begins with. -/
theorem le_longestPrefix_ofKeys (keys : List (List UInt8 × Nat)) (rest : List UInt8) {n : Nat}
    (hn : n ≤ rest.length) (h0 : 0 < n) :
    n ≤ (ofKeys keys).longestPrefix rest 0 ↔ ∃ k ∈ keys, rest.take n <+: k.1 := by
  have hne : rest.take n ≠ [] := by
    rw [← length_pos_iff, length_take]
    omega
  rw [← isSome_find_take _ _ hn, isSome_find_ofKeys, or_iff_right hne]

end NaiveTrie
end BeeLlama
