import BeeLlama.Lib.GreedyMerge
import Mathlib.Data.List.Sort
import Mathlib.Data.List.MinMax
import Mathlib.Data.Prod.Lex

/-!
# Merging symbols with a work queue

The loop that `llm_tokenizer_spm_session` and `llm_tokenizer_bpe_session` share: symbols in a
doubly linked list, and a priority queue of pairs to merge, of which outdated ones are skipped.

* `MergeRules`: what the two sessions do differently, and `MergeRules.Lawful` what they have in
  common.
* `MergeSession.Step`: one round of the loop, whichever of several best entries is taken.
* `Inv.step`: a round keeps the invariant, and does nothing to the pieces or merges the best pair.
* `start_mergesGreedily`: the loop ends, and its pieces are those of greedy merging.
-/

namespace BeeLlama

open List Option

/-- `llm_symbol`; `none` stands for the index -1, and `text` is an offset. -/
structure LlmSymbol where
  prev : Option Nat
  next : Option Nat
  text : Nat
  n : Nat
  deriving DecidableEq, Repr

/-- The bytes of a symbol. -/
def LlmSymbol.str (text : List UInt8) (s : LlmSymbol) : List UInt8 := (text.drop s.text).take s.n

/-- The entries of a queue: the indices, the comparator (the first argument comes after the
second), the entry for two symbols (the outer `none` stands for a failed assertion), and the
test for an outdated entry. -/
structure MergeRules (ε : Type) where
  left : ε → Nat
  right : ε → Nat
  comparator : ε → ε → Bool
  bigram : List UInt8 → Nat → Nat → LlmSymbol → LlmSymbol → Option (Option ε)
  outdated : List UInt8 → ε → LlmSymbol → LlmSymbol → Bool

structure MergeSession (ε : Type) where
  symbols : List LlmSymbol
  workQueue : List ε
  deriving DecidableEq, Repr

namespace MergeSession

variable {ε : Type}

/-- `try_add_bigram` and `add_new_bigram`; `none` stands for a failed assertion or an index
outside the symbols. -/
def addBigram (R : MergeRules ε) (text : List UInt8) (left right : Option Nat)
    (s : MergeSession ε) : Option (MergeSession ε) :=
  match left, right with
  | some l, some r =>
    match s.symbols[l]?, s.symbols[r]? with
    | some a, some b => (R.bigram text l r a b).map fun
      | some e => { s with workQueue := e :: s.workQueue }
      | none => s
    | _, _ => none
  | _, _ => some s

/-- `symbols[i].prev = p` if `i` is an index. -/
def setPrev (i : Option Nat) (p : Nat) (syms : List LlmSymbol) : Option (List LlmSymbol) :=
  match i with
  | none => some syms
  | some i => syms[i]?.map fun c => syms.set i { c with prev := some p }

/-- The symbols when `r` has been merged into `l`. -/
def relink (l r : Nat) (a b : LlmSymbol) (syms : List LlmSymbol) : Option (List LlmSymbol) :=
  setPrev b.next l ((syms.set l { a with n := a.n + b.n, next := b.next }).set r { b with n := 0 })

/-- The body of the loop for the entry `e` that has been taken from the queue. -/
def process (R : MergeRules ε) (text : List UInt8) (e : ε) (s : MergeSession ε) :
    Option (MergeSession ε) :=
  match s.symbols[R.left e]?, s.symbols[R.right e]? with
  | some a, some b =>
    if a.n = 0 ∨ b.n = 0 ∨ R.outdated text e a b then some s
    else (relink (R.left e) (R.right e) a b s.symbols).bind fun syms =>
      (addBigram R text a.prev (some (R.left e)) { s with symbols := syms }).bind
        (addBigram R text (some (R.left e)) b.next)
  | _, _ => none

/-- One round of the loop. The queue gives an entry than which none is better. -/
inductive Step [DecidableEq ε] (R : MergeRules ε) (text : List UInt8) :
    MergeSession ε → MergeSession ε → Prop where
  | pop {s s' : MergeSession ε} {e : ε} (mem : e ∈ s.workQueue)
      (top : ∀ e' ∈ s.workQueue, R.comparator e e' = false)
      (run : process R text e { s with workQueue := s.workQueue.erase e } = some s') :
      Step R text s s'

/-- The symbols that are not empty, in the order of their indices. -/
def live (s : MergeSession ε) : List Nat :=
  (List.range s.symbols.length).filter fun i => (s.symbols[i]?.map (·.n)).getD 0 ≠ 0

/-- The bytes of symbol `i`. -/
def strAt (text : List UInt8) (syms : List LlmSymbol) (i : Nat) : List UInt8 :=
  (syms[i]?.map (·.str text)).getD []

/-- The bytes of the symbols that are not empty. -/
def pieces (text : List UInt8) (s : MergeSession ε) : List (List UInt8) :=
  s.live.map (strAt text s.symbols)

/-- The indices that the loop `for (int i = ...; i != -1; i = symbols[i].next)` visits in at most
`fuel` rounds. -/
def visit (syms : List LlmSymbol) : Nat → Option Nat → List Nat
  | 0, _ => []
  | _, none => []
  | fuel + 1, some i =>
    match syms[i]? with
    | some s => i :: visit syms fuel s.next
    | none => []

/-- The indices that are visited from the first symbol on. -/
def visited (s : MergeSession ε) : List Nat := visit s.symbols s.symbols.length (some 0)

/-- The loop over the neighbours that fills the queue. -/
def seed (R : MergeRules ε) (text : List UInt8) :
    List Nat → MergeSession ε → Option (MergeSession ε)
  | [], s => some s
  | i :: is, s => (addBigram R text (some i) (some (i + 1)) s).bind (seed R text is)

/-- The session when the loop begins. -/
def start (R : MergeRules ε) (text : List UInt8) (syms : List LlmSymbol) :
    Option (MergeSession ε) :=
  seed R text (List.range (syms.length - 1)) ⟨syms, []⟩

end MergeSession

/-! ## The linked list -/

/-- The symbols `chain` are linked in this order, after `prev`, and cover the text from `off` to
`len`. -/
def Linked (syms : List LlmSymbol) (len : Nat) : Option Nat → Nat → List Nat → Prop
  | _, off, [] => off = len
  | prev, off, i :: rest => ∃ s, syms[i]? = some s ∧ s.prev = prev ∧ s.next = rest.head? ∧
      s.text = off ∧ s.n ≠ 0 ∧ Linked syms len (some i) (off + s.n) rest

namespace Linked

variable {syms syms' : List LlmSymbol} {len off : Nat} {prev : Option Nat} {chain : List Nat}

/-- Only the symbols of the list matter. -/
theorem congr (h : Linked syms len prev off chain)
    (he : ∀ i ∈ chain, syms'[i]? = syms[i]?) : Linked syms' len prev off chain := by
  induction chain generalizing prev off with
  | nil => exact h
  | cons i rest ih =>
    obtain ⟨s, hs, hprev, hnext, htext, hn, hrest⟩ := h
    exact ⟨s, (he i mem_cons_self).trans hs, hprev, hnext, htext, hn,
      ih hrest fun j hj => he j (mem_cons_of_mem _ hj)⟩

theorem le (h : Linked syms len prev off chain) : off ≤ len := by
  induction chain generalizing prev off with
  | nil => exact Nat.le_of_eq h
  | cons i rest ih =>
    obtain ⟨s, -, -, -, -, -, hrest⟩ := h
    have := ih hrest
    omega

/-- The second part of a list. -/
theorem append {pre rest : List Nat} (h : Linked syms len prev off (pre ++ rest)) :
    ∃ off', Linked syms len (pre.getLast?.or prev) off' rest := by
  induction pre generalizing prev off with
  | nil => exact ⟨off, h⟩
  | cons i pre ih =>
    obtain ⟨s, -, -, -, -, -, hrest⟩ := h
    obtain ⟨off', h'⟩ := ih hrest
    refine ⟨off', ?_⟩
    rw [getLast?_cons]
    cases hl : pre.getLast? with
    | none => simpa [hl] using h'
    | some x => simpa [hl] using h'

/-- The symbols cover the rest of the text. -/
theorem flatten {text : List UInt8} (h : Linked syms text.length prev off chain) :
    (chain.map (MergeSession.strAt text syms)).flatten = text.drop off := by
  induction chain generalizing prev off with
  | nil =>
    obtain rfl : off = text.length := h
    simp
  | cons i rest ih =>
    obtain ⟨s, hs, -, -, htext, -, hrest⟩ := h
    rw [map_cons, flatten_cons, ih hrest, MergeSession.strAt, hs, map_some,
      getD_some, LlmSymbol.str, htext, ← drop_drop, take_append_drop]

/-- Following the list visits its symbols in order. -/
theorem visit (h : Linked syms len prev off chain) {fuel : Nat} (hf : chain.length ≤ fuel) :
    MergeSession.visit syms fuel chain.head? = chain := by
  induction chain generalizing prev off fuel with
  | nil => cases fuel <;> rfl
  | cons i rest ih =>
    obtain ⟨s, hs, -, hnext, -, -, hrest⟩ := h
    obtain - | fuel := fuel
    · cases hf
    · rw [head?_cons, MergeSession.visit, hs]
      dsimp only
      rw [hnext, ih hrest (Nat.le_of_succ_le_succ hf)]

/-- A neighbour comes next in the list. -/
theorem split (h : Linked syms len prev off chain) {x y : Nat} {a : LlmSymbol}
    (hx : x ∈ chain) (ha : syms[x]? = some a) (hnext : a.next = some y) :
    ∃ pre post, chain = pre ++ x :: y :: post := by
  obtain ⟨pre, rest, rfl⟩ := append_of_mem hx
  obtain ⟨off', s, hs, -, hn, -⟩ := h.append
  obtain rfl := Option.some.inj (hs.symm.trans ha)
  obtain - | ⟨z, post⟩ := rest
  · rw [hn] at hnext
    cases hnext
  · rw [hn, head?_cons, Option.some.injEq] at hnext
    exact ⟨pre, post, by rw [hnext]⟩

end Linked

/-- The symbols that are not empty are linked in the order of their indices and cover the
text. -/
structure Chained (len : Nat) (chain : List Nat) (syms : List LlmSymbol) : Prop where
  sorted : chain.Pairwise (· < ·)
  linked : Linked syms len none 0 chain
  dead : ∀ i a, syms[i]? = some a → i ∉ chain → a.n = 0

namespace Chained

variable {syms : List LlmSymbol} {len : Nat} {chain : List Nat}

/-- A symbol of the list is there and not empty. -/
theorem get (h : Chained len chain syms) {x : Nat} (hx : x ∈ chain) :
    ∃ a, syms[x]? = some a ∧ a.n ≠ 0 := by
  obtain ⟨pre, rest, rfl⟩ := append_of_mem hx
  obtain ⟨off', s, hs, -, -, -, hn, -⟩ := h.linked.append
  exact ⟨s, hs, hn⟩

theorem mem_iff (h : Chained len chain syms) {x : Nat} {a : LlmSymbol} (ha : syms[x]? = some a) :
    x ∈ chain ↔ a.n ≠ 0 := by
  constructor
  · intro hx
    obtain ⟨a', ha', hn⟩ := h.get hx
    rwa [Option.some.inj (ha.symm.trans ha')]
  · exact fun hn => Classical.byContradiction fun hx => hn (h.dead x a ha hx)

/-- What the next index says. -/
theorem next (h : Chained len chain syms) {x y : Nat} {a : LlmSymbol} (hx : x ∈ chain)
    (ha : syms[x]? = some a) (hnext : a.next = some y) :
    ∃ b, y ∈ chain ∧ syms[y]? = some b ∧ b.prev = some x ∧ a.text + a.n = b.text ∧
      b.text + b.n ≤ len ∧ x < y := by
  obtain ⟨pre, post, rfl⟩ := h.linked.split hx ha hnext
  obtain ⟨off', s, hs, -, -, htext, -, b, hb, hprev, -, hbtext, -, hrest⟩ := h.linked.append
  obtain rfl := Option.some.inj (hs.symm.trans ha)
  have hle := hrest.le
  have hlt := (pairwise_cons.mp (pairwise_append.mp h.sorted).2.1).1 y mem_cons_self
  exact ⟨b, by simp, hb, hprev, by omega, by omega, hlt⟩

/-- What the previous index says. -/
theorem prev (h : Chained len chain syms) {x y : Nat} {b : LlmSymbol} (hy : y ∈ chain)
    (hb : syms[y]? = some b) (hprev : b.prev = some x) :
    ∃ a, x ∈ chain ∧ syms[x]? = some a ∧ a.next = some y := by
  obtain ⟨pre, rest, rfl⟩ := append_of_mem hy
  obtain ⟨off', s, hs, hp, -⟩ := h.linked.append
  obtain rfl := Option.some.inj (hs.symm.trans hb)
  rw [hprev, or_none] at hp
  obtain ⟨pre, rfl⟩ := getLast?_eq_some_iff.mp hp.symm
  have hl := h.linked
  rw [append_assoc] at hl
  obtain ⟨off', a, ha, -, hn, -⟩ := hl.append
  exact ⟨a, by simp, ha, hn⟩

/-- The list has the symbols that are not empty. -/
theorem live_eq {ε : Type} {s : MergeSession ε} (h : Chained len chain s.symbols) :
    s.live = chain := by
  have hlive : s.live.Pairwise (· < ·) := pairwise_lt_range.filter _
  refine hlive.eq_of_mem_iff h.sorted fun i => ?_
  rw [MergeSession.live, mem_filter, mem_range]
  cases ha : s.symbols[i]? with
  | none =>
    have hout := getElem?_eq_none_iff.mp ha
    refine ⟨fun hi => absurd hi.1 (by omega), fun hi => ?_⟩
    obtain ⟨a, ha', -⟩ := h.get hi
    rw [ha] at ha'
    cases ha'
  | some a =>
    have hin := (List.getElem?_eq_some_iff.mp ha).1
    rw [h.mem_iff ha]
    simp [hin]

end Chained

/-! ## Relinking -/

/-- The symbols `syms'` are `syms` with `r` merged into `l`. -/
structure Relinked (l r : Nat) (a b : LlmSymbol) (syms syms' : List LlmSymbol) : Prop where
  length : syms'.length = syms.length
  left : syms'[l]? = some { a with n := a.n + b.n, next := b.next }
  right : syms'[r]? = some { b with n := 0 }
  next : ∀ k c, b.next = some k → syms[k]? = some c → syms'[k]? = some { c with prev := some l }
  rest : ∀ i, i ≠ l → i ≠ r → b.next ≠ some i → syms'[i]? = syms[i]?

section Relink

variable {syms syms' : List LlmSymbol} {l r : Nat} {a b : LlmSymbol}

theorem relink_spec (hl : l < syms.length) (hr : r < syms.length) (hlr : l ≠ r)
    (hnext : ∀ k, b.next = some k → k < syms.length ∧ k ≠ l ∧ k ≠ r) :
    ∃ syms', MergeSession.relink l r a b syms = some syms' ∧ Relinked l r a b syms syms' := by
  rw [MergeSession.relink]
  cases hb : b.next with
  | none =>
    refine ⟨_, rfl, by simp, ?_, ?_, fun k c hk => by simp [hb] at hk, fun i hil hir _ => ?_⟩
    · rw [getElem?_set_ne hlr.symm, getElem?_set_self hl, hb]
    · rw [getElem?_set_self (by simpa using hr), hb]
    · rw [getElem?_set_ne hir.symm, getElem?_set_ne hil.symm]
  | some k =>
    obtain ⟨hk, hkl, hkr⟩ := hnext k hb
    obtain ⟨c, hc⟩ : ∃ c, syms[k]? = some c := ⟨_, getElem?_eq_getElem hk⟩
    rw [MergeSession.setPrev, getElem?_set_ne hkr.symm, getElem?_set_ne hkl.symm, hc]
    refine ⟨_, rfl, by simp, ?_, ?_, fun k' c' hk' hc' => ?_, fun i hil hir hik => ?_⟩
    · rw [getElem?_set_ne hkl, getElem?_set_ne hlr.symm, getElem?_set_self hl, hb]
    · rw [getElem?_set_ne hkr, getElem?_set_self (by simpa using hr), hb]
    · obtain rfl := Option.some.inj (hb.symm.trans hk')
      obtain rfl := Option.some.inj (hc.symm.trans hc')
      rw [getElem?_set_self (by simpa using hk)]
    · have hik : k ≠ i := fun h => hik (by rw [hb, h])
      rw [getElem?_set_ne hik, getElem?_set_ne hir.symm, getElem?_set_ne hil.symm]

/-- A symbol other than these two keeps its bytes and its next index. -/
theorem Relinked.old (h : Relinked l r a b syms syms') {i : Nat} {c' : LlmSymbol} (hil : i ≠ l)
    (hir : i ≠ r) (hc' : syms'[i]? = some c') :
    ∃ c, syms[i]? = some c ∧ c'.text = c.text ∧ c'.n = c.n ∧ c'.next = c.next := by
  by_cases hi : b.next = some i
  · cases hc : syms[i]? with
    | none =>
      have hout := getElem?_eq_none_iff.mp hc
      have hin := (List.getElem?_eq_some_iff.mp hc').1
      have := h.length
      omega
    | some c =>
      have := h.next i c hi hc
      rw [hc', Option.some.injEq] at this
      exact ⟨c, rfl, by rw [this], by rw [this], by rw [this]⟩
  · exact ⟨c', (h.rest i hil hir hi).symm.trans hc', rfl, rfl, rfl⟩

theorem Relinked.strAt (h : Relinked l r a b syms syms') {text : List UInt8} {i : Nat}
    (hil : i ≠ l) (hir : i ≠ r) :
    MergeSession.strAt text syms' i = MergeSession.strAt text syms i := by
  cases hc' : syms'[i]? with
  | none =>
    have hout := getElem?_eq_none_iff.mp hc'
    have hc : syms[i]? = none := getElem?_eq_none_iff.mpr (h.length ▸ hout)
    rw [MergeSession.strAt, MergeSession.strAt, hc', hc]
  | some c' =>
    obtain ⟨c, hc, htext, hn, -⟩ := h.old hil hir hc'
    rw [MergeSession.strAt, MergeSession.strAt, hc', hc]
    simp [LlmSymbol.str, htext, hn]

theorem Linked.relink {len off : Nat} {p : Option Nat} {pre post : List Nat}
    (h : Linked syms len p off (pre ++ l :: r :: post))
    (hnd : (pre ++ l :: r :: post).Nodup) (hre : Relinked l r a b syms syms')
    (ha : syms[l]? = some a) (hb : syms[r]? = some b) (hpost : b.next = post.head?) :
    Linked syms' len p off (pre ++ l :: post) := by
  induction pre generalizing p off with
  | nil =>
    obtain ⟨a', ha', hprev, -, htext, hn, b', hb', -, -, -, -, hrest⟩ := h
    obtain rfl := Option.some.inj (ha'.symm.trans ha)
    obtain rfl := Option.some.inj (hb'.symm.trans hb)
    refine ⟨_, hre.left, hprev, hpost, htext, by dsimp only; omega, ?_⟩
    rw [← Nat.add_assoc]
    obtain - | ⟨k, post⟩ := post
    · exact hrest
    · obtain ⟨c, hc, -, hcnext, hctext, hcn, hcrest⟩ := hrest
      refine ⟨_, hre.next k c hpost hc, rfl, hcnext, hctext, hcn, hcrest.congr fun i hi => ?_⟩
      simp only [nil_append, nodup_cons, mem_cons, not_or] at hnd
      refine hre.rest i ?_ ?_ ?_
      · rintro rfl
        exact hnd.1.2.2 hi
      · rintro rfl
        exact hnd.2.1.2 hi
      · intro hk
        obtain rfl := Option.some.inj (hpost.symm.trans hk)
        exact hnd.2.2.1 hi
  | cons i pre ih =>
    obtain ⟨s, hs, hprev, hnext, htext, hn, hrest⟩ := h
    rw [cons_append] at hnd
    obtain ⟨hi, hnd⟩ := nodup_cons.mp hnd
    simp only [mem_append, mem_cons, not_or] at hi
    refine ⟨s, ?_, hprev, ?_, htext, hn, ih hrest hnd⟩
    · rw [hre.rest i hi.2.1 hi.2.2.1 ?_, hs]
      rw [hpost]
      exact fun hk => hi.2.2.2 (mem_of_mem_head? hk)
    · rw [hnext]
      cases pre <;> rfl

/-- Merging a symbol into the one before it takes it out of the list. -/
theorem Chained.relink {len : Nat} {pre post : List Nat}
    (h : Chained len (pre ++ l :: r :: post) syms) (hre : Relinked l r a b syms syms')
    (ha : syms[l]? = some a) (hb : syms[r]? = some b) (hpost : b.next = post.head?) :
    Chained len (pre ++ l :: post) syms' where
  sorted := by
    refine h.sorted.sublist (List.Sublist.append_left ?_ pre)
    exact List.Sublist.cons_cons l (sublist_cons_self r post)
  linked := h.linked.relink (h.sorted.imp fun hlt => Nat.ne_of_lt hlt) hre ha hb hpost
  dead i c' hc' hi := by
    simp only [mem_append, mem_cons, not_or] at hi
    by_cases hir : i = r
    · subst hir
      obtain rfl := Option.some.inj (hre.right.symm.trans hc')
      rfl
    · obtain ⟨c, hc, -, hn, -⟩ := hre.old hi.2.1 hir hc'
      rw [hn]
      exact h.dead i c hc (by simp [hi, hir])

end Relink

/-! ## The queue -/

section Queue

variable {ε κ : Type} [LinearOrder κ] {R : MergeRules ε} {text : List UInt8} {key : ε → κ}
  {rank : List UInt8 → List UInt8 → Option κ}

/-- What the sessions have in common: an entry has the rank of the two symbols' bytes as its
key, depends on nothing else, and is outdated when its right symbol has grown; the best entry
has the least key, and of several the leftmost. -/
structure MergeRules.Lawful (R : MergeRules ε) (text : List UInt8) (key : ε → κ)
    (rank : List UInt8 → List UInt8 → Option κ) : Prop where
  bigram : ∀ l r a b, a.text + a.n = b.text → b.text + b.n ≤ text.length →
    ∃ o, R.bigram text l r a b = some o ∧ o.map key = rank (a.str text) (b.str text) ∧
      ∀ e, o = some e → R.left e = l ∧ R.right e = r
  congr : ∀ l r a b a' b', a.text = a'.text → a.n = a'.n → b.text = b'.text → b.n = b'.n →
    R.bigram text l r a b = R.bigram text l r a' b'
  outdated : ∀ l r a b e m, a.text + a.n = b.text → b.text + b.n ≤ text.length → m ≤ b.n →
    R.bigram text l r a { b with n := m } = some (some e) →
    (R.outdated text e a b = false ↔ m = b.n)
  comparator : ∀ e e', R.comparator e e' = true ↔
    key e' < key e ∨ key e' = key e ∧ R.left e' < R.left e

/-- The queue has the entries of all neighbours. An entry whose symbols are still there was made
for them, when the right one may have been shorter. -/
structure Queued (R : MergeRules ε) (text : List UInt8) (chain : List Nat)
    (syms : List LlmSymbol) (queue : List ε) : Prop where
  complete : ∀ x a y b e, x ∈ chain → syms[x]? = some a → a.next = some y → syms[y]? = some b →
    R.bigram text x y a b = some (some e) → e ∈ queue
  range : ∀ e ∈ queue, R.left e < syms.length ∧ R.right e < syms.length
  sound : ∀ e ∈ queue, R.left e ∈ chain → R.right e ∈ chain →
    ∃ a b m, syms[R.left e]? = some a ∧ a.next = some (R.right e) ∧
      syms[R.right e]? = some b ∧ m ≤ b.n ∧
      R.bigram text (R.left e) (R.right e) a { b with n := m } = some (some e)

/-- The entry for the symbols `left` and `right`, if there is one, has been added to the
queue. -/
structure Added (R : MergeRules ε) (text : List UInt8) (left right : Option Nat)
    (s s' : MergeSession ε) : Prop where
  symbols : s'.symbols = s.symbols
  length_le : s'.workQueue.length ≤ s.workQueue.length + 1
  old : ∀ e ∈ s.workQueue, e ∈ s'.workQueue
  new : ∀ e ∈ s'.workQueue, e ∈ s.workQueue ∨ left = some (R.left e) ∧ right = some (R.right e) ∧
    ∃ a b, s.symbols[R.left e]? = some a ∧ s.symbols[R.right e]? = some b ∧
      R.bigram text (R.left e) (R.right e) a b = some (some e)
  mem : ∀ l r a b e, left = some l → right = some r → s.symbols[l]? = some a →
    s.symbols[r]? = some b → R.bigram text l r a b = some (some e) → e ∈ s'.workQueue

theorem addBigram_spec (hR : R.Lawful text key rank) (left right : Option Nat)
    (s : MergeSession ε) (h : ∀ l r, left = some l → right = some r → ∃ a b,
      s.symbols[l]? = some a ∧ s.symbols[r]? = some b ∧ a.text + a.n = b.text ∧
      b.text + b.n ≤ text.length) :
    ∃ s', s.addBigram R text left right = some s' ∧ Added R text left right s s' := by
  cases left with
  | none =>
    exact ⟨s, by cases right <;> rfl, rfl, Nat.le_succ _, fun _ he => he, fun _ he => .inl he,
      fun _ _ _ _ _ hl => nomatch hl⟩
  | some l =>
    cases right with
    | none =>
      exact ⟨s, rfl, rfl, Nat.le_succ _, fun _ he => he, fun _ he => .inl he,
        fun _ _ _ _ _ _ hr => nomatch hr⟩
    | some r =>
      obtain ⟨a, b, ha, hb, htext, hlen⟩ := h l r rfl rfl
      obtain ⟨o, ho, -, hind⟩ := hR.bigram l r a b htext hlen
      simp only [MergeSession.addBigram, ha, hb, ho, map_some]
      cases o with
      | none =>
        refine ⟨s, rfl, rfl, Nat.le_succ _, fun _ he => he, fun _ he => .inl he, ?_⟩
        intro l' r' a' b' e hl hr ha' hb' hbigram
        cases hl
        cases hr
        obtain rfl := Option.some.inj (ha.symm.trans ha')
        obtain rfl := Option.some.inj (hb.symm.trans hb')
        rw [ho] at hbigram
        cases hbigram
      | some e0 =>
        refine ⟨_, rfl, rfl, Nat.le_refl _, fun _ he => mem_cons_of_mem _ he, ?_, ?_⟩
        · intro e he
          rcases List.mem_cons.mp he with rfl | he
          · obtain ⟨rfl, rfl⟩ := hind e rfl
            exact .inr ⟨rfl, rfl, a, b, ha, hb, ho⟩
          · exact .inl he
        · intro l' r' a' b' e hl hr ha' hb' hbigram
          cases hl
          cases hr
          obtain rfl := Option.some.inj (ha.symm.trans ha')
          obtain rfl := Option.some.inj (hb.symm.trans hb')
          rw [ho, Option.some.injEq, Option.some.injEq] at hbigram
          exact List.mem_cons.mpr (.inl hbigram.symm)

variable {chain : List Nat} {syms : List LlmSymbol} {queue : List ε} {e : ε}

/-! ## One round -/

/-- The invariant of the loop, for the symbols `chain` that are left. -/
structure Inv (R : MergeRules ε) (text : List UInt8) (chain : List Nat) (s : MergeSession ε) :
    Prop where
  chained : Chained text.length chain s.symbols
  queued : Queued R text chain s.symbols s.workQueue

section Pieces

variable {s : MergeSession ε}

/-- Two places of a list that follow each other. -/
theorem split_of_getElem? {α : Type} {l : List α} {i : Nat} {x y : α} (hx : l[i]? = some x)
    (hy : l[i + 1]? = some y) : ∃ pre post, l = pre ++ x :: y :: post ∧ pre.length = i := by
  obtain ⟨hi, rfl⟩ := List.getElem?_eq_some_iff.mp hx
  obtain ⟨hj, rfl⟩ := List.getElem?_eq_some_iff.mp hy
  refine ⟨l.take i, l.drop (i + 2), ?_, by rw [length_take]; omega⟩
  rw [← drop_eq_getElem_cons, ← drop_eq_getElem_cons, take_append_drop]

/-- Two symbols of the list that follow each other. -/
theorem Chained.pair {len : Nat} {pre post : List Nat} {x y : Nat}
    (h : Chained len (pre ++ x :: y :: post) syms) : ∃ a b, syms[x]? = some a ∧
      a.next = some y ∧ syms[y]? = some b ∧ b.next = post.head? ∧ a.text + a.n = b.text ∧
      b.text + b.n ≤ len := by
  obtain ⟨off', a, ha, -, hn, htext, -, b, hb, -, hbn, hbtext, -, hrest⟩ := h.linked.append
  have := hrest.le
  exact ⟨a, b, ha, hn, hb, hbn, by omega, by omega⟩

/-- The pieces cover the text. -/
theorem Inv.flatten_pieces (h : Inv R text chain s) : (s.pieces text).flatten = text := by
  rw [MergeSession.pieces, h.chained.live_eq, h.chained.linked.flatten, drop_zero]

/-- A pair that has a rank has an entry in the queue. -/
theorem Inv.entry (hR : R.Lawful text key rank) (h : Inv R text chain s) {i : Nat} {k : κ}
    (hk : pairRank rank (s.pieces text) i = some k) :
    ∃ e ∈ s.workQueue, key e = k ∧ chain[i]? = some (R.left e) := by
  rw [MergeSession.pieces, h.chained.live_eq, pairRank, List.getElem?_map, List.getElem?_map] at hk
  cases hx : chain[i]? with
  | none => simp [hx] at hk
  | some x =>
    cases hy : chain[i + 1]? with
    | none => simp [hx, hy] at hk
    | some y =>
      obtain ⟨pre, post, rfl, -⟩ := split_of_getElem? hx hy
      obtain ⟨a, b, ha, hnext, hb, -, htext, hlen⟩ := h.chained.pair
      simp only [hx, hy, map_some, MergeSession.strAt, ha, hb, getD_some] at hk
      obtain ⟨o, ho, hkey, hind⟩ := hR.bigram x y a b htext hlen
      rw [hk] at hkey
      obtain ⟨e, rfl, hek⟩ := map_eq_some_iff.mp hkey
      exact ⟨e, h.queued.complete x a y b e (by simp) ha hnext hb ho, hek,
        by rw [(hind e rfl).1]⟩

/-- The entry on top of the queue, if it is not outdated, is the best pair. -/
theorem Inv.isBest (hR : R.Lawful text key rank) {pre post : List Nat} {l r : Nat}
    {a b : LlmSymbol} (h : Inv R text (pre ++ l :: r :: post) s)
    (htop : ∀ e' ∈ s.workQueue, R.comparator e e' = false) (ha : s.symbols[l]? = some a)
    (hb : s.symbols[r]? = some b) (hbigram : R.bigram text l r a b = some (some e)) :
    IsBest rank (s.pieces text) pre.length (key e) := by
  obtain ⟨a', b', ha', -, hb', -, htext, hlen⟩ := h.chained.pair
  obtain rfl := Option.some.inj (ha.symm.trans ha')
  obtain rfl := Option.some.inj (hb.symm.trans hb')
  obtain ⟨o, ho, hkey, hind⟩ := hR.bigram l r a b htext hlen
  obtain rfl := Option.some.inj (ho.symm.trans hbigram)
  obtain ⟨hleft, -⟩ := hind e rfl
  have hnot : ∀ e' ∈ s.workQueue,
      ¬(key e' < key e ∨ key e' = key e ∧ R.left e' < R.left e) := fun e' he' => by
    rw [← hR.comparator, htop e' he']
    exact Bool.false_ne_true
  refine ⟨?_, fun j k' hk => ?_, fun j hk => ?_⟩
  · rw [MergeSession.pieces, h.chained.live_eq, pairRank]
    simp [MergeSession.strAt, ha, hb, ← hkey]
  · obtain ⟨e', he', rfl, -⟩ := h.entry hR hk
    exact le_of_not_gt fun hlt => hnot e' he' (.inl hlt)
  · obtain ⟨e', he', hk', hj⟩ := h.entry hR hk
    refine le_of_not_gt fun hlt => hnot e' he' (.inr ⟨hk', ?_⟩)
    obtain ⟨hjlt, hj⟩ := List.getElem?_eq_some_iff.mp hj
    have := pairwise_iff_getElem.mp h.chained.sorted j pre.length hjlt (by simp) hlt
    rw [hj] at this
    simpa [hleft] using this

end Pieces

variable [DecidableEq ε]

/-- An entry that is not the one for two neighbours can go. -/
theorem Queued.skip (h : Queued R text chain syms queue)
    (hno : ∀ x a y b, x ∈ chain → syms[x]? = some a → a.next = some y → syms[y]? = some b →
      R.bigram text x y a b ≠ some (some e)) :
    Queued R text chain syms (queue.erase e) where
  complete x a y b e' hx ha hnext hb hbigram := by
    refine (mem_erase_of_ne ?_).mpr (h.complete x a y b e' hx ha hnext hb hbigram)
    rintro rfl
    exact hno x a y b hx ha hnext hb hbigram
  range e' he' := h.range e' (mem_of_mem_erase he')
  sound e' he' := h.sound e' (mem_of_mem_erase he')

section Merge

variable {pre post : List Nat} {l r : Nat} {a b : LlmSymbol} {syms' : List LlmSymbol}
  {s s₁ s₂ : MergeSession ε}

/-- The entries of all neighbours are in the queue when both pairs with a merged symbol have been
added. -/
theorem complete_merge (hR : R.Lawful text key rank)
    (hc : Chained text.length (pre ++ l :: r :: post) syms)
    (h : Queued R text (pre ++ l :: r :: post) syms queue) (hre : Relinked l r a b syms syms')
    (ha : syms[l]? = some a) (hnext : a.next = some r) (hb : syms[r]? = some b)
    (hleft : R.left e = l) (hs : s = ⟨syms', queue.erase e⟩)
    (h₁ : Added R text a.prev (some l) s s₁) (h₂ : Added R text (some l) b.next s₁ s₂)
    {x y : Nat} {c' d' : LlmSymbol} {e' : ε} (hx : x ∈ pre ++ l :: post)
    (hc' : syms'[x]? = some c') (hnext' : c'.next = some y) (hd' : syms'[y]? = some d')
    (hbigram : R.bigram text x y c' d' = some (some e')) : e' ∈ s₂.workQueue := by
  have hsyms : s.symbols = syms' := by rw [hs]
  have hnd : (pre ++ l :: r :: post).Nodup := hc.sorted.imp fun hlt => Nat.ne_of_lt hlt
  have hxr : x ≠ r := by
    rintro rfl
    simp only [nodup_append, nodup_cons, mem_append, mem_cons] at hnd hx
    grind
  have hx : x ∈ pre ++ l :: r :: post := by
    simp only [mem_append, mem_cons] at hx ⊢
    tauto
  by_cases hxl : x = l
  · subst hxl
    obtain rfl := Option.some.inj (hre.left.symm.trans hc')
    exact h₂.mem x y _ d' e' rfl hnext' (by rw [h₁.symbols, hsyms]; exact hre.left)
      (by rw [h₁.symbols, hsyms]; exact hd') hbigram
  · obtain ⟨c, hcx, hctext, hcn, hcnext⟩ := hre.old hxl hxr hc'
    rw [hcnext] at hnext'
    obtain ⟨d, -, hd, hdprev, htext, hlen, -⟩ := hc.next hx hcx hnext'
    by_cases hyl : y = l
    · subst hyl
      obtain rfl := Option.some.inj (ha.symm.trans hd)
      exact h₂.old _ (h₁.mem x y c' d' e' hdprev rfl (by rw [hsyms]; exact hc')
        (by rw [hsyms]; exact hd') hbigram)
    · have hyr : y ≠ r := by
        rintro rfl
        obtain ⟨b', -, hb', hbprev, -⟩ := hc.next (by simp) ha hnext
        obtain rfl := Option.some.inj (hd.symm.trans hb')
        exact hxl (Option.some.inj (hdprev.symm.trans hbprev))
      obtain ⟨d₀, hd0, hdtext, hdn, -⟩ := hre.old hyl hyr hd'
      obtain rfl := Option.some.inj (hd.symm.trans hd0)
      rw [hR.congr x y c' d' c d hctext hcn hdtext hdn] at hbigram
      have hmem := h.complete x c y d e' hx hcx hnext' hd hbigram
      have hne : e' ≠ e := by
        rintro rfl
        obtain ⟨o, ho, -, hind⟩ := hR.bigram x y c d htext hlen
        rw [ho, Option.some.injEq] at hbigram
        exact hxl ((hind e' hbigram).1.symm.trans hleft)
      refine h₂.old _ (h₁.old _ ?_)
      rw [hs]
      exact (mem_erase_of_ne hne).mpr hmem

omit [DecidableEq ε] in
/-- Entries that were in the queue before a merge. -/
theorem sound_merge (hR : R.Lawful text key rank)
    (hc' : Chained text.length (pre ++ l :: post) syms')
    (h : Queued R text (pre ++ l :: r :: post) syms queue) (hre : Relinked l r a b syms syms')
    (ha : syms[l]? = some a) (hnext : a.next = some r) (hr : r ∉ pre ++ l :: post)
    {e' : ε} (he' : e' ∈ queue) (hl' : R.left e' ∈ pre ++ l :: post)
    (hr' : R.right e' ∈ pre ++ l :: post) :
    ∃ a b m, syms'[R.left e']? = some a ∧ a.next = some (R.right e') ∧
      syms'[R.right e']? = some b ∧ m ≤ b.n ∧
      R.bigram text (R.left e') (R.right e') a { b with n := m } = some (some e') := by
  have hmem : ∀ i ∈ pre ++ l :: post, i ∈ pre ++ l :: r :: post := fun i hi => by
    simp only [mem_append, mem_cons] at hi ⊢
    tauto
  obtain ⟨c, d, m, hcx, hcnext, hd, hm, hbigram⟩ := h.sound e' he' (hmem _ hl') (hmem _ hr')
  obtain ⟨c', hcx', -⟩ := hc'.get hl'
  have hll : R.left e' ≠ l := by
    intro heq
    rw [heq] at hcx
    obtain rfl := Option.some.inj (ha.symm.trans hcx)
    rw [Option.some.inj (hcnext.symm.trans hnext)] at hr'
    exact hr hr'
  have hlr : R.left e' ≠ r := fun heq => hr (heq ▸ hl')
  obtain ⟨c0, hc0, hctext, hcn, hcn'⟩ := hre.old hll hlr hcx'
  obtain rfl := Option.some.inj (hcx.symm.trans hc0)
  by_cases hrl : R.right e' = l
  · rw [hrl] at hd
    obtain rfl := Option.some.inj (ha.symm.trans hd)
    refine ⟨c', _, m, hcx', hcn'.trans hcnext, hrl ▸ hre.left, by dsimp only; omega, ?_⟩
    exact (hR.congr _ _ c' { a with n := m, next := b.next } c { a with n := m } hctext hcn rfl
      rfl).trans hbigram
  · obtain ⟨d', hd', -⟩ := hc'.get hr'
    obtain ⟨d₀, hd0, hdtext, hdn, -⟩ := hre.old hrl (fun heq => hr (heq ▸ hr')) hd'
    obtain rfl := Option.some.inj (hd.symm.trans hd0)
    refine ⟨c', d', m, hcx', hcn'.trans hcnext, hd', hdn ▸ hm, ?_⟩
    exact (hR.congr _ _ c' { d' with n := m } c { d with n := m } hctext hcn hdtext rfl).trans
      hbigram

/-- Merging keeps the invariant of the queue. -/
theorem Queued.merge (hR : R.Lawful text key rank)
    (hc : Chained text.length (pre ++ l :: r :: post) syms)
    (hc' : Chained text.length (pre ++ l :: post) syms')
    (h : Queued R text (pre ++ l :: r :: post) syms queue) (hre : Relinked l r a b syms syms')
    (ha : syms[l]? = some a) (hnext : a.next = some r) (hb : syms[r]? = some b)
    (hleft : R.left e = l) (hs : s = ⟨syms', queue.erase e⟩)
    (h₁ : Added R text a.prev (some l) s s₁) (h₂ : Added R text (some l) b.next s₁ s₂) :
    Queued R text (pre ++ l :: post) syms' s₂.workQueue := by
  have hsyms : s.symbols = syms' := by rw [hs]
  have hr : r ∉ pre ++ l :: post := fun hr => by
    obtain ⟨c, hcr, hn⟩ := hc'.get hr
    obtain rfl := Option.some.inj (hre.right.symm.trans hcr)
    exact hn rfl
  have hcases : ∀ e' ∈ s₂.workQueue, e' ∈ queue ∨
      (a.prev = some (R.left e') ∧ R.right e' = l ∨ R.left e' = l ∧ b.next = some (R.right e')) ∧
      ∃ a b, syms'[R.left e']? = some a ∧ syms'[R.right e']? = some b ∧
        R.bigram text (R.left e') (R.right e') a b = some (some e') := by
    intro e' he'
    rcases h₂.new e' he' with he' | ⟨hl, hr, hsym⟩
    · rcases h₁.new e' he' with he' | ⟨hl, hr, hsym⟩
      · rw [hs] at he'
        exact .inl (List.mem_of_mem_erase he')
      · rw [hsyms] at hsym
        exact .inr ⟨.inl ⟨hl, (Option.some.inj hr).symm⟩, hsym⟩
    · rw [h₁.symbols, hsyms] at hsym
      exact .inr ⟨.inr ⟨(Option.some.inj hl).symm, hr⟩, hsym⟩
  refine ⟨fun x c' y d' e' hx hcx hnx hd hbg =>
    complete_merge hR hc h hre ha hnext hb hleft hs h₁ h₂ hx hcx hnx hd hbg,
    fun e' he' => ?_, fun e' he' hl' hr' => ?_⟩
  · rcases hcases e' he' with he' | ⟨-, c, d, hcx, hd, -⟩
    · rw [hre.length]
      exact h.range e' he'
    · exact ⟨(List.getElem?_eq_some_iff.mp hcx).1, (List.getElem?_eq_some_iff.mp hd).1⟩
  · rcases hcases e' he' with he' | ⟨hends, c, d, hcx, hd, hbigram⟩
    · exact sound_merge hR hc' h hre ha hnext hr he' hl' hr'
    · refine ⟨c, d, d.n, hcx, ?_, hd, Nat.le_refl _, hbigram⟩
      rcases hends with ⟨hprev, hrl⟩ | ⟨hll, hrn⟩
      · obtain ⟨c0, -, hc0, hn⟩ := hc'.prev (by simp) hre.left hprev
        obtain rfl := Option.some.inj (hcx.symm.trans hc0)
        rw [hn, hrl]
      · rw [hll, hre.left, Option.some.injEq] at hcx
        rw [← hcx, ← hrn]

end Merge

omit [DecidableEq ε] in
/-- The pieces after a merge. -/
theorem pieces_merge {pre post : List Nat} {l r : Nat} {a b : LlmSymbol}
    {s s' : MergeSession ε} (hc : Chained text.length (pre ++ l :: r :: post) s.symbols)
    (hc' : Chained text.length (pre ++ l :: post) s'.symbols)
    (hre : Relinked l r a b s.symbols s'.symbols) (ha : s.symbols[l]? = some a)
    (hb : s.symbols[r]? = some b) (htext : a.text + a.n = b.text) :
    s'.pieces text = mergeAt pre.length (s.pieces text) := by
  have hnd : (pre ++ l :: r :: post).Nodup := hc.sorted.imp fun hlt => Nat.ne_of_lt hlt
  have hrest : ∀ i ∈ pre ++ post, MergeSession.strAt text s'.symbols i =
      MergeSession.strAt text s.symbols i := by
    intro i hi
    refine hre.strAt ?_ ?_ <;> rintro rfl <;>
      simp only [nodup_append, nodup_cons, mem_append, mem_cons] at hnd hi <;>
      grind
  have hl : MergeSession.strAt text s'.symbols l = MergeSession.strAt text s.symbols l ++
      MergeSession.strAt text s.symbols r := by
    simp only [MergeSession.strAt, hre.left, ha, hb, map_some, getD_some, LlmSymbol.str]
    rw [take_add, drop_drop, htext]
  have hlen : pre.length = (pre.map (MergeSession.strAt text s.symbols)).length := by simp
  rw [MergeSession.pieces, MergeSession.pieces, hc.live_eq, hc'.live_eq, map_append,
    map_append, map_cons, map_cons, map_cons, hlen, mergeAt_append, hl,
    map_congr_left fun i hi => hrest i (mem_append_left _ hi),
    map_congr_left fun i hi => hrest i (mem_append_right _ hi)]

omit [DecidableEq ε] in
/-- An outdated entry is that of no two neighbours. -/
theorem bigram_ne_of_outdated (hR : R.Lawful text key rank)
    (hc : Chained text.length chain syms) {a b : LlmSymbol} (ha : syms[R.left e]? = some a)
    (hb : syms[R.right e]? = some b)
    (hout : a.n = 0 ∨ b.n = 0 ∨ R.outdated text e a b = true) {x y : Nat} {c d : LlmSymbol}
    (hx : x ∈ chain) (hcx : syms[x]? = some c) (hnext : c.next = some y)
    (hd : syms[y]? = some d) : R.bigram text x y c d ≠ some (some e) := by
  intro hbigram
  obtain ⟨d', hy, hd', -, htext, hlen, -⟩ := hc.next hx hcx hnext
  obtain rfl := Option.some.inj (hd.symm.trans hd')
  obtain ⟨o, ho, -, hind⟩ := hR.bigram x y c d htext hlen
  obtain rfl := Option.some.inj (ho.symm.trans hbigram)
  obtain ⟨rfl, rfl⟩ := hind e rfl
  obtain rfl := Option.some.inj (ha.symm.trans hcx)
  obtain rfl := Option.some.inj (hb.symm.trans hd)
  have hfresh := (hR.outdated _ _ a b e b.n htext hlen (Nat.le_refl _) ho).mpr rfl
  have := (hc.mem_iff ha).mp hx
  have := (hc.mem_iff hb).mp hy
  simp_all

variable {s : MergeSession ε}

/-- The body of the loop skips the entry, or merges the best pair. -/
theorem Inv.process (hR : R.Lawful text key rank) (h : Inv R text chain s)
    (he : e ∈ s.workQueue) (htop : ∀ e' ∈ s.workQueue, R.comparator e e' = false) :
    ∃ s', MergeSession.process R text e { s with workQueue := s.workQueue.erase e } = some s' ∧
      (Inv R text chain s' ∧ s'.symbols = s.symbols ∧
          s'.workQueue.length + 1 = s.workQueue.length ∨
        ∃ pre l r post, chain = pre ++ l :: r :: post ∧ Inv R text (pre ++ l :: post) s' ∧
          IsBest rank (s.pieces text) pre.length (key e) ∧
          s'.pieces text = mergeAt pre.length (s.pieces text) ∧
          s'.workQueue.length ≤ s.workQueue.length + 1) := by
  have hlen := length_erase_of_mem he
  have hpos := length_pos_of_mem he
  obtain ⟨hin, hin'⟩ := h.queued.range e he
  obtain ⟨a, ha⟩ : ∃ a, s.symbols[R.left e]? = some a := ⟨_, getElem?_eq_getElem hin⟩
  obtain ⟨b, hb⟩ : ∃ b, s.symbols[R.right e]? = some b := ⟨_, getElem?_eq_getElem hin'⟩
  rw [MergeSession.process]
  simp only [ha, hb]
  split
  next hout =>
    refine ⟨_, rfl, .inl ⟨⟨h.chained, h.queued.skip fun x c y d hx hc hnext hd => ?_⟩, rfl,
      by dsimp only; omega⟩⟩
    exact bigram_ne_of_outdated hR h.chained ha hb hout hx hc hnext hd
  next hfresh =>
    simp only [not_or, Bool.not_eq_true] at hfresh
    obtain ⟨han, hbn, hfresh⟩ := hfresh
    obtain ⟨a', b', m, ha', hnext, hb', hm, hbigram⟩ := h.queued.sound e he
      ((h.chained.mem_iff ha).mpr han) ((h.chained.mem_iff hb).mpr hbn)
    obtain rfl := Option.some.inj (ha.symm.trans ha')
    obtain rfl := Option.some.inj (hb.symm.trans hb')
    obtain ⟨pre, post, rfl⟩ := h.chained.linked.split ((h.chained.mem_iff ha).mpr han) ha hnext
    obtain ⟨a', b', ha', -, hb', hpost, htext, hle⟩ := h.chained.pair
    obtain rfl := Option.some.inj (ha.symm.trans ha')
    obtain rfl := Option.some.inj (hb.symm.trans hb')
    -- the right symbol has not grown, so the entry is that of the symbols as they are
    obtain rfl := (hR.outdated _ _ a b e m htext hle hm hbigram).mp hfresh
    obtain ⟨-, -, -, -, -, -, hlr⟩ := h.chained.next (by simp) ha hnext
    obtain ⟨syms', hrelink, hre⟩ := relink_spec (a := a) (b := b) hin hin' (Nat.ne_of_lt hlr)
      fun k hk => by
        obtain ⟨c, -, hc, -, -, -, hrk⟩ := h.chained.next (by simp) hb hk
        exact ⟨(List.getElem?_eq_some_iff.mp hc).1, by omega, by omega⟩
    have hc' := h.chained.relink hre ha hb hpost
    obtain ⟨s₁, hs1, h1⟩ := addBigram_spec hR a.prev (some (R.left e))
      ⟨syms', s.workQueue.erase e⟩ fun x y hx hy => by
        cases hy
        obtain ⟨c, hxc, hc, hn⟩ := hc'.prev (by simp) hre.left hx
        obtain ⟨d, -, hd, -, ht, hl, -⟩ := hc'.next hxc hc hn
        exact ⟨c, d, hc, hd, ht, hl⟩
    obtain ⟨s₂, hs2, h2⟩ := addBigram_spec hR (some (R.left e)) b.next
      s₁ fun x y hx hy => by
        cases hx
        rw [h1.symbols]
        obtain ⟨d, -, hd, -, ht, hl, -⟩ := hc'.next (by simp) hre.left hy
        exact ⟨_, d, hre.left, hd, ht, hl⟩
    have hsyms : s₂.symbols = syms' := h2.symbols.trans h1.symbols
    have hqueued := Queued.merge hR h.chained hc' h.queued hre ha hnext hb rfl rfl h1 h2
    subst hsyms
    refine ⟨s₂, ?_, .inr ⟨pre, _, _, post, rfl, ⟨hc', hqueued⟩,
      h.isBest hR htop ha hb hbigram, pieces_merge h.chained hc' hre ha hb htext, ?_⟩⟩
    · rw [hrelink, bind_some, hs1, bind_some, hs2]
    · have := h1.length_le
      have := h2.length_le
      dsimp only at *
      omega

/-! ## All rounds -/

omit [DecidableEq ε] in
/-- There is an entry on top of a queue that is not empty. -/
theorem exists_top (hR : R.Lawful text key rank) (hq : queue ≠ []) :
    ∃ e ∈ queue, ∀ e' ∈ queue, R.comparator e e' = false := by
  cases hm : queue.argmin fun e => toLex (key e, R.left e) with
  | none => exact absurd (argmin_eq_none.mp hm) hq
  | some e =>
    refine ⟨e, argmin_mem hm, fun e' he' => ?_⟩
    have hle := le_of_mem_argmin he' hm
    rw [← Bool.not_eq_true, hR.comparator]
    intro hlt
    exact absurd hle (not_le_of_gt (Prod.Lex.toLex_lt_toLex.mpr hlt))

/-- A round keeps the invariant, the first symbol and the result of greedy merging, and brings
the end nearer. -/
theorem Inv.step (hR : R.Lawful text key rank) {s s' : MergeSession ε} (h : Inv R text chain s)
    (hstep : MergeSession.Step R text s s') :
    ∃ chain', Inv R text chain' s' ∧ chain'.head? = chain.head? ∧
      greedyMerge rank (s'.pieces text) = greedyMerge rank (s.pieces text) ∧
      s'.workQueue.length + 3 * chain'.length < s.workQueue.length + 3 * chain.length := by
  obtain ⟨he, htop, hrun⟩ := hstep
  obtain ⟨t, ht, hcases⟩ := h.process hR he htop
  obtain rfl := Option.some.inj (ht.symm.trans hrun)
  rcases hcases with ⟨hinv, hsyms, hlen⟩ | ⟨pre, l, r, post, rfl, hinv, hbest, hpieces, hlen⟩
  · refine ⟨chain, hinv, rfl, ?_, by omega⟩
    rw [MergeSession.pieces, MergeSession.pieces, hinv.chained.live_eq, h.chained.live_eq, hsyms]
  · refine ⟨_, hinv, by cases pre <;> rfl, ?_, ?_⟩
    · rw [hpieces, ← greedyMerge_eq_of_best hbest]
    · simp only [length_append, length_cons]
      omega

/-- What holds in every state of a run. -/
theorem Inv.run (hR : R.Lawful text key rank) {s s' : MergeSession ε} (h : Inv R text chain s)
    (hrun : Relation.ReflTransGen (MergeSession.Step R text) s s') :
    ∃ chain', Inv R text chain' s' ∧ chain'.head? = chain.head? ∧
      greedyMerge rank (s'.pieces text) = greedyMerge rank (s.pieces text) := by
  induction hrun with
  | refl => exact ⟨chain, h, rfl, rfl⟩
  | tail _ hstep ih =>
    obtain ⟨chain', hinv, hhead, hg⟩ := ih
    obtain ⟨chain'', hinv', hhead', hg', -⟩ := hinv.step hR hstep
    exact ⟨chain'', hinv', hhead'.trans hhead, hg'.trans hg⟩

/-- A run has a bounded number of rounds. -/
theorem Inv.rounds_le (hR : R.Lawful text key rank) {n : Nat} {run : Nat → MergeSession ε}
    (h : Inv R text chain (run 0))
    (hrun : ∀ i < n, MergeSession.Step R text (run i) (run (i + 1))) :
    n ≤ (run 0).workQueue.length + 3 * chain.length := by
  have hdec : ∀ i ≤ n, ∃ chain', Inv R text chain' (run i) ∧
      (run i).workQueue.length + 3 * chain'.length + i ≤
        (run 0).workQueue.length + 3 * chain.length := by
    intro i hi
    induction i with
    | zero => exact ⟨chain, h, Nat.le_refl _⟩
    | succ i ih =>
      obtain ⟨chain', hinv, hle⟩ := ih (by omega)
      obtain ⟨chain'', hinv', -, -, hlt⟩ := hinv.step hR (hrun i (by omega))
      exact ⟨chain'', hinv', by omega⟩
  obtain ⟨chain', -, hle⟩ := hdec n (Nat.le_refl n)
  omega

omit [DecidableEq ε] in
/-- Without entries no pair has a rank. -/
theorem Inv.greedyMerge_eq (hR : R.Lawful text key rank)
    (h : Inv R text chain s) (hq : s.workQueue = []) :
    greedyMerge rank (s.pieces text) = s.pieces text := by
  refine greedyMerge_of_none (bestPair_eq_none_iff.mpr fun i => ?_)
  cases hk : pairRank rank (s.pieces text) i with
  | none => rfl
  | some k =>
    obtain ⟨e, he, -⟩ := h.entry hR hk
    rw [hq] at he
    cases he

omit [DecidableEq ε] in
/-- The list visits the symbols that are not empty. -/
theorem Inv.visited_eq (h : Inv R text chain s)
    (hhead : chain.head? = some 0) : s.visited = s.live := by
  rw [h.chained.live_eq, MergeSession.visited, ← hhead]
  refine h.chained.linked.visit ?_
  rw [← h.chained.live_eq]
  exact (length_filter_le _ _).trans_eq length_range

/-! ## Filling the queue -/

/-- The entry is that of two neighbours. -/
def EntryOf (R : MergeRules ε) (text : List UInt8) (syms : List LlmSymbol) (e : ε) : Prop :=
  R.right e = R.left e + 1 ∧ ∃ a b, syms[R.left e]? = some a ∧ syms[R.right e]? = some b ∧
    R.bigram text (R.left e) (R.right e) a b = some (some e)

omit [DecidableEq ε] in
theorem seed_spec (hR : R.Lawful text key rank) (is : List Nat)
    (h : ∀ i ∈ is, ∃ a b, s.symbols[i]? = some a ∧ s.symbols[i + 1]? = some b ∧
      a.text + a.n = b.text ∧ b.text + b.n ≤ text.length) :
    ∃ s', s.seed R text is = some s' ∧ s'.symbols = s.symbols ∧
      s'.workQueue.length ≤ s.workQueue.length + is.length ∧
      (∀ e ∈ s.workQueue, e ∈ s'.workQueue) ∧
      (∀ e ∈ s'.workQueue, e ∈ s.workQueue ∨ EntryOf R text s.symbols e) ∧
      ∀ i ∈ is, ∀ a b e, s.symbols[i]? = some a → s.symbols[i + 1]? = some b →
        R.bigram text i (i + 1) a b = some (some e) → e ∈ s'.workQueue := by
  induction is generalizing s with
  | nil => exact ⟨s, rfl, rfl, Nat.le_refl _, fun _ he => he, fun _ he => .inl he, by simp⟩
  | cons i is ih =>
    obtain ⟨s₁, hs1, h1⟩ := addBigram_spec hR (some i) (some (i + 1)) s fun l r hl hr => by
      cases hl
      cases hr
      exact h _ mem_cons_self
    obtain ⟨s₂, hs2, hsyms, hlen, hold, hnew, hmem⟩ := ih (s := s₁) fun j hj => by
      rw [h1.symbols]
      exact h j (mem_cons_of_mem _ hj)
    rw [h1.symbols] at hsyms hnew hmem
    refine ⟨s₂, ?_, hsyms, ?_, fun e he => hold e (h1.old e he), fun e he => ?_, ?_⟩
    · rw [MergeSession.seed, hs1, bind_some, hs2]
    · have := h1.length_le
      rw [length_cons]
      omega
    · rcases hnew e he with he | he
      · rcases h1.new e he with he | ⟨hl, hr, hentry⟩
        · exact .inl he
        · have hi := Option.some.inj hl
          have hj := Option.some.inj hr
          exact .inr ⟨by omega, hentry⟩
      · exact .inr he
    · intro j hj a b e ha hb hbigram
      rcases mem_cons.mp hj with rfl | hj
      · exact hold e (h1.mem j (j + 1) a b e rfl rfl ha hb hbigram)
      · exact hmem j hj a b e ha hb hbigram

omit [DecidableEq ε] in
/-- The invariant holds when the loop begins, if all symbols are linked or there is only one. -/
theorem start_spec (hR : R.Lawful text key rank) (hc : Chained text.length chain syms)
    (hall : chain = List.range syms.length ∨ syms.length ≤ 1) :
    ∃ s, MergeSession.start R text syms = some s ∧ Inv R text chain s ∧ s.symbols = syms ∧
      s.workQueue.length ≤ syms.length - 1 := by
  have hpair : ∀ i, i + 1 < syms.length → ∃ a b, syms[i]? = some a ∧ a.next = some (i + 1) ∧
      syms[i + 1]? = some b ∧ a.text + a.n = b.text ∧ b.text + b.n ≤ text.length := by
    intro i hi
    rcases hall with rfl | hle
    · obtain ⟨pre, post, hsplit, -⟩ := split_of_getElem?
        (getElem?_range (show i < syms.length by omega)) (getElem?_range hi)
      rw [hsplit] at hc
      obtain ⟨a, b, ha, hnext, hb, -, htext, hlen⟩ := hc.pair
      exact ⟨a, b, ha, hnext, hb, htext, hlen⟩
    · omega
  have hnext : ∀ x a y, x ∈ chain → syms[x]? = some a → a.next = some y →
      y = x + 1 ∧ x + 1 < syms.length := by
    intro x a y hx ha hn
    obtain ⟨b, -, hb, -, -, -, hlt⟩ := hc.next hx ha hn
    have hy := (List.getElem?_eq_some_iff.mp hb).1
    obtain ⟨a', -, ha', hn', -⟩ := hpair x (by omega)
    obtain rfl := Option.some.inj (ha.symm.trans ha')
    obtain rfl := Option.some.inj (hn.symm.trans hn')
    exact ⟨rfl, hy⟩
  obtain ⟨s, hs, hsyms, hlen, -, hnew, hmem⟩ :=
    seed_spec hR (List.range (syms.length - 1)) (s := ⟨syms, []⟩) fun i hi => by
      obtain ⟨a, b, ha, -, hb, htext, hlen⟩ := hpair i (by have := mem_range.mp hi; omega)
      exact ⟨a, b, ha, hb, htext, hlen⟩
  have hentry : ∀ e ∈ s.workQueue, EntryOf R text syms e := fun e he =>
    (hnew e he).resolve_left List.not_mem_nil
  refine ⟨s, hs, ⟨hsyms ▸ hc, ?_⟩, hsyms, by simpa using hlen⟩
  rw [hsyms]
  refine ⟨fun x a y b e hx ha hn hb hbigram => ?_, fun e he => ?_, fun e he _ _ => ?_⟩
  · obtain ⟨rfl, hlt⟩ := hnext x a y hx ha hn
    exact hmem x (List.mem_range.mpr (by omega)) a b e ha hb hbigram
  · obtain ⟨-, a, b, ha, hb, -⟩ := hentry e he
    exact ⟨(List.getElem?_eq_some_iff.mp ha).1, (List.getElem?_eq_some_iff.mp hb).1⟩
  · obtain ⟨hr, a, b, ha, hb, hbigram⟩ := hentry e he
    obtain ⟨a', -, ha', hn, -⟩ := hpair (R.left e) (by
      have := (List.getElem?_eq_some_iff.mp hb).1
      omega)
    obtain rfl := Option.some.inj (ha.symm.trans ha')
    exact ⟨a, b, b.n, ha, by rw [hn, hr], hb, Nat.le_refl _, hbigram⟩

/-- Queue-driven merging from `s` is greedy merging: in every state the pieces are the text and the
list visits them in order, the loop ends, and at its end the pieces are those of greedy
merging. -/
structure MergesGreedily (R : MergeRules ε) (rank : List UInt8 → List UInt8 → Option κ)
    (text : List UInt8) (s : MergeSession ε) : Prop where
  flatten : ∀ s', Relation.ReflTransGen (MergeSession.Step R text) s s' →
    (s'.pieces text).flatten = text
  visited : text ≠ [] → ∀ s', Relation.ReflTransGen (MergeSession.Step R text) s s' →
    s'.visited = s'.live
  progress : ∀ s', Relation.ReflTransGen (MergeSession.Step R text) s s' → s'.workQueue ≠ [] →
    ∃ s'', MergeSession.Step R text s' s''
  rounds : ∀ (n : Nat) (run : Nat → MergeSession ε), run 0 = s →
    (∀ i < n, MergeSession.Step R text (run i) (run (i + 1))) → n ≤ 4 * s.symbols.length
  result : ∀ s', Relation.ReflTransGen (MergeSession.Step R text) s s' → s'.workQueue = [] →
    s'.pieces text = greedyMerge rank (s.pieces text)

/-- The loop from the filled queue on. -/
theorem start_mergesGreedily (hR : R.Lawful text key rank) (hc : Chained text.length chain syms)
    (hall : chain = List.range syms.length ∨ syms.length ≤ 1)
    (hhead : text ≠ [] → chain.head? = some 0) :
    ∃ s, MergeSession.start R text syms = some s ∧ s.symbols = syms ∧
      MergesGreedily R rank text s := by
  obtain ⟨s, hs, h, hsyms, hlen⟩ := start_spec hR hc hall
  refine ⟨s, hs, hsyms, ?_, ?_, ?_, ?_, ?_⟩
  · intro s' hrun
    obtain ⟨chain', hinv, -⟩ := h.run hR hrun
    exact hinv.flatten_pieces
  · intro ht s' hrun
    obtain ⟨chain', hinv, hhead', -⟩ := h.run hR hrun
    exact hinv.visited_eq (hhead'.trans (hhead ht))
  · intro s' hrun hq
    obtain ⟨chain', hinv, -⟩ := h.run hR hrun
    obtain ⟨e, he, htop⟩ := exists_top hR hq
    obtain ⟨s'', hs'', -⟩ := hinv.process hR he htop
    exact ⟨s'', he, htop, hs''⟩
  · intro n run h0 hrun
    have hle := Inv.rounds_le hR (h0.symm ▸ h) hrun
    have hchain : chain.length ≤ syms.length := by
      rw [← hsyms, ← h.chained.live_eq]
      exact (length_filter_le _ _).trans_eq length_range
    rw [h0] at hle
    rw [hsyms]
    omega
  · intro s' hrun hq
    obtain ⟨chain', hinv, -, hg⟩ := h.run hR hrun
    rw [← hinv.greedyMerge_eq hR hq, hg]

end Queue

end BeeLlama
