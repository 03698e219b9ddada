import Mathlib.Data.List.Basic
import Mathlib.Logic.Relation

/-!
# Depth-first search with a work list

`search` takes the nodes of a work list from the front. A node that was seen is dropped, a leaf is
put into the output unless it is there, and the successors of another node go to the front of the
list, the last one first. The search can be stopped by an error of a node, and by its fuel.

* `search_add`: a result does not depend on the fuel.
* `search_ok`: the output of a search that returned are the leaves that can be reached.
* `search_ends`: the search ends if no path from the list is infinite; `search_total`: it returns if
  moreover no node of a path is an error.
-/

namespace BeeLlama.Worklist

open List

variable {α ε : Type}

/-- `b` is a successor of `a`. -/
def Next (expand : α → Except ε (Option (List α))) (a b : α) : Prop :=
  ∃ l, expand a = .ok (some l) ∧ b ∈ l

/-- `b` is on a path from `a`. -/
abbrev Reaches (expand : α → Except ε (Option (List α))) : α → α → Prop :=
  Relation.ReflTransGen (Next expand)

/-- The search: `diverge` is the error of a search that ran out of fuel. -/
def search [DecidableEq α] (expand : α → Except ε (Option (List α))) (diverge : ε) :
    Nat → List α → List α → List α → Except ε (List α)
  | _, [], _, out => .ok out
  | 0, _ :: _, _, _ => .error diverge
  | n + 1, a :: todo, seen, out =>
    if a ∈ seen then search expand diverge n todo seen out
    else
      match expand a with
      | .error e => .error e
      | .ok none =>
        search expand diverge n todo (a :: seen) (if a ∈ out then out else out ++ [a])
      | .ok (some l) => search expand diverge n (l.reverse ++ todo) (a :: seen) out

section

variable [DecidableEq α] {expand : α → Except ε (Option (List α))} {diverge : ε}

variable {n : Nat}

@[simp] theorem search_nil (n : Nat) (seen out : List α) :
    search expand diverge n [] seen out = .ok out := by
  cases n <;> rfl

theorem search_add {todo seen out : List α} {r : Except ε (List α)}
    (e : search expand diverge n todo seen out = r) (hr : r ≠ .error diverge) (k : Nat) :
    search expand diverge (n + k) todo seen out = r := by
  induction n generalizing todo seen out with
  | zero =>
    cases todo with
    | nil => simpa using e
    | cons a todo => exact absurd e.symm hr
  | succ n ih =>
    cases todo with
    | nil => simpa using e
    | cons a todo =>
      rw [Nat.succ_add]
      simp only [search] at e ⊢
      split
      · next h => rw [if_pos h] at e; exact ih e
      · next h =>
        rw [if_neg h] at e
        split
        · next er => rw [er] at e; exact e
        · next er => rw [er] at e; exact ih e
        · next l er => rw [er] at e; exact ih e

variable {todo seen out out' : List α}

/-- A node of the output was there before, or it is a leaf on a path from the list. -/
theorem search_sound
    (e : search expand diverge n todo seen out = .ok out') {x : α} (hx : x ∈ out') :
    x ∈ out ∨ expand x = .ok none ∧ ∃ t ∈ todo, Reaches expand t x := by
  induction n generalizing todo seen out with
  | zero =>
    cases todo with
    | nil => cases e; exact .inl hx
    | cons a todo => cases e
  | succ n ih =>
    cases todo with
    | nil => cases e; exact .inl hx
    | cons a todo =>
      simp only [search] at e
      have step : ∀ {o : List α}, (x ∈ o ∨ expand x = .ok none ∧
          ∃ t ∈ todo, Reaches expand t x) → (x ∈ o → x ∈ out ∨ expand x = .ok none ∧ x = a) →
          x ∈ out ∨ expand x = .ok none ∧ ∃ t ∈ a :: todo, Reaches expand t x := by
        intro o h ho
        rcases h with h | ⟨hl, t, ht, hr⟩
        · rcases ho h with h | ⟨hl, rfl⟩
          · exact .inl h
          · exact .inr ⟨hl, x, mem_cons_self, .refl⟩
        · exact .inr ⟨hl, t, mem_cons_of_mem _ ht, hr⟩
      split at e
      · exact step (ih e) .inl
      · split at e
        · cases e
        · next er =>
          refine step (ih e) fun h => ?_
          split at h
          · exact .inl h
          · rcases mem_append.mp h with h | h
            · exact .inl h
            · obtain rfl := mem_singleton.mp h
              exact .inr ⟨er, rfl⟩
        · next l er =>
          rcases ih e with h | ⟨hl, t, ht, hr⟩
          · exact .inl h
          · rcases mem_append.mp ht with ht | ht
            · have hat : Next expand a t := ⟨l, er, mem_reverse.mp ht⟩
              exact .inr ⟨hl, a, mem_cons_self, .head hat hr⟩
            · exact .inr ⟨hl, t, mem_cons_of_mem _ ht, hr⟩

/-- The output is not shortened. -/
theorem search_mem_of_mem
    (e : search expand diverge n todo seen out = .ok out') {x : α} (hx : x ∈ out) : x ∈ out' := by
  induction n generalizing todo seen out with
  | zero =>
    cases todo with
    | nil => cases e; exact hx
    | cons a todo => cases e
  | succ n ih =>
    cases todo with
    | nil => cases e; exact hx
    | cons a todo =>
      simp only [search] at e
      split at e
      · exact ih e hx
      · split at e
        · cases e
        · refine ih e ?_
          split
          · exact hx
          · exact mem_append_left _ hx
        · exact ih e hx

/-- A seen node is a leaf of the output, or its successors are seen or in the list. -/
def Closed (expand : α → Except ε (Option (List α))) (todo seen out : List α) : Prop :=
  ∀ a ∈ seen, (expand a = .ok none ∧ a ∈ out) ∨
    ∃ l, expand a = .ok (some l) ∧ ∀ b ∈ l, b ∈ seen ∨ b ∈ todo

/-- A search that returned has seen all nodes of the list, and the successors of what it saw. -/
theorem search_closed
    (e : search expand diverge n todo seen out = .ok out') (h : Closed expand todo seen out) :
    ∃ seen', seen ⊆ seen' ∧ todo ⊆ seen' ∧ Closed expand [] seen' out' := by
  induction n generalizing todo seen out with
  | zero =>
    cases todo with
    | nil => cases e; exact ⟨seen, List.Subset.refl _, nil_subset _, h⟩
    | cons a todo => cases e
  | succ n ih =>
    cases todo with
    | nil => cases e; exact ⟨seen, List.Subset.refl _, nil_subset _, h⟩
    | cons a todo =>
      simp only [search] at e
      split at e
      · next ha =>
        have h' : Closed expand todo seen out := by
          intro b hb
          refine (h b hb).imp id fun ⟨l, el, hl⟩ => ⟨l, el, fun c hc => ?_⟩
          rcases hl c hc with hc | hc
          · exact .inl hc
          · rcases mem_cons.mp hc with rfl | hc
            · exact .inl ha
            · exact .inr hc
        obtain ⟨seen', hs, ht, hc⟩ := ih e h'
        exact ⟨seen', hs, cons_subset.mpr ⟨hs ha, ht⟩, hc⟩
      · have lift : ∀ {todo' out'' : List α}, out ⊆ out'' → todo ⊆ todo' →
            ((expand a = .ok none ∧ a ∈ out'') ∨ ∃ l, expand a = .ok (some l) ∧
              ∀ b ∈ l, b ∈ a :: seen ∨ b ∈ todo') → Closed expand todo' (a :: seen) out'' := by
          intro todo' out'' ho ht ha b hb
          rcases mem_cons.mp hb with rfl | hb
          · exact ha
          · refine (h b hb).imp (And.imp_right fun hb => ho hb) fun ⟨l, el, hl⟩ =>
              ⟨l, el, fun c hc => ?_⟩
            rcases hl c hc with hc | hc
            · exact .inl (mem_cons_of_mem _ hc)
            · rcases mem_cons.mp hc with rfl | hc
              · exact .inl mem_cons_self
              · exact .inr (ht hc)
        split at e
        · cases e
        · next er =>
          have ho : out ⊆ (if a ∈ out then out else out ++ [a]) := by
            split
            · exact List.Subset.refl _
            · exact subset_append_left _ _
          have ha : a ∈ (if a ∈ out then out else out ++ [a]) := by
            split
            · assumption
            · exact mem_append_right _ (mem_singleton.mpr rfl)
          obtain ⟨seen', hs, ht, hc⟩ := ih e (lift ho (List.Subset.refl _) (.inl ⟨er, ha⟩))
          exact ⟨seen', (cons_subset.mp hs).2, cons_subset.mpr ⟨(cons_subset.mp hs).1, ht⟩, hc⟩
        · next l er =>
          obtain ⟨seen', hs, ht, hc⟩ := ih e (lift (List.Subset.refl _)
            (subset_append_right _ _) (.inr ⟨l, er, fun b hb =>
              .inr (mem_append_left _ (mem_reverse.mpr hb))⟩))
          exact ⟨seen', (cons_subset.mp hs).2, cons_subset.mpr
            ⟨(cons_subset.mp hs).1, (append_subset.mp ht).2⟩, hc⟩

omit [DecidableEq α] in
theorem Closed.mem_of_reaches {seen out : List α} (h : Closed expand [] seen out) {a x : α}
    (ha : a ∈ seen) (hr : Reaches expand a x) (hx : expand x = .ok none) : x ∈ out := by
  have hs : x ∈ seen := by
    clear hx
    induction hr with
    | refl => exact ha
    | tail _ hn ih =>
      obtain ⟨l, el, hl⟩ := hn
      rcases h _ ih with ⟨en, -⟩ | ⟨l', el', hl'⟩
      · rw [en] at el; cases el
      · rw [el'] at el
        cases el
        exact (hl' _ hl).resolve_right not_mem_nil
  rcases h x hs with ⟨-, hx⟩ | ⟨l, el, -⟩
  · exact hx
  · rw [hx] at el; cases el

/-- The output of a search are the leaves on the paths from the list. -/
theorem search_ok {todo out out' : List α}
    (e : search expand diverge n todo [] out = .ok out') (x : α) :
    x ∈ out' ↔ x ∈ out ∨ expand x = .ok none ∧ ∃ t ∈ todo, Reaches expand t x := by
  refine ⟨search_sound e, fun hx => ?_⟩
  rcases hx with hx | ⟨hl, t, ht, hr⟩
  · exact search_mem_of_mem e hx
  · obtain ⟨seen', -, hs, hc⟩ := search_closed e fun a ha => absurd ha not_mem_nil
    exact hc.mem_of_reaches (hs ht) hr hl

/-- A node whose paths are finite is done after some steps, or the search ends at an error of a
node on a path from it. -/
theorem search_node {a : α} (ha : Acc (fun b a => Next expand a b) a) (todo seen out : List α) :
    (∃ k seen' out', ∀ n, search expand diverge (n + k) (a :: todo) seen out =
      search expand diverge n todo seen' out') ∨
    ∃ k x e, Reaches expand a x ∧ expand x = .error e ∧
      ∀ n, search expand diverge (n + k) (a :: todo) seen out = .error e := by
  induction ha generalizing todo seen out with
  | intro a _ ih =>
    by_cases hs : a ∈ seen
    · exact .inl ⟨1, seen, out, fun n => by simp [search, hs]⟩
    · cases er : expand a with
      | error e =>
        exact .inr ⟨1, a, e, .refl, er, fun n => by simp only [search, if_neg hs, er]⟩
      | ok r =>
        cases r with
        | none =>
          refine .inl ⟨1, a :: seen, if a ∈ out then out else out ++ [a], fun n => ?_⟩
          simp only [search, if_neg hs, er]
        | some l =>
          -- the successors are done one after the other, each with what was seen before
          have hlist : ∀ l' : List α, (∀ b ∈ l', Next expand a b) → ∀ seen out : List α,
              (∃ k seen' out', ∀ n, search expand diverge (n + k) (l' ++ todo) seen out =
                search expand diverge n todo seen' out') ∨
              ∃ k x e, Reaches expand a x ∧ expand x = .error e ∧
                ∀ n, search expand diverge (n + k) (l' ++ todo) seen out = .error e := by
            intro l'
            induction l' with
            | nil => exact fun _ seen out => .inl ⟨0, seen, out, fun n => rfl⟩
            | cons b l' ihl =>
              intro hb seen out
              have hnext := hb b mem_cons_self
              rcases ih b hnext (l' ++ todo) seen out with
                ⟨k1, seen1, out1, h1⟩ | ⟨k, x, e, hx, ex, h⟩
              · rcases ihl (fun c hc => hb c (mem_cons_of_mem _ hc)) seen1 out1 with
                  ⟨k2, seen2, out2, h2⟩ | ⟨k2, x, e, hx, ex, h2⟩
                · exact .inl ⟨k2 + k1, seen2, out2, fun n => by
                    rw [← Nat.add_assoc, cons_append, h1, h2]⟩
                · exact .inr ⟨k2 + k1, x, e, hx, ex, fun n => by
                    rw [← Nat.add_assoc, cons_append, h1, h2]⟩
              · exact .inr ⟨k, x, e, .head hnext hx, ex, fun n => h n⟩
          have hstep : ∀ n, search expand diverge (n + 1) (a :: todo) seen out =
              search expand diverge n (l.reverse ++ todo) (a :: seen) out := fun n => by
            simp only [search, if_neg hs, er]
          rcases hlist l.reverse (fun b hb => ⟨l, er, mem_reverse.mp hb⟩) (a :: seen) out with
            ⟨k, seen', out', h⟩ | ⟨k, x, e, hx, ex, h⟩
          · exact .inl ⟨k + 1, seen', out', fun n => by rw [← Nat.add_assoc, hstep, h]⟩
          · exact .inr ⟨k + 1, x, e, hx, ex, fun n => by rw [← Nat.add_assoc, hstep, h]⟩

/-- The search returns, or ends at an error of a node, if the paths from the list are finite. -/
theorem search_ends {todo : List α} (ha : ∀ t ∈ todo, Acc (fun b a => Next expand a b) t)
    (seen out : List α) :
    (∃ n out', search expand diverge n todo seen out = .ok out') ∨
    ∃ n, ∃ t ∈ todo, ∃ x e, Reaches expand t x ∧ expand x = .error e ∧
      search expand diverge n todo seen out = .error e := by
  induction todo generalizing seen out with
  | nil => exact .inl ⟨0, out, rfl⟩
  | cons a todo ih =>
    rcases search_node (ha a mem_cons_self) todo seen out with
      ⟨k, seen', out', h⟩ | ⟨k, x, e, hx, ex, h⟩
    · rcases ih (fun t ht => ha t (mem_cons_of_mem _ ht)) seen' out' with
        ⟨n, out'', e⟩ | ⟨n, t, ht, x, e, hx, ex, e'⟩
      · exact .inl ⟨n + k, out'', by rw [h, e]⟩
      · exact .inr ⟨n + k, t, mem_cons_of_mem _ ht, x, e, hx, ex, by rw [h, e']⟩
    · exact .inr ⟨0 + k, a, mem_cons_self, x, e, hx, ex, h 0⟩

/-- The search returns if the paths from the list are finite and without errors. -/
theorem search_total {todo : List α} (ha : ∀ t ∈ todo, Acc (fun b a => Next expand a b) t)
    (hok : ∀ t ∈ todo, ∀ x, Reaches expand t x → ∃ r, expand x = .ok r) (seen out : List α) :
    ∃ n out', search expand diverge n todo seen out = .ok out' := by
  rcases search_ends ha seen out with h | ⟨n, t, ht, x, e, hx, ex, -⟩
  · exact h
  · obtain ⟨r, er⟩ := hok t ht x hx
    rw [ex] at er
    cases er

omit [DecidableEq α] in
/-- A leaf can be reached if each node on the way has a successor. -/
theorem exists_leaf {a : α} (ha : Acc (fun b a => Next expand a b) a)
    (hok : ∀ x, Reaches expand a x → ∃ r, expand x = .ok r ∧ r ≠ some []) :
    ∃ x, Reaches expand a x ∧ expand x = .ok none := by
  induction ha with
  | intro a _ ih =>
    obtain ⟨r, er, hne⟩ := hok a .refl
    cases r with
    | none => exact ⟨a, .refl, er⟩
    | some l =>
      obtain ⟨b, hb⟩ := exists_mem_of_ne_nil l fun h => hne (by rw [h])
      have hnext : Next expand a b := ⟨l, er, hb⟩
      obtain ⟨x, hx, hl⟩ := ih b hnext fun x hx => hok x (.head hnext hx)
      exact ⟨x, .head hnext hx, hl⟩

end

end BeeLlama.Worklist
