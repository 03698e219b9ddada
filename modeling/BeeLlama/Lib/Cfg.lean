import Mathlib.Data.Set.Finite.Lemmas
import Mathlib.Order.WellFoundedSet

/-!
# Context-free grammars

A rule `r` has the alternatives `alts r`, sequences of rules and terminals. A terminal `t` stands
for each character `c` with `accepts t c`. `Derives ss w` says that the sequence `ss` derives the
word `w`.

* `derives_rule_iff`, `derives_term_iff`: a derivation starts at the left.
* `Derives.leftmost`: every derivation can be done from left to right.
* `LeftRecursive`: a rule derives itself in leftmost position; `Expands.acc`: without such a rule
  the leftmost expansion of a sequence ends.
-/

namespace BeeLlama.Cfg

open List

/-- A symbol of a sequence. -/
inductive Sym (N T : Type) where
  | rule (r : N)
  | term (t : T)
  deriving DecidableEq, Repr

variable {N T C : Type}

section Derives

variable {alts : N → List (List (Sym N T))} {accepts : T → C → Prop}

/-- The words of a sequence of symbols. -/
inductive Derives (alts : N → List (List (Sym N T))) (accepts : T → C → Prop) :
    List (Sym N T) → List C → Prop where
  | nil : Derives alts accepts [] []
  | term {t : T} {c : C} {ss : List (Sym N T)} {w : List C} : accepts t c →
      Derives alts accepts ss w → Derives alts accepts (.term t :: ss) (c :: w)
  | rule {r : N} {rhs ss : List (Sym N T)} {u v : List C} : rhs ∈ alts r →
      Derives alts accepts rhs u → Derives alts accepts ss v →
        Derives alts accepts (.rule r :: ss) (u ++ v)

variable {w : List C} {a b : List (Sym N T)} {ss : List (Sym N T)}

@[simp] theorem derives_nil_iff : Derives alts accepts [] w ↔ w = [] := by
  constructor
  · intro h
    cases h
    rfl
  · rintro rfl
    exact .nil

theorem Derives.append {u v : List C} (ha : Derives alts accepts a u)
    (hb : Derives alts accepts b v) : Derives alts accepts (a ++ b) (u ++ v) := by
  induction ha with
  | nil => exact hb
  | term hc _ ih => exact .term hc ih
  | rule hr hrhs _ _ ih =>
    rw [append_assoc]
    exact .rule hr hrhs ih

/-- A word of a concatenation is a concatenation of words. -/
theorem derives_append_iff : Derives alts accepts (a ++ b) w ↔
      ∃ u v, w = u ++ v ∧ Derives alts accepts a u ∧ Derives alts accepts b v := by
  refine ⟨fun h => ?_, fun ⟨u, v, e, hu, hv⟩ => e ▸ hu.append hv⟩
  induction a generalizing w with
  | nil => exact ⟨[], w, rfl, .nil, h⟩
  | cons s a ih =>
    cases h with
    | term hc h =>
      obtain ⟨u, v, rfl, hu, hv⟩ := ih h
      exact ⟨_, v, rfl, .term hc hu, hv⟩
    | rule hr hrhs h =>
      obtain ⟨u, v, rfl, hu, hv⟩ := ih h
      exact ⟨_, v, (append_assoc _ _ _).symm, .rule hr hrhs hu, hv⟩

/-- A derivation of a rule is one of an alternative of the rule. -/
theorem derives_rule_iff {r : N} : Derives alts accepts (.rule r :: ss) w ↔
      ∃ rhs ∈ alts r, Derives alts accepts (rhs ++ ss) w := by
  constructor
  · intro h
    cases h with
    | rule hr hrhs h => exact ⟨_, hr, hrhs.append h⟩
  · rintro ⟨rhs, hr, h⟩
    obtain ⟨u, v, rfl, hu, hv⟩ := derives_append_iff.mp h
    exact .rule hr hu hv

theorem derives_term_iff {t : T} : Derives alts accepts (.term t :: ss) w ↔
      ∃ c v, w = c :: v ∧ accepts t c ∧ Derives alts accepts ss v := by
  constructor
  · intro h
    cases h with
    | term hc h => exact ⟨_, _, rfl, hc, h⟩
  · rintro ⟨c, v, rfl, hc, h⟩
    exact .term hc h

/-- A derivation that expands the first rule at each step. -/
inductive Leftmost (alts : N → List (List (Sym N T))) (accepts : T → C → Prop) :
    List (Sym N T) → List C → Prop where
  | nil : Leftmost alts accepts [] []
  | term {t : T} {c : C} {ss : List (Sym N T)} {w : List C} : accepts t c →
      Leftmost alts accepts ss w → Leftmost alts accepts (.term t :: ss) (c :: w)
  | rule {r : N} {rhs ss : List (Sym N T)} {w : List C} : rhs ∈ alts r →
      Leftmost alts accepts (rhs ++ ss) w → Leftmost alts accepts (.rule r :: ss) w

theorem Leftmost.append {u v : List C} (ha : Leftmost alts accepts a u)
    (hb : Leftmost alts accepts b v) : Leftmost alts accepts (a ++ b) (u ++ v) := by
  induction ha with
  | nil => exact hb
  | term hc _ ih => exact .term hc ih
  | rule hr _ ih =>
    rw [append_assoc] at ih
    exact .rule hr ih

theorem Derives.leftmost (h : Derives alts accepts ss w) : Leftmost alts accepts ss w := by
  induction h with
  | nil => exact .nil
  | term hc _ ih => exact .term hc ih
  | rule hr _ _ ihrhs ih => exact .rule hr (ihrhs.append ih)

theorem Leftmost.derives (h : Leftmost alts accepts ss w) : Derives alts accepts ss w := by
  induction h with
  | nil => exact .nil
  | term hc _ ih => exact .term hc ih
  | rule hr _ ih => exact derives_rule_iff.mpr ⟨_, hr, ih⟩

/-- Every rule derives a word, and every terminal stands for a character. -/
structure Productive (alts : N → List (List (Sym N T))) (accepts : T → C → Prop)
    (ss : List (Sym N T)) : Prop where
  rule : ∀ r, .rule r ∈ ss → ∃ w, Derives alts accepts [.rule r] w
  term : ∀ t, .term t ∈ ss → ∃ c, accepts t c

theorem Productive.exists_word (h : Productive alts accepts ss) :
    ∃ w, Derives alts accepts ss w := by
  induction ss with
  | nil => exact ⟨[], .nil⟩
  | cons s ss ih =>
    obtain ⟨v, hv⟩ := ih ⟨fun r hr => h.rule r (mem_cons_of_mem _ hr),
      fun t ht => h.term t (mem_cons_of_mem _ ht)⟩
    cases s with
    | rule r =>
      obtain ⟨u, hu⟩ := h.rule r mem_cons_self
      exact ⟨u ++ v, hu.append hv⟩
    | term t =>
      obtain ⟨c, hc⟩ := h.term t mem_cons_self
      exact ⟨c :: v, .term hc hv⟩

end Derives

/-! ## Left recursion -/

section LeftRecursion

variable {alts : N → List (List (Sym N T))}

/-- The sequence derives the empty word. -/
inductive Nullable (alts : N → List (List (Sym N T))) : List (Sym N T) → Prop where
  | nil : Nullable alts []
  | rule {r : N} {rhs ss : List (Sym N T)} : rhs ∈ alts r → Nullable alts rhs →
      Nullable alts ss → Nullable alts (.rule r :: ss)

theorem Nullable.append {a b : List (Sym N T)} (ha : Nullable alts a) (hb : Nullable alts b) :
    Nullable alts (a ++ b) := by
  induction ha with
  | nil => exact hb
  | rule hr hrhs _ _ ih => exact .rule hr hrhs ih

/-- `r'` is in leftmost position of an alternative of `r`, after symbols that can vanish. -/
def LeftEdge (alts : N → List (List (Sym N T))) (r r' : N) : Prop :=
  ∃ pre post, pre ++ .rule r' :: post ∈ alts r ∧ Nullable alts pre

/-- A rule derives itself in leftmost position. -/
def LeftRecursive (alts : N → List (List (Sym N T))) : Prop :=
  ∃ r, Relation.TransGen (LeftEdge alts) r r

/-- An expansion of the first symbol. -/
def Expands (alts : N → List (List (Sym N T))) (a b : List (Sym N T)) : Prop :=
  ∃ r rhs ss, a = .rule r :: ss ∧ rhs ∈ alts r ∧ b = rhs ++ ss

/-- The leftmost expansions of a sequence are finite. -/
abbrev Ends (alts : N → List (List (Sym N T))) (ss : List (Sym N T)) : Prop :=
  Acc (fun b a => Expands alts a b) ss

theorem Ends.nil : Ends alts [] :=
  .intro _ fun _ ⟨_, _, _, e, _⟩ => by cases e

theorem Ends.term (t : T) (ss : List (Sym N T)) : Ends alts (.term t :: ss) :=
  .intro _ fun _ ⟨_, _, _, e, _⟩ => by cases e

/-- The alternatives of `r` end before a sequence that ends, which is needed only if `r` can
vanish. The induction is on the rules in leftmost position of `r`. -/
theorem ends_alt {r : N} (hr : Acc (fun r' r => LeftEdge alts r r') r) {ss : List (Sym N T)}
    (hss : Nullable alts [.rule r] → Ends alts ss) {rhs : List (Sym N T)} (hrhs : rhs ∈ alts r) :
    Ends alts (rhs ++ ss) := by
  induction hr generalizing ss rhs with
  | intro r _ ih =>
    have key : ∀ post pre, pre ++ post = rhs → Nullable alts pre → Ends alts (post ++ ss) := by
      intro post
      induction post with
      | nil =>
        intro pre e hpre
        rw [append_nil] at e
        exact hss (.rule (e ▸ hrhs) (e ▸ hpre) .nil)
      | cons s post ihp =>
        intro pre e hpre
        cases s with
        | term t => exact Ends.term t _
        | rule r' =>
          refine .intro _ fun b hb => ?_
          obtain ⟨_, rhs', _, e', hrhs', rfl⟩ := hb
          obtain ⟨e1, e2⟩ := List.cons.inj e'
          cases e1
          subst e2
          refine ih r' ⟨pre, post, e ▸ hrhs, hpre⟩ (fun hnull => ?_) hrhs'
          exact ihp (pre ++ [.rule r']) (by rw [← e, append_assoc]; rfl) (hpre.append hnull)
    exact key rhs [] rfl .nil

/-- Every sequence ends if the leftmost positions of the rules are well founded. -/
theorem ends_of_acc {ss : List (Sym N T)}
    (h : ∀ r, .rule r ∈ ss → Acc (fun r' r => LeftEdge alts r r') r) : Ends alts ss := by
  induction ss with
  | nil => exact .nil
  | cons s ss ih =>
    cases s with
    | term t => exact .term t ss
    | rule r =>
      have hss := ih fun r' hr' => h r' (mem_cons_of_mem _ hr')
      refine .intro _ fun b hb => ?_
      obtain ⟨_, rhs, _, e, hrhs, rfl⟩ := hb
      obtain ⟨e1, e2⟩ := List.cons.inj e
      cases e1
      subst e2
      exact ends_alt (h r mem_cons_self) (fun _ => hss) hrhs

/-- Without a left-recursive rule the leftmost positions of finitely many rules are well
founded. -/
theorem acc_of_not_leftRecursive {R : Set N} (hR : R.Finite)
    (hclosed : ∀ r r', LeftEdge alts r r' → r' ∈ R) (h : ¬ LeftRecursive alts) (r : N) :
    Acc (fun r' r => LeftEdge alts r r') r := by
  let lt : N → N → Prop := fun a b => Relation.TransGen (LeftEdge alts) b a
  have : IsStrictOrder N lt :=
    { irrefl := fun a ha => h ⟨a, ha⟩, trans := fun a b c hab hbc => hbc.trans hab }
  have hwf : R.WellFoundedOn lt := hR.wellFoundedOn
  have hacc : ∀ r ∈ R, Acc (fun r' r => LeftEdge alts r r') r := by
    intro r hr
    refine hwf.induction hr fun x hx ih => .intro _ fun y hy => ?_
    exact ih y (hclosed x y hy) (.single hy)
  exact .intro _ fun y hy => hacc y (hclosed r y hy)

end LeftRecursion

end BeeLlama.Cfg
