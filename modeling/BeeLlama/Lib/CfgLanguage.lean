import BeeLlama.Lib.Cfg
import Mathlib.Computability.Language

/-!
# The languages of a context-free grammar

The words that a sequence of symbols derives, as a `Language`.

* `lang_append`: sequences are products.
* `lang_rule`: a rule is the union of its alternatives.
* `lang_star`: a rule that repeats itself at the right is a Kleene star.
* `mem_lang_chain`: rules that each refer to the one before are the powers up to a bound.
-/

namespace BeeLlama.Cfg

open Computability List

variable {N T C : Type} {alts : N → List (List (Sym N T))} {accepts : T → C → Prop}

/-- The words of a sequence of symbols. -/
def lang (alts : N → List (List (Sym N T))) (accepts : T → C → Prop) (ss : List (Sym N T)) :
    Language C := {w | Derives alts accepts ss w}

variable {w : List C} {r : N} {a : List (Sym N T)}

theorem mem_lang {ss : List (Sym N T)} :
    w ∈ lang alts accepts ss ↔ Derives alts accepts ss w := Iff.rfl

@[simp] theorem lang_nil : lang alts accepts [] = 1 := by
  ext w
  rw [mem_lang, derives_nil_iff, Language.mem_one]

theorem lang_append (a b : List (Sym N T)) :
    lang alts accepts (a ++ b) = lang alts accepts a * lang alts accepts b := by
  ext w
  rw [mem_lang, derives_append_iff, Language.mem_mul]
  constructor
  · rintro ⟨u, v, rfl, hu, hv⟩
    exact ⟨u, hu, v, hv, rfl⟩
  · rintro ⟨u, hu, v, hv, rfl⟩
    exact ⟨u, v, rfl, hu, hv⟩

/-- A rule is the union of its alternatives. -/
theorem mem_lang_rule :
    w ∈ lang alts accepts [.rule r] ↔ ∃ rhs ∈ alts r, w ∈ lang alts accepts rhs := by
  rw [mem_lang, derives_rule_iff]
  simp only [append_nil, mem_lang]

theorem mem_lang_term {t : T} : w ∈ lang alts accepts [.term t] ↔ ∃ c, w = [c] ∧ accepts t c := by
  rw [mem_lang, derives_term_iff]
  simp

/-- A rule with an alternative and the empty one. -/
theorem lang_optional (h : alts r = [a, []]) :
    lang alts accepts [.rule r] = lang alts accepts a + 1 := by
  ext w
  rw [mem_lang_rule, h, Language.mem_add, exists_mem_cons_iff]
  simp only [mem_singleton, exists_eq_left, lang_nil]

/-- What is derived by a sequence and a rule that repeats itself behind `a`. -/
theorem derives_star {a ss : List (Sym N T)} (h : alts r = [a ++ [.rule r], []])
    (hw : Derives alts accepts ss w) (b : List (Sym N T)) (e : ss = b ++ [.rule r]) :
    w ∈ lang alts accepts b * (lang alts accepts a)∗ := by
  induction hw generalizing b with
  | nil => simp at e
  | @term t c ss w hc hd ih =>
    cases b with
    | nil => cases e
    | cons s b =>
      obtain ⟨rfl, e'⟩ := List.cons.inj e
      obtain ⟨u, hu, v, hv, rfl⟩ := ih b e'
      exact ⟨c :: u, .term hc hu, v, hv, rfl⟩
  | @rule r' rhs ss u v hr hrhs hd ihrhs ih =>
    cases b with
    | nil =>
      obtain ⟨⟨rfl⟩, rfl⟩ := List.cons.inj e
      obtain rfl := derives_nil_iff.mp hd
      rw [lang_nil, one_mul, append_nil, ← Language.one_add_self_mul_kstar_eq_kstar]
      rw [h, mem_cons, mem_singleton] at hr
      rcases hr with rfl | rfl
      · exact .inr (ihrhs a rfl)
      · exact .inl (derives_nil_iff.mp hrhs)
    | cons s b =>
      obtain ⟨rfl, e'⟩ := List.cons.inj e
      obtain ⟨x, hx, y, hy, rfl⟩ := ih b e'
      exact ⟨u ++ x, .rule hr hrhs hx, y, hy, append_assoc _ _ _⟩

/-- A rule that repeats itself behind `a` is the Kleene star of `a`. -/
theorem lang_star (h : alts r = [a ++ [.rule r], []]) :
    lang alts accepts [.rule r] = (lang alts accepts a)∗ := by
  apply le_antisymm
  · intro w hw
    have := derives_star h hw [] rfl
    rwa [lang_nil, one_mul] at this
  · have e : lang alts accepts [.rule r] =
        lang alts accepts a * lang alts accepts [.rule r] + 1 := by
      rw [← lang_append]
      exact lang_optional h
    rw [Language.kstar_eq_iSup_pow]
    refine iSup_le fun n => ?_
    induction n with
    | zero =>
      rw [pow_zero, e]
      exact le_sup_right
    | succ n ih =>
      rw [pow_succ', e]
      exact le_sup_of_le_left (mul_le_mul_right ih _)

/-- Rules that each refer to the one before derive the powers up to their number. -/
theorem mem_lang_chain {r : Nat → N} (n : Nat) (hzero : alts (r 0) = [a, []])
    (hsucc : ∀ i < n, alts (r (i + 1)) = [a ++ [.rule (r i)], []]) (w : List C) :
    w ∈ lang alts accepts [.rule (r n)] ↔ ∃ k ≤ n + 1, w ∈ lang alts accepts a ^ k := by
  induction n generalizing w with
  | zero =>
    rw [lang_optional hzero]
    constructor
    · rintro (h | h)
      · exact ⟨1, le_rfl, by rwa [pow_one]⟩
      · exact ⟨0, by omega, by rwa [pow_zero]⟩
    · rintro ⟨k, hk, h⟩
      obtain rfl | rfl : k = 0 ∨ k = 1 := by omega
      · rw [pow_zero] at h
        exact .inr h
      · rw [pow_one] at h
        exact .inl h
  | succ n ih =>
    have hrec := ih fun i hi => hsucc i (by omega)
    rw [lang_optional (hsucc n (by omega)), lang_append]
    constructor
    · rintro (⟨u, hu, v, hv, rfl⟩ | h)
      · obtain ⟨k, hk, hv⟩ := (hrec v).mp hv
        exact ⟨k + 1, by omega, by rw [pow_succ']; exact ⟨u, hu, v, hv, rfl⟩⟩
      · exact ⟨0, by omega, by rwa [pow_zero]⟩
    · rintro ⟨k, hk, h⟩
      cases k with
      | zero =>
        rw [pow_zero] at h
        exact .inr h
      | succ k =>
        rw [pow_succ'] at h
        obtain ⟨u, hu, v, hv, rfl⟩ := h
        exact .inl ⟨u, hu, v, (hrec v).mpr ⟨k, by omega, hv⟩, rfl⟩

end BeeLlama.Cfg
