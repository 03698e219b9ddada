import Mathlib.Data.List.Infix

/-!
# Tokens of a prompt (`server_tokens`)

A media chunk takes as many places in the token list as it has tokens, each filled with
`LLAMA_TOKEN_NULL`, and a map has the chunk at the first of them.

* `Layout`: the token list and the map are in step.
* `commonPrefix`: `get_common_prefix`, which finds a chunk at every place that it looks at
  (`commonPrefixLoop_spec`).
* `commonPrefix_eq_left`, `commonPrefix_eq_right`: it is all of one prompt exactly if that prompt is
  a prefix of the other one.
-/

namespace BeeLlama.Server

open List

/-- `LLAMA_TOKEN_NULL`. -/
abbrev tokenNull : Int32 := -1

/-- `mtmd_input_chunk` of an image or of audio: its id and how many tokens it takes. -/
structure MediaChunk where
  id : String
  nTokens : Nat
  deriving DecidableEq, Repr

/-- The tokens from the place `i` on, and the chunks that begin there. -/
inductive Layout (hasMtmd : Bool) : Nat → List Int32 → List (Nat × MediaChunk) → Prop where
  | nil {i : Nat} : Layout hasMtmd i [] []
  | text {i : Nat} {t : Int32} {ts : List Int32} {ms : List (Nat × MediaChunk)}
      (ht : hasMtmd = true → t ≠ tokenNull) (h : Layout hasMtmd (i + 1) ts ms) :
      Layout hasMtmd i (t :: ts) ms
  | media {i : Nat} {c : MediaChunk} {ts : List Int32} {ms : List (Nat × MediaChunk)}
      (hm : hasMtmd = true) (hc : 0 < c.nTokens) (h : Layout hasMtmd (i + c.nTokens) ts ms) :
      Layout hasMtmd i (List.replicate c.nTokens tokenNull ++ ts) ((i, c) :: ms)

/-- `server_tokens` with or without `has_mtmd`: `tokens` and `map_idx_to_media`, in the order of the
keys. -/
structure ServerTokens (hasMtmd : Bool) where
  tokens : List Int32
  media : List (Nat × MediaChunk)
  layout : Layout hasMtmd 0 tokens media
  deriving DecidableEq

namespace ServerTokens

variable {hasMtmd : Bool}

/-- `size`. -/
def size (a : ServerTokens hasMtmd) : Nat := a.tokens.length

/-- `find_chunk`: it throws if no chunk begins there. -/
def findChunk (a : ServerTokens hasMtmd) (idx : Nat) : Option MediaChunk := a.media.lookup idx

/-- The loop of `get_common_prefix`; `none` stands for an exception. -/
def commonPrefixLoop (a b : ServerTokens hasMtmd) : Nat → Nat → Option Nat
  | 0, _ => none
  | fuel + 1, i =>
    if min a.size b.size ≤ i then some (min a.size b.size)
    else
      let ai := a.tokens.getD i 0
      let bi := b.tokens.getD i 0
      if hasMtmd = true ∧ ai = tokenNull ∧ bi = tokenNull then
        match a.findChunk i, b.findChunk i with
        | some ca, some cb =>
          if ca.id = cb.id ∧ ca.nTokens = cb.nTokens then
            commonPrefixLoop a b fuel (i + ca.nTokens)
          else some i
        | _, _ => none
      else if ai = bi then commonPrefixLoop a b fuel (i + 1)
      else some i

/-- The prompt begins with the other one, media included. -/
def IsPrefix (a b : ServerTokens hasMtmd) : Prop := a.tokens <+: b.tokens ∧ a.media <+: b.media

instance : DecidableRel (@IsPrefix hasMtmd) := fun _ _ =>
  inferInstanceAs (Decidable (_ ∧ _))

end ServerTokens

/-! ## The loop -/

section Layout

variable {hasMtmd : Bool} {i : Nat} {ts us : List Int32} {ms ns : List (Nat × MediaChunk)}

theorem Layout.media_nil (h : Layout hasMtmd i [] ms) : ms = [] := by
  generalize e : ([] : List Int32) = ts at h
  cases h with
  | nil => rfl
  | text => cases e
  | @media c ts ms hm hc h =>
    rw [eq_comm, append_eq_nil_iff, replicate_eq_nil_iff] at e
    omega

end Layout

namespace ServerTokens

variable {hasMtmd : Bool}

/-- What is left of a prompt from the place `i` on. -/
structure From (a : ServerTokens hasMtmd) (i : Nat) (ts : List Int32)
    (ms : List (Nat × MediaChunk)) : Prop where
  tokens : a.tokens.drop i = ts
  le : i ≤ a.size
  layout : Layout hasMtmd i ts ms
  find : ∀ j, i ≤ j → a.findChunk j = ms.lookup j

theorem from_zero (a : ServerTokens hasMtmd) : a.From 0 a.tokens a.media :=
  ⟨rfl, Nat.zero_le _, a.layout, fun _ _ => rfl⟩

section From

variable {a b : ServerTokens hasMtmd} {i : Nat} {ts us : List Int32}
  {ms ns : List (Nat × MediaChunk)}

theorem From.size (h : a.From i ts ms) : a.size = i + ts.length := by
  have := h.le
  rw [← h.tokens, length_drop]
  exact (Nat.add_sub_cancel' this).symm

variable {t : Int32} {n : Nat}

theorem From.getD (h : a.From i (t :: ts) ms) : a.tokens.getD i 0 = t := by
  have : (a.tokens.drop i)[0]? = some t := by rw [h.tokens]; rfl
  rw [getElem?_drop, Nat.add_zero] at this
  rw [getD_eq_getElem?_getD, this]
  rfl

theorem From.drop (vs : List Int32) (hn : vs.length = n) (h : a.From i (vs ++ ts) ms) :
    a.tokens.drop (i + n) = ts ∧ i + n ≤ a.size := by
  refine ⟨?_, ?_⟩
  · rw [← drop_drop, h.tokens, drop_left' hn]
  · rw [h.size, length_append, hn]
    omega

theorem From.text {t : Int32} (h : a.From i (t :: ts) ms) (hl : Layout hasMtmd (i + 1) ts ms) :
    a.From (i + 1) ts ms :=
  have hd := From.drop [t] rfl h
  ⟨hd.1, hd.2, hl, fun j hj => h.find j (by omega)⟩

theorem From.media {c : MediaChunk} (hc : 0 < c.nTokens)
    (h : a.From i (List.replicate c.nTokens tokenNull ++ ts) ((i, c) :: ms))
    (hl : Layout hasMtmd (i + c.nTokens) ts ms) : a.From (i + c.nTokens) ts ms := by
  obtain ⟨hd, hle⟩ := h.drop _ length_replicate
  refine ⟨hd, hle, hl, fun j hj => ?_⟩
  rw [h.find j (by omega), lookup_cons, beq_eq_false_iff_ne.mpr (by omega)]

/-- How the loop ends: at the end of a prompt exactly if that one is a prefix of the other. -/
def LoopSpec (i : Nat) (ts us : List Int32) (ms ns : List (Nat × MediaChunk)) (r : Nat) : Prop :=
  (r = i + ts.length ↔ ts <+: us ∧ ms <+: ns) ∧ (r = i + us.length ↔ us <+: ts ∧ ns <+: ms)

theorem LoopSpec.symm {r : Nat} (h : LoopSpec i ts us ms ns r) : LoopSpec i us ts ns ms r :=
  ⟨h.2, h.1⟩

theorem LoopSpec.nil (h : us = [] → ns = []) : LoopSpec i [] us [] ns i := by
  refine ⟨by simp, ?_⟩
  rw [prefix_nil, prefix_nil]
  constructor
  · intro he
    have : us = [] := length_eq_zero_iff.mp (by omega)
    exact ⟨this, h this⟩
  · rintro ⟨rfl, -⟩
    rfl

theorem LoopSpec.stop (hts : ts ≠ []) (hus : us ≠ []) (h : ¬ (ts <+: us ∧ ms <+: ns))
    (h' : ¬ (us <+: ts ∧ ns <+: ms)) : LoopSpec i ts us ms ns i := by
  have := length_pos_iff.mpr hts
  have := length_pos_iff.mpr hus
  exact ⟨⟨fun he => absurd he (by omega), fun hp => absurd hp h⟩,
    ⟨fun he => absurd he (by omega), fun hp => absurd hp h'⟩⟩

/-- The same tokens before both, with the same chunk if one begins there. -/
theorem LoopSpec.append {n r : Nat} (h : LoopSpec (i + n) ts us ms ns r) (vs : List Int32)
    (hn : vs.length = n) (head : List (Nat × MediaChunk)) :
    LoopSpec i (vs ++ ts) (vs ++ us) (head ++ ms) (head ++ ns) r := by
  rw [LoopSpec, length_append, length_append, hn, prefix_append_right_inj,
    prefix_append_right_inj, prefix_append_right_inj, prefix_append_right_inj,
    ← Nat.add_assoc, ← Nat.add_assoc]
  exact h

theorem replicate_append_ne_nil (hn : 0 < n) (ts : List Int32) :
    List.replicate n tokenNull ++ ts ≠ [] := by
  cases n with
  | zero => omega
  | succ n => exact cons_ne_nil _ _

theorem cons_not_prefix_replicate (hn : 0 < n) (ht : t ≠ tokenNull) :
    ¬ t :: ts <+: List.replicate n tokenNull ++ us := by
  cases n with
  | zero => omega
  | succ n => exact fun h => ht (cons_prefix_cons.mp h).1

theorem replicate_not_prefix_cons (hn : 0 < n) (ht : t ≠ tokenNull) :
    ¬ List.replicate n tokenNull ++ us <+: t :: ts := by
  cases n with
  | zero => omega
  | succ n => exact fun h => ht (cons_prefix_cons.mp h).1.symm

theorem From.getD_media (hn : 0 < n)
    (h : a.From i (List.replicate n tokenNull ++ ts) ms) : a.tokens.getD i 0 = tokenNull := by
  cases n with
  | zero => omega
  | succ n => exact h.getD

/-- The loop finds a chunk wherever it looks for one, and ends at the end of the common prefix. -/
theorem commonPrefixLoop_spec (fuel : Nat) (ha : a.From i ts ms) (hb : b.From i us ns)
    (hf : ts.length < fuel) :
    ∃ r, commonPrefixLoop a b fuel i = some r ∧ LoopSpec i ts us ms ns r := by
  induction fuel generalizing i ts us ms ns with
  | zero => omega
  | succ fuel ih =>
    have hsa := ha.size
    have hsb := hb.size
    unfold commonPrefixLoop
    cases hla : ha.layout with
    | nil =>
      have hi : a.size = i := hsa
      refine ⟨i, by rw [if_pos (by omega), hi, min_eq_left (by omega)], .nil fun e => ?_⟩
      exact (e ▸ hb.layout).media_nil
    | @text _ t ts _ ht hl =>
      cases hlb : hb.layout with
      | nil =>
        have hi : b.size = i := hsb
        refine ⟨i, by rw [if_pos (by omega), hi, min_eq_right (by omega)], LoopSpec.symm (.nil ?_)⟩
        exact fun e => nomatch e
      | @text _ u us _ hu hl' =>
        have hlt : ¬ min a.size b.size ≤ i := by
          simp only [length_cons] at hsa hsb
          omega
        have hnull : ¬ (hasMtmd = true ∧ t = tokenNull ∧ u = tokenNull) := fun h => ht h.1 h.2.1
        rw [if_neg hlt, ha.getD, hb.getD]
        dsimp only
        rw [if_neg hnull]
        by_cases htu : t = u
        · subst htu
          obtain ⟨r, hr, hspec⟩ := ih (ha.text hl) (hb.text hl')
            (by simp only [length_cons] at hf; omega)
          exact ⟨r, by rw [if_pos rfl, hr], hspec.append [t] rfl []⟩
        · refine ⟨i, if_neg htu, .stop (cons_ne_nil _ _) (cons_ne_nil _ _) ?_ ?_⟩
          · exact fun h => htu (cons_prefix_cons.mp h.1).1
          · exact fun h => htu (cons_prefix_cons.mp h.1).1.symm
      | @media _ d us _ hm hd hl' =>
        have hlt : ¬ min a.size b.size ≤ i := by
          simp only [length_cons, length_append, length_replicate] at hsa hsb
          omega
        have hne := ht hm
        rw [if_neg hlt, ha.getD, hb.getD_media hd]
        dsimp only
        rw [if_neg fun h => hne h.2.1, if_neg hne]
        refine ⟨i, rfl, .stop (cons_ne_nil _ _) (replicate_append_ne_nil hd _) ?_ ?_⟩
        · exact fun h => cons_not_prefix_replicate hd hne h.1
        · exact fun h => replicate_not_prefix_cons hd hne h.1
    | @media _ c ts ms hm hc hl =>
      cases hlb : hb.layout with
      | nil =>
        have hi : b.size = i := hsb
        refine ⟨i, by rw [if_pos (by omega), hi, min_eq_right (by omega)], LoopSpec.symm (.nil ?_)⟩
        exact fun e => absurd e (replicate_append_ne_nil hc _)
      | @text _ u us _ hu hl' =>
        have hlt : ¬ min a.size b.size ≤ i := by
          simp only [length_cons, length_append, length_replicate] at hsa hsb
          omega
        have hne := hu hm
        rw [if_neg hlt, ha.getD_media hc, hb.getD]
        dsimp only
        rw [if_neg fun h => hne h.2.2, if_neg hne.symm]
        refine ⟨i, rfl, .stop (replicate_append_ne_nil hc _) (cons_ne_nil _ _) ?_ ?_⟩
        · exact fun h => replicate_not_prefix_cons hc hne h.1
        · exact fun h => cons_not_prefix_replicate hc hne h.1
      | @media _ d us ns _ hd hl' =>
        have hlt : ¬ min a.size b.size ≤ i := by
          simp only [length_append, length_replicate] at hsa hsb
          omega
        have hfa : a.findChunk i = some c := by rw [ha.find i le_rfl, lookup_cons_self]
        have hfb : b.findChunk i = some d := by rw [hb.find i le_rfl, lookup_cons_self]
        rw [if_neg hlt, ha.getD_media hc, hb.getD_media hd, hfa, hfb]
        dsimp only
        rw [if_pos ⟨hm, rfl, rfl⟩]
        by_cases hcd : c = d
        · subst hcd
          obtain ⟨r, hr, hspec⟩ := ih (ha.media hc hl) (hb.media hc hl') (by
            simp only [length_append, length_replicate] at hf
            omega)
          exact ⟨r, by rw [if_pos ⟨rfl, rfl⟩, hr],
            hspec.append _ length_replicate [(i, c)]⟩
        · -- different chunks at one place
          have hne : ¬ (c.id = d.id ∧ c.nTokens = d.nTokens) := fun h => hcd (by
            cases c
            cases d
            exact MediaChunk.mk.injEq .. ▸ h)
          refine ⟨i, if_neg hne, .stop (replicate_append_ne_nil hc _)
            (replicate_append_ne_nil hd _) ?_ ?_⟩
          · exact fun h => hcd (Prod.mk.inj (cons_prefix_cons.mp h.2).1).2
          · exact fun h => hcd (Prod.mk.inj (cons_prefix_cons.mp h.2).1).2.symm

end From

variable (a b : ServerTokens hasMtmd)

theorem commonPrefixLoop_isSome : (commonPrefixLoop a b (a.size + 1) 0).isSome = true := by
  obtain ⟨r, hr, -⟩ := commonPrefixLoop_spec (a.size + 1) a.from_zero b.from_zero
    (Nat.lt_succ_self _)
  rw [hr]
  rfl

/-- `get_common_prefix`. -/
def commonPrefix : Nat := (commonPrefixLoop a b (a.size + 1) 0).get (commonPrefixLoop_isSome a b)

theorem commonPrefix_spec : LoopSpec 0 a.tokens b.tokens a.media b.media (a.commonPrefix b) := by
  obtain ⟨r, hr, hspec⟩ :=
    commonPrefixLoop_spec (a.size + 1) a.from_zero b.from_zero (Nat.lt_succ_self _)
  have he : a.commonPrefix b = r := by
    rw [commonPrefix, Option.get_of_eq_some _ hr]
  exact he ▸ hspec

/-- The common prefix is all of the first prompt. -/
theorem commonPrefix_eq_left : a.commonPrefix b = a.size ↔ a.IsPrefix b := by
  have h := (commonPrefix_spec a b).1
  rwa [Nat.zero_add] at h

/-- The common prefix is all of the second prompt. -/
theorem commonPrefix_eq_right : a.commonPrefix b = b.size ↔ b.IsPrefix a := by
  have h := (commonPrefix_spec a b).2
  rwa [Nat.zero_add] at h

end ServerTokens

end BeeLlama.Server
