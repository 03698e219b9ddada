import BeeLlama.Lib.Run
import BeeLlama.Server.Tokens
import Mathlib.Data.List.GetD

/-!
# Edits of a token list (`server_tokens::push_back`, `keep_first`)

* `RawTokens`: the two members of `server_tokens`, in step or not. An exception carries the object
  as it is left.
* `Layout.mem`, `Layout.disjoint`, `Layout.null`: the chunks are runs of placeholders that do not
  meet, and there are no other placeholders.
* `keepFirst_exact`: when `keep_first` refuses exactly the cuts inside a chunk.
* `pushBackTokens_exact`: when appending a list appends its tokens and its chunks.
-/

namespace BeeLlama.Server

open List

/-- `tokens` and `map_idx_to_media`. -/
structure RawTokens where
  tokens : List Int32 := []
  media : List (Nat × MediaChunk) := []
  deriving DecidableEq

namespace RawTokens

/-- `map_idx_to_media[idx] = chunk`. -/
def setMedia (a : RawTokens) (idx : Nat) (chunk : MediaChunk) : RawTokens :=
  { a with media := a.media.filter (·.1 < idx) ++ (idx, chunk) :: a.media.filter (idx < ·.1) }

/-- `push_back` of a token. -/
def pushBack (a : RawTokens) (tok : Int32) : Except RawTokens RawTokens :=
  if tok = tokenNull then .error a else .ok { a with tokens := a.tokens ++ [tok] }

/-- `push_back` of a chunk of an image or of audio. -/
def pushBackMedia (a : RawTokens) (chunk : MediaChunk) : RawTokens :=
  { a with tokens := a.tokens ++ List.replicate chunk.nTokens tokenNull }.setMedia
    a.tokens.length chunk

/-- `keep_first`, for `n` up to the size. -/
def keepFirst (hasMtmd : Bool) (a : RawTokens) (n : Nat) : Except RawTokens RawTokens :=
  if hasMtmd = true then
    if n = a.tokens.length then .ok a
    else if (0 < n ∧ a.tokens.getD (n - 1) 0 = tokenNull ∧ a.tokens.getD n 0 = tokenNull) ∧
        a.media.lookup (n - 1) = none then .error a
    else .ok ⟨a.tokens.take n, a.media.filter (·.1 < n)⟩
  else .ok { a with tokens := a.tokens.take n }

/-- The loop over the chunks of the other list. Its iterator stays where it is. -/
def copyMedia (startIdx : Nat) (it : List (Nat × MediaChunk)) :
    Nat → RawTokens → Option RawTokens
  | 0, _ => none
  | fuel + 1, a =>
    match it with
    | [] => some a
    | (idx, chunk) :: _ => copyMedia startIdx it fuel (a.setMedia (startIdx + idx) chunk)

/-- `push_back` of another object, each with its `has_mtmd`; `none` if the fuel runs out or the
assertion fails. -/
def pushBackTokens (fuel : Nat) (aMtmd : Bool) (a : RawTokens) (bMtmd : Bool) (b : RawTokens) :
    Option (Except RawTokens RawTokens) :=
  match b.tokens.foldlM pushBack a with
  | .error a' => some (.error a')
  | .ok a' =>
    if bMtmd = true then
      if aMtmd = true then (copyMedia a.tokens.length b.media fuel a').map .ok else none
    else some (.ok a')

/-- The place `n` is inside of a chunk. -/
def Inside (a : RawTokens) (n : Nat) : Prop := ∃ m ∈ a.media, m.1 < n ∧ n < m.1 + m.2.nTokens

instance (a : RawTokens) : DecidablePred a.Inside :=
  fun _ => inferInstanceAs (Decidable (∃ _ ∈ _, _))

/-- What `keep_first` should do: no chunk is cut, and the chunks before the cut are kept. -/
def Truncates (a : RawTokens) (n : Nat) : Prop :=
  keepFirst true a n =
    if a.Inside n then .error a
    else .ok ⟨a.tokens.take n, a.media.filter fun m => m.1 + m.2.nTokens ≤ n⟩

/-- The cut is neither after the first token of a longer chunk, nor between a longer chunk and the
next one. -/
def CutOk (a : RawTokens) (n : Nat) : Prop :=
  ∀ m ∈ a.media, 2 ≤ m.2.nTokens → n ≠ m.1 + 1 ∧ (n = m.1 + m.2.nTokens → n ∉ a.media.map Prod.fst)

instance (a : RawTokens) (n : Nat) : Decidable (a.CutOk n) :=
  inferInstanceAs (Decidable (∀ _ ∈ _, _))

/-- A call that changes a list with media. -/
inductive Edit where
  | token (tok : Int32)
  | text (toks : List Int32)
  | media (chunk : MediaChunk)
  | keepFirst (n : Nat)

/-- The object after a call, be it that the call throws. -/
def edit (a : RawTokens) : Edit → Except RawTokens RawTokens
  | .token tok => pushBack a tok
  | .text toks => toks.foldlM pushBack a
  | .media chunk => .ok (pushBackMedia a chunk)
  | .keepFirst n => keepFirst true a n

/-- The object that a call leaves. -/
def left : Except RawTokens RawTokens → RawTokens
  | .ok a => a
  | .error a => a

/-- A chunk has tokens, and a cut is within the list and meets the condition. -/
def EditOk (a : RawTokens) : Edit → Prop
  | .media chunk => 0 < chunk.nTokens
  | .keepFirst n => n ≤ a.tokens.length ∧ a.CutOk n
  | _ => True

/-- A list with media and its calls. -/
def edits (a : RawTokens) : Sys RawTokens Edit :=
  .ofStep (· = a) fun a op => some (left (edit a op))

end RawTokens

section Layout

variable {hasMtmd : Bool} {i k l n : Nat} {ts us : List Int32} {ms ns : List (Nat × MediaChunk)}
  {c d : MediaChunk}

/-- A chunk is within the tokens. -/
theorem Layout.mem (h : Layout hasMtmd i ts ms) (hm : (k, c) ∈ ms) :
    i ≤ k ∧ 0 < c.nTokens ∧ k + c.nTokens ≤ i + ts.length := by
  induction h with
  | nil => cases hm
  | text ht h ih =>
    obtain ⟨h1, h2, h3⟩ := ih hm
    rw [length_cons]
    omega
  | media _ hc h ih =>
    rw [length_append, length_replicate]
    rcases mem_cons.mp hm with he | hm
    · cases he
      omega
    · obtain ⟨h1, h2, h3⟩ := ih hm
      omega

/-- Two chunks are the same one or do not meet. -/
theorem Layout.disjoint (h : Layout hasMtmd i ts ms) (hc : (k, c) ∈ ms) (hd : (l, d) ∈ ms) :
    (k = l ∧ c = d) ∨ k + c.nTokens ≤ l ∨ l + d.nTokens ≤ k := by
  induction h with
  | nil => cases hc
  | text _ _ ih => exact ih hc hd
  | media _ _ h ih =>
    rcases mem_cons.mp hc with e | hc' <;> rcases mem_cons.mp hd with e' | hd'
    · cases e
      cases e'
      exact .inl ⟨rfl, rfl⟩
    · cases e
      exact .inr (.inl (h.mem hd').1)
    · cases e'
      exact .inr (.inr (h.mem hc').1)
    · exact ih hc' hd'

/-- A placeholder is in a chunk. -/
theorem Layout.null (h : Layout true i ts ms) (hn : n < ts.length) :
    ts.getD n 0 = tokenNull ↔ ∃ m ∈ ms, m.1 ≤ i + n ∧ i + n < m.1 + m.2.nTokens := by
  induction h generalizing n with
  | nil => cases hn
  | @text i t ts ms ht h ih =>
    cases n with
    | zero =>
      refine iff_of_false (ht rfl) ?_
      rintro ⟨m, hm, hle, -⟩
      exact absurd (h.mem hm).1 (by omega)
    | succ n =>
      rw [getD_cons_succ, ih (Nat.lt_of_succ_lt_succ hn), Nat.add_right_comm, Nat.add_assoc]
  | @media i c ts ms _ hc h ih =>
    rw [length_append, length_replicate] at hn
    by_cases hlt : n < c.nTokens
    · rw [getD_append _ _ _ _ (by simpa using hlt), getD_replicate _ hlt]
      exact iff_of_true rfl ⟨_, mem_cons_self, Nat.le_add_right .., Nat.add_lt_add_left hlt _⟩
    · obtain ⟨n, rfl⟩ := Nat.exists_eq_add_of_le (Nat.le_of_not_lt hlt)
      rw [getD_append_right _ _ _ _ (by simp), length_replicate, Nat.add_sub_cancel_left,
        ih (by omega), ← Nat.add_assoc]
      constructor
      · rintro ⟨m, hm, h⟩
        exact ⟨m, mem_cons_of_mem _ hm, h⟩
      · rintro ⟨m, hm, h⟩
        rcases mem_cons.mp hm with rfl | hm
        · exact absurd h.2 (by dsimp only; omega)
        · exact ⟨m, hm, h⟩

theorem Layout.append (h : Layout hasMtmd i ts ms) (h' : Layout hasMtmd (i + ts.length) us ns) :
    Layout hasMtmd i (ts ++ us) (ms ++ ns) := by
  induction h with
  | nil => exact h'
  | @text i t ts ms ht h ih =>
    rw [length_cons, Nat.add_comm ts.length, ← Nat.add_assoc] at h'
    exact .text ht (ih h')
  | @media i c ts ms hm hc h ih =>
    rw [length_append, length_replicate, ← Nat.add_assoc] at h'
    rw [append_assoc]
    exact .media hm hc (ih h')

/-- The part before a place that is in no chunk. -/
theorem Layout.take (h : Layout hasMtmd i ts ms)
    (hin : ∀ m ∈ ms, ¬ (m.1 < i + n ∧ i + n < m.1 + m.2.nTokens)) :
    Layout hasMtmd i (ts.take n) (ms.filter fun m => m.1 + m.2.nTokens ≤ i + n) := by
  induction h generalizing n with
  | nil =>
    rw [take_nil]
    exact .nil
  | @text i t ts ms ht h ih =>
    cases n with
    | zero =>
      rw [take_zero, filter_eq_nil_iff.mpr fun m hm => ?_]
      · exact .nil
      · have := (h.mem hm).1
        simp only [decide_eq_true_eq]
        omega
    | succ n =>
      rw [show i + (n + 1) = i + 1 + n by omega] at hin ⊢
      exact .text ht (ih hin)
  | @media i c ts ms hm hc h ih =>
    cases n with
    | zero =>
      rw [take_zero, filter_eq_nil_iff.mpr fun m hm' => ?_]
      · exact .nil
      · have : i ≤ m.1 ∧ 0 < m.2.nTokens := by
          rcases mem_cons.mp hm' with rfl | hm'
          · exact ⟨le_rfl, hc⟩
          · have := h.mem hm'
            omega
        simp only [decide_eq_true_eq]
        omega
    | succ n =>
      have hle : c.nTokens ≤ n + 1 := by
        have := hin _ mem_cons_self
        dsimp only at this
        omega
      obtain ⟨k, hk⟩ := Nat.exists_eq_add_of_le hle
      rw [hk, ← Nat.add_assoc] at hin ⊢
      rw [take_append, take_of_length_le (by simp), length_replicate,
        Nat.add_sub_cancel_left, filter_cons_of_pos (by simp)]
      exact .media hm hc (ih fun m hm => hin m (mem_cons_of_mem _ hm))

theorem lookup_eq_none : ms.lookup k = none ↔ ∀ m ∈ ms, m.1 ≠ k := by
  rw [lookup_eq_none_iff]
  refine forall₂_congr fun m _ => ?_
  rw [bne_iff_ne, ne_comm]

end Layout

namespace RawTokens

variable {a : RawTokens} {n : Nat}

/-- A cut in no chunk has a chunk before it exactly if the chunk begins before it. -/
theorem filter_eq (h : Layout true 0 a.tokens a.media) (hin : ¬ a.Inside n) :
    a.media.filter (·.1 < n) = a.media.filter fun m => m.1 + m.2.nTokens ≤ n := by
  refine filter_congr fun m hm => decide_eq_decide.mpr ?_
  have := (h.mem hm).2.1
  have : ¬ (m.1 < n ∧ n < m.1 + m.2.nTokens) := fun h => hin ⟨m, hm, h⟩
  omega

/-- Which cuts are refused. -/
def Refused (a : RawTokens) (n : Nat) : Prop :=
  ((∃ m ∈ a.media, m.1 < n ∧ n ≤ m.1 + m.2.nTokens) ∧
    ∃ m ∈ a.media, m.1 ≤ n ∧ n < m.1 + m.2.nTokens) ∧ ∀ m ∈ a.media, m.1 + 1 ≠ n

instance : Decidable (a.Refused n) := inferInstanceAs (Decidable ((_ ∧ _) ∧ _))

theorem check_iff (h : Layout true 0 a.tokens a.media) (hn : n < a.tokens.length) :
    ((0 < n ∧ a.tokens.getD (n - 1) 0 = tokenNull ∧ a.tokens.getD n 0 = tokenNull) ∧
      a.media.lookup (n - 1) = none) ↔ a.Refused n := by
  cases n with
  | zero =>
    refine iff_of_false (fun h => absurd h.1.1 (lt_irrefl 0)) ?_
    rintro ⟨⟨⟨m, -, hm, -⟩, -⟩, -⟩
    exact absurd hm (Nat.not_lt_zero _)
  | succ n =>
    rw [Nat.add_sub_cancel, h.null (Nat.lt_of_succ_lt hn), h.null hn, lookup_eq_none, Refused]
    simp only [Nat.zero_add, Nat.zero_le, true_and, Nat.lt_succ_iff, Nat.succ_le_iff, ne_eq,
      Nat.add_right_cancel_iff]

/-- In a chunk the cut is refused, but after the first token. -/
theorem refused_iff_of_inside (h : Layout true 0 a.tokens a.media) (hin : a.Inside n) :
    a.Refused n ↔ a.CutOk n := by
  obtain ⟨m, hm, h1, h2⟩ := hin
  constructor
  · refine fun hr m' hm' _ => ⟨fun e => hr.2 m' hm' e.symm, fun _ hk => ?_⟩
    obtain ⟨⟨k, d⟩, hd, rfl⟩ := mem_map.mp hk
    rcases h.disjoint hm hd with ⟨e, -⟩ | e | e <;> dsimp only at * <;> omega
  · refine fun hc => ⟨⟨⟨m, hm, h1, h2.le⟩, m, hm, h1.le, h2⟩, fun m' hm' e => ?_⟩
    have hpos := (h.mem hm').2.1
    rcases h.disjoint hm hm' with ⟨e1, e2⟩ | e' | e'
    · refine (hc m' hm' ?_).1 e.symm
      rw [← e2]
      omega
    · omega
    · omega

/-- At a border the cut is refused between a longer chunk and the next one. -/
theorem refused_iff_of_not_inside (h : Layout true 0 a.tokens a.media) (hin : ¬ a.Inside n) :
    a.Refused n ↔ ¬ a.CutOk n := by
  constructor
  · rintro ⟨⟨⟨m, hm, h1, h2⟩, m', hm', h3, h4⟩, hne⟩ hc
    have he : n = m.1 + m.2.nTokens := by
      by_contra hne
      exact hin ⟨m, hm, h1, by omega⟩
    have he' : m'.1 = n := by
      by_contra hne
      exact hin ⟨m', hm', by omega, h4⟩
    have := hne m hm
    exact (hc m hm (by omega)).2 he (mem_map.mpr ⟨m', hm', he'⟩)
  · intro hc
    simp only [CutOk, not_forall] at hc
    obtain ⟨m, hm, h2, hc⟩ := hc
    have hne : n ≠ m.1 + 1 := fun e => hin ⟨m, hm, by omega, by omega⟩
    simp only [ne_eq, hne, not_false_eq_true, true_and, not_forall, not_not] at hc
    obtain ⟨he, hk⟩ := hc
    obtain ⟨m', hm', rfl⟩ := mem_map.mp hk
    have hpos := (h.mem hm').2.1
    refine ⟨⟨⟨m, hm, by omega, he.le⟩, m', hm', le_rfl, by omega⟩, fun l hl e => ?_⟩
    rcases h.disjoint hm hl with ⟨e1, e2⟩ | e' | e'
    · omega
    · omega
    · omega

theorem truncates_iff (h : Layout true 0 a.tokens a.media) (hn : n ≤ a.tokens.length) :
    a.Truncates n ↔ a.CutOk n := by
  rw [Truncates, keepFirst, if_pos rfl]
  rcases Nat.lt_or_eq_of_le hn with hn | rfl
  · rw [if_neg hn.ne, if_congr (check_iff h hn) rfl rfl]
    by_cases hin : a.Inside n
    · rw [if_pos hin, ← refused_iff_of_inside h hin]
      by_cases hr : a.Refused n
      · exact iff_of_true (if_pos hr) hr
      · rw [if_neg hr]
        exact iff_of_false nofun hr
    · rw [if_neg hin, filter_eq h hin, ← not_iff_not, ← refused_iff_of_not_inside h hin]
      by_cases hr : a.Refused n
      · rw [if_pos hr]
        exact iff_of_true nofun hr
      · exact iff_of_false (not_not.mpr (if_neg hr)) hr
  · have hend : ∀ m ∈ a.media, m.1 + m.2.nTokens ≤ a.tokens.length := fun m hm => by
      have := (h.mem hm).2.2
      omega
    have hin : ¬ a.Inside a.tokens.length := fun ⟨m, hm, _, h⟩ => absurd (hend m hm) (by omega)
    rw [if_pos rfl, if_neg hin, take_length,
      filter_eq_self.mpr fun m hm => decide_eq_true (hend m hm)]
    refine iff_of_true rfl fun m hm h2 => ⟨fun e => ?_, fun _ hk => ?_⟩
    · have := hend m hm
      omega
    · obtain ⟨m', hm', e⟩ := mem_map.mp hk
      have := hend m' hm'
      have := (h.mem hm').2.1
      omega

/-! ## Runs -/

theorem pushBack_layout {t : Int32} (h : Layout true 0 a.tokens a.media) :
    Layout true 0 (left (pushBack a t)).tokens (left (pushBack a t)).media := by
  unfold pushBack
  split
  · exact h
  · next ht =>
    have := h.append (.text (fun _ => ht) .nil)
    rwa [append_nil] at this

theorem pushText_layout {ts : List Int32} (h : Layout true 0 a.tokens a.media) :
    Layout true 0 (left (ts.foldlM pushBack a)).tokens (left (ts.foldlM pushBack a)).media := by
  induction ts generalizing a with
  | nil => exact h
  | cons t ts ih =>
    rw [foldlM_cons]
    have ht := @pushBack_layout a t h
    cases e : pushBack a t with
    | error a' =>
      rw [e] at ht
      exact ht
    | ok a' =>
      rw [e] at ht
      exact ih ht

theorem setMedia_eq {idx : Nat} {chunk : MediaChunk} (h : ∀ m ∈ a.media, m.1 < idx) :
    a.setMedia idx chunk = { a with media := a.media ++ [(idx, chunk)] } := by
  rw [setMedia, filter_eq_self.mpr fun m hm => decide_eq_true (h m hm),
    filter_eq_nil_iff.mpr fun m hm => ?_]
  have := h m hm
  simp only [decide_eq_true_eq]
  omega

theorem edit_layout {op : Edit} (h : Layout true 0 a.tokens a.media) (hop : a.EditOk op) :
    Layout true 0 (left (edit a op)).tokens (left (edit a op)).media := by
  cases op with
  | token tok => exact pushBack_layout h
  | text toks => exact pushText_layout h
  | media chunk =>
    have hlt : ∀ m ∈ a.media, m.1 < a.tokens.length := fun m hm => by
      have := h.mem hm
      omega
    have hend := h.append (.media rfl hop .nil)
    rw [append_nil, Nat.zero_add] at hend
    rw [edit, left, pushBackMedia, setMedia_eq]
    · exact hend
    · exact hlt
  | keepFirst n =>
    rw [edit, (truncates_iff h hop.1).mpr hop.2]
    split
    · exact h
    · next hin =>
      have := h.take (n := n) fun m hm hlt => hin ⟨m, hm, by omega, by omega⟩
      rwa [Nat.zero_add] at this

/-- A cut is refused exactly inside of a chunk, and leaves else what is before it, exactly where
the condition holds; in a run whose cuts meet it the chunks stay in step with the tokens. -/
theorem keepFirst_exact (a : RawTokens) (h : Layout true 0 a.tokens a.media) :
    (∀ n ≤ a.tokens.length, (a.Truncates n ↔ a.CutOk n)) ∧
    ∀ b : RawTokens, (edits a).Reach EditOk b → Layout true 0 b.tokens b.media := by
  refine ⟨fun n => truncates_iff h, fun b hr => ?_⟩
  refine Sys.Reach.inv (I := fun a => Layout true 0 a.tokens a.media) ⟨?_, ?_⟩ hr
  · rintro s rfl
    exact h
  · rintro s op s' hs - e hop
    cases e
    exact edit_layout hs hop

/-- A chunk with two tokens, a chunk with one, and a token. -/
def imagesAndText : RawTokens :=
  ⟨[tokenNull, tokenNull, tokenNull, 7], [(0, ⟨"img", 2⟩), (2, ⟨"img", 1⟩)]⟩

theorem imagesAndText_layout : Layout true 0 imagesAndText.tokens imagesAndText.media :=
  .media (c := ⟨"img", 2⟩) rfl (by decide)
    (.media (c := ⟨"img", 1⟩) rfl (by decide) (.text (by decide) .nil))

theorem keepFirst_exact_imagesAndText : imagesAndText.Truncates 3 :=
  ((keepFirst_exact _ imagesAndText_layout).1 3 (by decide)).mpr (by decide)

/-- The first chunk is cut after its first token, and the cut between the chunks is refused. -/
theorem keepFirst_imagesAndText : Layout true 0 imagesAndText.tokens imagesAndText.media ∧
      (imagesAndText.Inside 1 ∧
        keepFirst true imagesAndText 1 = .ok ⟨[tokenNull], [(0, ⟨"img", 2⟩)]⟩) ∧
      ¬ imagesAndText.Inside 2 ∧ keepFirst true imagesAndText 2 = .error imagesAndText :=
  ⟨imagesAndText_layout, ⟨by decide, rfl⟩, by decide, rfl⟩

/-! ## Appending a list -/

theorem foldlM_pushBack {ts : List Int32} (h : tokenNull ∉ ts) :
    ts.foldlM pushBack a = .ok { a with tokens := a.tokens ++ ts } := by
  induction ts generalizing a with
  | nil =>
    rw [append_nil]
    rfl
  | cons t ts ih =>
    have ht : t ≠ tokenNull := fun e => h (e ▸ mem_cons_self)
    rw [foldlM_cons, pushBack, if_neg ht]
    refine (ih fun hm => h (mem_cons_of_mem _ hm)).trans ?_
    rw [append_assoc]
    rfl

theorem foldlM_pushBack_null {ts : List Int32} (h : tokenNull ∈ ts) :
    ∃ a', ts.foldlM pushBack a = .error a' := by
  induction ts generalizing a with
  | nil => cases h
  | cons t ts ih =>
    rw [foldlM_cons, pushBack]
    split
    · exact ⟨a, rfl⟩
    · next ht => exact ih (mem_of_ne_of_mem (Ne.symm ht) h)

/-- The result has the tokens of both lists, and the chunks of the second one at the places where
its tokens are. -/
def Appends (aMtmd : Bool) (a : RawTokens) (bMtmd : Bool) (b : RawTokens) : Prop :=
  ∃ fuel, pushBackTokens fuel aMtmd a bMtmd b =
    some (.ok ⟨a.tokens ++ b.tokens, a.media ++ b.media.map fun m => (a.tokens.length + m.1, m.2)⟩)

end RawTokens

/-- A list without placeholders has no chunks. -/
theorem Layout.media_eq_nil {hasMtmd : Bool} {i : Nat} {ts : List Int32}
    {ms : List (Nat × MediaChunk)} (h : Layout hasMtmd i ts ms) (hn : tokenNull ∉ ts) :
    ms = [] := by
  induction h with
  | nil => rfl
  | text _ _ ih => exact ih fun hm => hn (mem_cons_of_mem _ hm)
  | media _ hc => exact absurd (mem_append_left _ (mem_replicate.mpr ⟨hc.ne', rfl⟩)) hn

namespace ServerTokens

/-- The members. -/
def raw {hasMtmd : Bool} (a : ServerTokens hasMtmd) : RawTokens := ⟨a.tokens, a.media⟩

/-- A list is appended exactly if it has no placeholder; with one, the call throws. -/
theorem pushBackTokens_exact {aMtmd bMtmd : Bool} (a : ServerTokens aMtmd)
    (b : ServerTokens bMtmd) (hmtmd : bMtmd = true → aMtmd = true) :
    RawTokens.Appends aMtmd a.raw bMtmd b.raw ↔ tokenNull ∉ b.tokens := by
  constructor
  · rintro ⟨fuel, h⟩ hn
    obtain ⟨a', e⟩ := @RawTokens.foldlM_pushBack_null a.raw b.raw.tokens hn
    rw [RawTokens.pushBackTokens, e] at h
    cases h
  · intro (hn : tokenNull ∉ b.raw.tokens)
    refine ⟨1, ?_⟩
    have hm : b.raw.media = [] := b.layout.media_eq_nil hn
    rw [RawTokens.pushBackTokens, RawTokens.foldlM_pushBack hn, hm, map_nil, append_nil]
    dsimp only
    split
    · next hb =>
      rw [if_pos (hmtmd hb)]
      rfl
    · rfl

/-- A token, and a chunk with a token. -/
def textThenImage : ServerTokens true :=
  ⟨[7, tokenNull], [(1, ⟨"img", 1⟩)],
    .text (by decide) (.media (c := ⟨"img", 1⟩) rfl (by decide) .nil)⟩

theorem pushBackTokens_exact_textThenImage :
    RawTokens.Appends true textThenImage.raw true ⟨[7], []⟩ :=
  (pushBackTokens_exact textThenImage (⟨[7], [], .text (by decide) .nil⟩ : ServerTokens true)
    fun _ => rfl).mpr (by decide)

/-- A placeholder of the other list is rejected. -/
theorem pushBackTokens_textThenImage :
    ¬ RawTokens.Appends true textThenImage.raw true textThenImage.raw := by
  rintro ⟨fuel, h⟩
  change some (Except.error _) = _ at h
  cases h

end ServerTokens

end BeeLlama.Server
