import Mathlib.Order.Bounds.Basic
import Mathlib.Data.List.Basic

/-!
# Verification of a draft

`common_sampler_sample_and_accept_n` samples the rows of a batch that holds the last token and a
draft behind it, and accepts what it samples until a token differs from the draft.

* `Sampler`: a sampler by its two steps, over any states, logits and tokens.
* `sampleAndAcceptN`: the verification, with the rows it has sampled.
* `Plain`: decoding without a draft, where every token is sampled from the logits behind the tokens
  before it.
* `sampleAndAcceptN_plain`: the verification is plain decoding, cut behind the first token that the
  draft does not have, that the callback refuses, or that comes behind the whole draft.
-/

namespace BeeLlama.Sampling

open List

/-- `common_sampler`, by `common_sampler_sample` of a row of logits, with `grammar_first`, and
`common_sampler_accept_with_info` of a token, with `is_generated`. -/
structure Sampler (σ ρ τ ι : Type*) where
  sample : σ → ρ → Bool → τ × σ
  acceptWithInfo : σ → τ → Bool → ι × σ

/-- `common_sampler_accept`. -/
def Sampler.accept {σ ρ τ ι : Type*} (S : Sampler σ ρ τ ι) (s : σ) (id : τ)
    (isGenerated : Bool) : σ :=
  (S.acceptWithInfo s id isGenerated).2

/-- Where a verification stands: `result`, the sampler, what the callback keeps, and the rows that
were sampled. -/
structure Verified (σ τ γ : Type*) where
  result : List τ := []
  sampler : σ
  callback : γ
  rows : List Int := []
  deriving DecidableEq, Repr

variable {σ ρ τ ι γ : Type*}

section Verification

variable (S : Sampler σ ρ τ ι) (onAccept : Option (γ → ι → Bool × γ)) (grammarFirst : Bool)

/-- `on_accept` at a token that the sampler accepts: the answer, the sampler, and the callback. -/
def answer (s : σ) (c : γ) (id : τ) : Bool × σ × γ :=
  match onAccept with
  | some f =>
    let (info, s) := S.acceptWithInfo s id true
    let (ok, c) := f c info
    (ok, s, c)
  | none => (true, S.accept s id true, c)

/-- `common_sampler_sample` and the lambda `accept`: the token and the answer. -/
def sampleAndAccept (row : Int → ρ) (idx : Int) (v : Verified σ τ γ) :
    τ × Bool × Verified σ τ γ :=
  let (id, s) := S.sample v.sampler (row idx) grammarFirst
  let (ok, s, c) := answer S onAccept s v.callback id
  (id, ok, { result := v.result ++ [id], sampler := s, callback := c, rows := v.rows ++ [idx] })

/-- The loop over the draft, and the token behind it. -/
def verify [DecidableEq τ] (row : Int → ρ) :
    List τ → List Int → Verified σ τ γ → Verified σ τ γ
  | d :: draft, idx :: idxs, v =>
    let (id, ok, v) := sampleAndAccept S onAccept grammarFirst row idx v
    if !ok then v
    else if d ≠ id then v
    else verify row draft idxs v
  | [], idx :: _, v => (sampleAndAccept S onAccept grammarFirst row idx v).2.2
  | _, [], v => v

/-- `common_sampler_sample_and_accept_n`; `none` stands for a failed assertion. -/
def sampleAndAcceptN [DecidableEq τ] (row : Int → ρ) (idxs : List Int) (draft : List τ) (s : σ)
    (c : γ) : Option (Verified σ τ γ) :=
  if idxs.length = draft.length + 1 then
    some (verify S onAccept grammarFirst row draft idxs { sampler := s, callback := c })
  else none

end Verification

/-- Plain decoding: the tokens so far, the sampler, and what the callback keeps. -/
structure Plain (σ τ γ : Type*) where
  tokens : List τ
  sampler : σ
  callback : γ
  deriving DecidableEq, Repr

namespace Plain

variable (S : Sampler σ ρ τ ι) (onAccept : Option (γ → ι → Bool × γ)) (grammarFirst : Bool)
  (logits : List τ → ρ)

/-- The next token. -/
def token (p : Plain σ τ γ) : τ :=
  (S.sample p.sampler (logits p.tokens) grammarFirst).1

/-- What accepting the next token gives: the answer of the callback, and the two states. -/
def accepted (p : Plain σ τ γ) : Bool × σ × γ :=
  answer S onAccept (S.sample p.sampler (logits p.tokens) grammarFirst).2 p.callback
    (p.token S grammarFirst logits)

/-- One token more. -/
def next (p : Plain σ τ γ) : Plain σ τ γ where
  tokens := p.tokens ++ [p.token S grammarFirst logits]
  sampler := (p.accepted S onAccept grammarFirst logits).2.1
  callback := (p.accepted S onAccept grammarFirst logits).2.2

/-- After `n` tokens. -/
def after (p : Plain σ τ γ) (n : Nat) : Plain σ τ γ :=
  (next S onAccept grammarFirst logits)^[n] p

/-- The token at `n`. -/
def tokenAt (p : Plain σ τ γ) (n : Nat) : τ :=
  (p.after S onAccept grammarFirst logits n).token S grammarFirst logits

/-- A verification of the draft ends with the token at `n`: it comes behind the draft, or the draft
has another one, or the callback refuses it. -/
def EndsAt (p : Plain σ τ γ) (draft : List τ) (n : Nat) : Prop :=
  n = draft.length ∨
    draft[n]? ≠ some (p.tokenAt S onAccept grammarFirst logits n) ∨
    ((p.after S onAccept grammarFirst logits n).accepted S onAccept grammarFirst logits).1 = false

/-- The first `n` tokens. -/
def decoded (p : Plain σ τ γ) (n : Nat) : List τ :=
  (List.range n).map (p.tokenAt S onAccept grammarFirst logits)

variable {S onAccept grammarFirst logits}

theorem after_succ (p : Plain σ τ γ) (n : Nat) : p.after S onAccept grammarFirst logits (n + 1) =
      (p.next S onAccept grammarFirst logits).after S onAccept grammarFirst logits n := by
  rw [after, after, Function.iterate_succ_apply]

theorem tokenAt_succ (p : Plain σ τ γ) (n : Nat) :
    p.tokenAt S onAccept grammarFirst logits (n + 1) =
      (p.next S onAccept grammarFirst logits).tokenAt S onAccept grammarFirst logits n := by
  rw [tokenAt, tokenAt, after_succ]

theorem decoded_succ (p : Plain σ τ γ) (n : Nat) :
    p.decoded S onAccept grammarFirst logits (n + 1) =
      p.token S grammarFirst logits ::
        (p.next S onAccept grammarFirst logits).decoded S onAccept grammarFirst logits n := by
  rw [decoded, decoded, range_succ_eq_map, map_cons, map_map]
  exact congrArg₂ _ rfl (map_congr_left fun i _ => tokenAt_succ p i)

variable {p : Plain σ τ γ}

theorem endsAt_zero {draft : List τ} (h : p.EndsAt S onAccept grammarFirst logits draft 0) :
    IsLeast {n | p.EndsAt S onAccept grammarFirst logits draft n} 0 :=
  ⟨h, fun _ _ => Nat.zero_le _⟩

/-- Where the draft has the next token and the callback takes it, the rest is a verification of the
rest of the draft. -/
theorem endsAt_succ {draft : List τ} {n : Nat} :
    p.EndsAt S onAccept grammarFirst logits (p.token S grammarFirst logits :: draft) (n + 1) ↔
      (p.next S onAccept grammarFirst logits).EndsAt S onAccept grammarFirst logits draft n := by
  rw [EndsAt, EndsAt, tokenAt_succ, after_succ, length_cons, getElem?_cons_succ,
    Nat.add_right_cancel_iff]

theorem isLeast_succ {draft : List τ} {n : Nat}
    (hok : (p.accepted S onAccept grammarFirst logits).1 = true)
    (h : IsLeast {n | (p.next S onAccept grammarFirst logits).EndsAt S onAccept grammarFirst
      logits draft n} n) :
    IsLeast {n | p.EndsAt S onAccept grammarFirst logits
      (p.token S grammarFirst logits :: draft) n} (n + 1) := by
  refine ⟨endsAt_succ.2 h.1, fun k hk => ?_⟩
  cases k with
  | zero =>
    rcases hk with hk | hk | hk
    · simp at hk
    · exact absurd rfl hk
    · exact absurd (hok.symm.trans hk) (by decide)
  | succ k => exact Nat.succ_le_succ (h.2 (endsAt_succ.1 hk))

end Plain

section Lossless

variable [DecidableEq τ] {S : Sampler σ ρ τ ι} {onAccept : Option (γ → ι → Bool × γ)}
  {grammarFirst : Bool} {logits : List τ → ρ} {row : Int → ρ}

/-- The rows of a batch: row `i` has the logits behind the tokens and `i` tokens of the draft. -/
def RowsOf (logits : List τ → ρ) (row : Int → ρ) (tokens draft : List τ) (idxs : List Int) :
    Prop :=
  ∀ i idx, idxs[i]? = some idx → row idx = logits (tokens ++ draft.take i)

omit [DecidableEq τ] in
theorem RowsOf.tail {tokens draft : List τ} {d : τ} {idx : Int} {idxs : List Int}
    (h : RowsOf logits row tokens (d :: draft) (idx :: idxs)) :
    RowsOf logits row (tokens ++ [d]) draft idxs := by
  intro i j hj
  have := h (i + 1) j hj
  rwa [take_succ_cons, append_cons] at this

/-- What a verification has after `n` tokens of plain decoding. -/
def Verified.advance (S : Sampler σ ρ τ ι) (onAccept : Option (γ → ι → Bool × γ))
    (grammarFirst : Bool) (logits : List τ → ρ) (v : Verified σ τ γ) (p : Plain σ τ γ)
    (idxs : List Int) (n : Nat) : Verified σ τ γ where
  result := v.result ++ p.decoded S onAccept grammarFirst logits n
  sampler := (p.after S onAccept grammarFirst logits n).sampler
  callback := (p.after S onAccept grammarFirst logits n).callback
  rows := v.rows ++ idxs.take n

omit [DecidableEq τ] in
/-- Sampling the row behind the tokens and accepting is a step of plain decoding. -/
theorem sampleAndAccept_eq {v : Verified σ τ γ} {tokens : List τ} {idx : Int}
    (hrow : row idx = logits tokens) :
    let p : Plain σ τ γ := ⟨tokens, v.sampler, v.callback⟩
    sampleAndAccept S onAccept grammarFirst row idx v =
      (p.token S grammarFirst logits, (p.accepted S onAccept grammarFirst logits).1,
        { result := v.result ++ [p.token S grammarFirst logits]
          sampler := (p.next S onAccept grammarFirst logits).sampler
          callback := (p.next S onAccept grammarFirst logits).callback
          rows := v.rows ++ [idx] }) := by
  simp only [sampleAndAccept, hrow]
  rfl

/-- Along the draft: one step of plain decoding for every row that is sampled. -/
theorem verify_plain (S : Sampler σ ρ τ ι) (onAccept : Option (γ → ι → Bool × γ))
    (grammarFirst : Bool) (logits : List τ → ρ) (draft tokens : List τ) (idxs : List Int)
    (v : Verified σ τ γ) (hlen : idxs.length = draft.length + 1)
    (hrows : RowsOf logits row tokens draft idxs) :
    let p : Plain σ τ γ := ⟨tokens, v.sampler, v.callback⟩
    ∃ n, IsLeast {n | p.EndsAt S onAccept grammarFirst logits draft n} n ∧
      verify S onAccept grammarFirst row draft idxs v =
        v.advance S onAccept grammarFirst logits p idxs (n + 1) := by
  induction draft generalizing tokens idxs v with
  | nil =>
    obtain ⟨idx, rfl⟩ := length_eq_one_iff.1 hlen
    have hrow : row idx = logits tokens := by simpa using hrows 0 idx rfl
    refine ⟨0, Plain.endsAt_zero (.inl rfl), ?_⟩
    rw [verify, sampleAndAccept_eq hrow]
    simp [Verified.advance, Plain.decoded, Plain.tokenAt, Plain.after]
  | cons d draft ih =>
    intro p
    obtain ⟨idx, idxs, rfl⟩ := exists_cons_of_length_eq_add_one hlen
    have hrow : row idx = logits tokens := by simpa using hrows 0 idx rfl
    rw [verify, sampleAndAccept_eq hrow]
    change ∃ n, _ ∧ (if !(p.accepted S onAccept grammarFirst logits).1 then _
      else if d ≠ p.token S grammarFirst logits then _ else _) = _
    by_cases hok : (p.accepted S onAccept grammarFirst logits).1 = true
    · by_cases hd : d = p.token S grammarFirst logits
      · -- the draft has the token: go on behind it
        rw [if_neg (by simp [hok]), if_neg (by simpa using hd)]
        obtain ⟨n, hleast, hv⟩ := ih (tokens ++ [d]) idxs
          { result := v.result ++ [p.token S grammarFirst logits]
            sampler := (p.next S onAccept grammarFirst logits).sampler
            callback := (p.next S onAccept grammarFirst logits).callback
            rows := v.rows ++ [idx] } (by simpa using hlen) hrows.tail
        subst hd
        refine ⟨n + 1, Plain.isLeast_succ hok hleast, hv.trans ?_⟩
        simp only [Verified.advance, Plain.decoded_succ p, Plain.after_succ p, take_succ_cons,
          append_assoc, singleton_append]
        rfl
      · refine ⟨0, Plain.endsAt_zero (.inr (.inl fun h => hd (Option.some.inj h))), ?_⟩
        rw [if_neg (by simp [hok]), if_pos hd]
        simp [Verified.advance, Plain.decoded, Plain.tokenAt, Plain.after, p]
    · refine ⟨0, Plain.endsAt_zero (.inr (.inr (Bool.eq_false_of_not_eq_true hok))), ?_⟩
      rw [if_pos (by simpa using hok)]
      simp [Verified.advance, Plain.decoded, Plain.tokenAt, Plain.after, p]

/-- Where every row of the batch has the logits behind its part of the draft, the verification
returns the tokens of plain decoding up to the first one that ends it, with the sampler and the
callback as they are then, and it has sampled one row for every token. -/
theorem sampleAndAcceptN_plain (S : Sampler σ ρ τ ι) (onAccept : Option (γ → ι → Bool × γ))
    (grammarFirst : Bool) (logits : List τ → ρ) (row : Int → ρ) (tokens draft : List τ)
    (idxs : List Int) (s : σ) (c : γ) (hlen : idxs.length = draft.length + 1)
    (hrows : RowsOf logits row tokens draft idxs) :
    let p : Plain σ τ γ := ⟨tokens, s, c⟩
    ∃ n, IsLeast {n | p.EndsAt S onAccept grammarFirst logits draft n} n ∧
      sampleAndAcceptN S onAccept grammarFirst row idxs draft s c = some
        { result := p.decoded S onAccept grammarFirst logits (n + 1)
          sampler := (p.after S onAccept grammarFirst logits (n + 1)).sampler
          callback := (p.after S onAccept grammarFirst logits (n + 1)).callback
          rows := idxs.take (n + 1) } := by
  intro p
  obtain ⟨n, hleast, hv⟩ := verify_plain S onAccept grammarFirst logits draft tokens idxs
    { sampler := s, callback := c } hlen hrows
  refine ⟨n, hleast, ?_⟩
  rw [sampleAndAcceptN, if_pos hlen, hv, Verified.advance, nil_append, nil_append]

end Lossless

/-- A draft whose second token is not the one that is sampled. -/
theorem sampleAndAcceptN_plain_run :
    let S : Sampler Nat Nat Nat Nat := ⟨fun s row _ => (row + s, s + 1), fun s id _ => (id, s + 1)⟩
    let onAccept : Option (Nat → Nat → Bool × Nat) := some fun c id => (id ≠ 99, c + 1)
    let row : Int → Nat := fun i => if i = 7 then 1 else if i = 4 then 2 else 3
    RowsOf List.length row [5] [1, 8] [7, 4, 6] ∧
      ∃ n, IsLeast {n | Plain.EndsAt S onAccept true List.length ⟨[5], 0, 0⟩ [1, 8] n} n ∧
        sampleAndAcceptN S onAccept true row [7, 4, 6] [1, 8] 0 0 = some
          { result := Plain.decoded S onAccept true List.length ⟨[5], 0, 0⟩ (n + 1)
            sampler := (Plain.after S onAccept true List.length ⟨[5], 0, 0⟩ (n + 1)).sampler
            callback := (Plain.after S onAccept true List.length ⟨[5], 0, 0⟩ (n + 1)).callback
            rows := [7, 4, 6].take (n + 1) } := by
  have hrows : RowsOf List.length
      (fun i : Int => if i = 7 then 1 else if i = 4 then 2 else 3) [5] [1, 8] [7, 4, 6] := by
    intro i idx hi
    match i with
    | 0 => cases hi; rfl
    | 1 => cases hi; rfl
    | 2 => cases hi; rfl
  exact ⟨hrows, sampleAndAcceptN_plain _ _ true List.length _ [5] [1, 8] [7, 4, 6] 0 0 rfl hrows⟩

end BeeLlama.Sampling
