import BeeLlama.Grammar.Utf8Cut
import BeeLlama.Sampling.SamplerRun

/-!
# Lazy grammars (`llama_grammar_accept_impl`)

A lazy grammar collects the pieces of its tokens until a trigger fires, and then accepts what the
trigger pattern begins at, token by token.

* `acceptAll_waits`: before the trigger the buffer has the pieces and the grammar stays as it is.
* `acceptAll_token`, `acceptAll_pattern`: what a trigger token, and what a trigger pattern does.
* `lazy_trigger`: against the grammar that accepts the text as a whole.
* `trigger_differs`: what the text and the end of its last piece have to be.
-/

namespace BeeLlama.Sampling

open Grammar Cfg List LlamaGrammar

section Trigger

variable {χ L : Type} (cfg : SamplerConfig χ L) (fuel : Nat)

/-- The piece of a token. -/
def pieceOf (token : Int32) : List UInt8 := cfg.vocab.piece (symbol token)

/-- The pieces, one after the other. -/
def textOf (tokens : List Int32) : List UInt8 := tokens.flatMap (pieceOf cfg)

/-- `llama_grammar_accept_impl`, for one token after the other. -/
def LlamaGrammar.acceptAll (g : LlamaGrammar) (tokens : List Int32) :
    Except GrammarError LlamaGrammar :=
  tokens.foldlM (fun g token => g.acceptImpl cfg fuel token) g

/-- No token is a trigger, and no pattern matches what there is up to it. -/
def Waits (tokens : List Int32) : Prop :=
  ∀ u t v, tokens = u ++ t :: v → t ∉ cfg.triggerTokens ∧
    ∀ find ∈ cfg.triggerPatterns, find (textOf cfg (u ++ [t])) = none

/-- Where the pieces are, the first one at `o`. -/
def positionsFrom : Nat → List Int32 → List (Int32 × Nat × Nat)
  | _, [] => []
  | o, t :: tokens =>
    (t, o, o + (pieceOf cfg t).length) :: positionsFrom (o + (pieceOf cfg t).length) tokens

/-- A lazy grammar that waits for its trigger. -/
def waiting (g : GrammarState) (tokens : List Int32) : LlamaGrammar where
  state := { g with awaitingTrigger := true }
  triggerBuffer := textOf cfg tokens
  triggerBufferPositions := positionsFrom cfg 0 tokens

/-- The tokens with their pieces from byte `s` on, which may be inside of the first one. -/
def piecesFrom : Nat → List Int32 → List (Nat × List UInt8)
  | _, [] => []
  | s, t :: tokens =>
    if (pieceOf cfg t).length ≤ s then piecesFrom (s - (pieceOf cfg t).length) tokens
    else (symbol t, (pieceOf cfg t).drop s) :: tokens.map fun t => (symbol t, pieceOf cfg t)

variable {cfg fuel}

@[simp] theorem textOf_append (u v : List Int32) :
    textOf cfg (u ++ v) = textOf cfg u ++ textOf cfg v := flatMap_append ..

theorem textOf_cons (t : Int32) (v : List Int32) :
    textOf cfg (t :: v) = pieceOf cfg t ++ textOf cfg v := flatMap_cons ..

theorem positionsFrom_append (o : Nat) (u v : List Int32) : positionsFrom cfg o (u ++ v) =
      positionsFrom cfg o u ++ positionsFrom cfg (o + (textOf cfg u).length) v := by
  induction u generalizing o with
  | nil => simp [positionsFrom, textOf]
  | cons t u ih => simp [positionsFrom, textOf_cons, ih, Nat.add_assoc]

/-- The pieces from `s` on are the text from `s` on. -/
theorem piecesFrom_flatten (s : Nat) (tokens : List Int32) :
    ((piecesFrom cfg s tokens).map Prod.snd).flatten = (textOf cfg tokens).drop s := by
  induction tokens generalizing s with
  | nil => simp [piecesFrom, textOf]
  | cons t tokens ih =>
    rw [textOf_cons]
    unfold piecesFrom
    split
    · next hle => rw [ih, drop_append, drop_eq_nil_of_le hle, nil_append]
    · next hlt =>
      rw [drop_append, Nat.sub_eq_zero_of_le (by omega), drop_zero]
      simp [textOf, List.flatMap, Function.comp_def]

/-! ## Before the trigger -/

variable {t : Int32} {g : GrammarState} {s : Nat}

theorem Waits.init {u : List Int32} (h : Waits cfg (u ++ [t])) : Waits cfg u :=
  fun x y z e => h x y (z ++ [t]) (by rw [e]; simp)

theorem acceptImpl_waits {u : List Int32} (h : Waits cfg (u ++ [t])) :
    (waiting cfg g u).acceptImpl cfg fuel t = .ok (waiting cfg g (u ++ [t])) := by
  obtain ⟨htok, hpat⟩ := h u t [] rfl
  have hnone : cfg.triggerPatterns.findSome? (· (textOf cfg u ++ pieceOf cfg t)) = none := by
    rw [findSome?_eq_none_iff]
    intro find hfind
    simpa [textOf] using hpat find hfind
  unfold acceptImpl
  simp only [waiting, if_true, if_neg htok]
  rw [show cfg.vocab.piece (symbol t) = pieceOf cfg t from rfl, hnone]
  simp [positionsFrom_append, textOf, positionsFrom, pure, Except.pure]

variable {tokens : List Int32}

/-- Before the trigger the buffer has the pieces. -/
theorem acceptAll_waits (fuel : Nat) (g : GrammarState) (h : Waits cfg tokens) :
    (waiting cfg g []).acceptAll cfg fuel tokens = .ok (waiting cfg g tokens) := by
  induction tokens using List.reverseRecOn with
  | nil => rfl
  | append_singleton u t ih =>
    have hu := ih h.init
    unfold LlamaGrammar.acceptAll at hu ⊢
    rw [foldlM_append, hu]
    exact (bind_pure ((waiting cfg g u).acceptImpl cfg fuel t)).trans (acceptImpl_waits h)

/-- One more token. -/
theorem acceptAll_concat (g : GrammarState) (h : Waits cfg tokens)
    (t : Int32) : (waiting cfg g []).acceptAll cfg fuel (tokens ++ [t]) =
      (waiting cfg g tokens).acceptImpl cfg fuel t := by
  have hu := acceptAll_waits fuel g h
  unfold LlamaGrammar.acceptAll at hu ⊢
  rw [foldlM_append, hu]
  exact bind_pure ((waiting cfg g tokens).acceptImpl cfg fuel t)

/-! ## The trigger -/

/-- A trigger token is accepted alone. -/
theorem acceptAll_token (hg : g.awaitingTrigger = false)
    (h : Waits cfg tokens) (ht : t ∈ cfg.triggerTokens) :
    ((waiting cfg g []).acceptAll cfg fuel (tokens ++ [t])).map LlamaGrammar.state =
      acceptToken fuel g (symbol t) (pieceOf cfg t) := by
  rw [acceptAll_concat g h]
  have hstate : { g with awaitingTrigger := false } = g := by rw [← hg]
  unfold LlamaGrammar.acceptImpl
  simp only [waiting, if_true, if_pos ht, LlamaGrammar.acceptToken, hstate]
  rw [show cfg.vocab.piece (symbol t) = pieceOf cfg t from rfl]
  cases acceptToken fuel g (symbol t) (pieceOf cfg t) <;> rfl

/-- Behind the start the pieces are accepted as they are. -/
theorem replay_behind {buffer : List UInt8} (g : LlamaGrammar) {o : Nat}
    (tokens : List Int32) (hs : s < o) (hb : buffer.drop o = textOf cfg tokens) :
    LlamaGrammar.replay fuel s buffer (positionsFrom cfg o tokens) g =
      (acceptTokens fuel g.state (tokens.map fun t => (symbol t, pieceOf cfg t))).map
        fun state => { g with state } := by
  induction tokens generalizing g o with
  | nil => rfl
  | cons t tokens ih =>
    rw [textOf_cons] at hb
    have hpiece : (buffer.drop o).take (o + (pieceOf cfg t).length - o) = pieceOf cfg t := by
      rw [hb, Nat.add_sub_cancel_left, take_left]
    have hrest : buffer.drop (o + (pieceOf cfg t).length) = textOf cfg tokens := by
      rw [← drop_drop, hb, drop_left]
    have hnle : ¬ o + (pieceOf cfg t).length ≤ s := by omega
    simp only [positionsFrom, LlamaGrammar.replay, if_neg hnle, if_neg (Nat.not_lt.mpr hs.le),
      hpiece, LlamaGrammar.acceptToken, map_cons, acceptTokens]
    cases acceptToken fuel g.state (symbol t) (pieceOf cfg t) with
    | error e => rfl
    | ok state => exact ih { g with state } (by omega) hrest

/-- The tokens before the start are skipped, and the one at the start is cut. -/
theorem replay_eq {buffer : List UInt8} (g : LlamaGrammar) {o : Nat}
    (tokens : List Int32) (hs : o ≤ s) (hb : buffer.drop o = textOf cfg tokens) :
    LlamaGrammar.replay fuel s buffer (positionsFrom cfg o tokens) g =
      (acceptTokens fuel g.state (piecesFrom cfg (s - o) tokens)).map
        fun state => { g with state } := by
  induction tokens generalizing o with
  | nil => rfl
  | cons t tokens ih =>
    rw [textOf_cons] at hb
    have hrest : buffer.drop (o + (pieceOf cfg t).length) = textOf cfg tokens := by
      rw [← drop_drop, hb, drop_left]
    by_cases hle : o + (pieceOf cfg t).length ≤ s
    · have hle' : (pieceOf cfg t).length ≤ s - o := by omega
      simp only [positionsFrom, LlamaGrammar.replay, if_pos hle, piecesFrom, if_pos hle']
      rw [ih hle hrest, Nat.sub_add_eq]
    · have hnle' : ¬ (pieceOf cfg t).length ≤ s - o := by omega
      have hstart : (if o < s then s else o) = s := by split <;> omega
      have hpiece : (buffer.drop s).take (o + (pieceOf cfg t).length - s) =
          (pieceOf cfg t).drop (s - o) := by
        have hdrop : buffer.drop s = (pieceOf cfg t).drop (s - o) ++ textOf cfg tokens := by
          have hsplit : buffer.drop s = (buffer.drop o).drop (s - o) := by
            rw [drop_drop, Nat.add_sub_cancel' hs]
          rw [hsplit, hb, drop_append, Nat.sub_eq_zero_of_le (Nat.le_of_not_le hnle'), drop_zero]
        rw [hdrop, take_left']
        rw [length_drop]
        omega
      simp only [positionsFrom, LlamaGrammar.replay, if_neg hle, hstart, hpiece, piecesFrom,
        if_neg hnle', LlamaGrammar.acceptToken, acceptTokens]
      cases acceptToken fuel g.state (symbol t) ((pieceOf cfg t).drop (s - o)) with
      | error e => rfl
      | ok state => exact replay_behind { g with state } tokens (by omega) hrest

/-- From the start of a pattern the pieces are accepted one after the other. -/
theorem acceptAll_pattern (hg : g.awaitingTrigger = false)
    (h : Waits cfg tokens) (ht : t ∉ cfg.triggerTokens)
    (hs : cfg.triggerPatterns.findSome? (· (textOf cfg (tokens ++ [t]))) = some s) :
    ((waiting cfg g []).acceptAll cfg fuel (tokens ++ [t])).map LlamaGrammar.state =
      acceptTokens fuel g (piecesFrom cfg s (tokens ++ [t])) := by
  rw [acceptAll_concat g h]
  have hstate : { g with awaitingTrigger := false } = g := by rw [← hg]
  have hbuf : textOf cfg tokens ++ pieceOf cfg t = textOf cfg (tokens ++ [t]) := by
    simp [textOf]
  have hpos : positionsFrom cfg 0 tokens ++ [(t, (textOf cfg tokens).length,
      (textOf cfg tokens).length + (pieceOf cfg t).length)] =
        positionsFrom cfg 0 (tokens ++ [t]) := by
    simp [positionsFrom_append, positionsFrom]
  unfold acceptImpl
  simp only [waiting, if_true, if_neg ht]
  rw [show cfg.vocab.piece (symbol t) = pieceOf cfg t from rfl, hbuf, hs, hpos]
  dsimp only
  rw [replay_eq _ (tokens ++ [t]) (Nat.zero_le s) (drop_zero), Nat.sub_zero, hstate]
  cases acceptTokens fuel g (piecesFrom cfg s (tokens ++ [t])) <;> rfl

theorem piecesFrom_ne_nil (h : (textOf cfg tokens).drop s ≠ []) : piecesFrom cfg s tokens ≠ [] := by
  intro e
  rw [← piecesFrom_flatten, e] at h
  exact h rfl

/-- What the trigger does with the grammar `g`, which accepts the text from `s` on as a whole. -/
def TriggersAs (cfg : SamplerConfig χ L) (g : GrammarState) (tokens : List Int32) (s : Nat) :
    Prop :=
  ∀ id : Nat, ∃ whole cut, ∃ u : PartialUtf8,
    Ends (fun fuel => acceptToken fuel g id ((textOf cfg tokens).drop s)) (withStacks g whole u) ∧
    Ends (fun fuel => ((waiting cfg g []).acceptAll cfg fuel tokens).map LlamaGrammar.state)
      (withStacks g cut u) ∧
    ∀ st, st ∈ cut ↔ st ∈ whole ∧
      (lastCodePoints ((piecesFrom cfg s tokens).map Prod.snd) g.partialUtf8 = [] → st ≠ [])

end Trigger

/-- Until a trigger fires, a lazy grammar masks nothing and collects the pieces. A trigger token is
accepted as by the grammar that is not lazy. A pattern that matches at `s` leads to the stacks of
the text from `s` on, except that the finished one is dropped if the last piece completes no
character, and the state of UTF-8 is the same. -/
theorem lazy_trigger {χ L : Type} (rawRules : List (List GrammarElement)) (start : Nat)
    (hr : ∀ rule ∈ rawRules.map copyRule, CharRule rule)
    (hl : ¬ LeftRecursive (alts (rawRules.map copyRule))) (g : GrammarState)
    (hg : (grammarSys rawRules start).init g) (hlazy : g.awaitingTrigger = false)
    (cfg : SamplerConfig χ L) (tokens : List Int32) (hw : Waits cfg tokens) :
    (∀ fuel, ∃ g', (waiting cfg g []).acceptAll cfg fuel tokens = .ok g' ∧
      g'.triggerBuffer = textOf cfg tokens ∧ ∀ ids, g'.masked cfg fuel ids = .ok []) ∧
    (∀ t ∈ cfg.triggerTokens, ∀ fuel,
      ((waiting cfg g []).acceptAll cfg fuel (tokens ++ [t])).map LlamaGrammar.state =
        acceptToken fuel g (symbol t) (pieceOf cfg t)) ∧
    ∀ t ∉ cfg.triggerTokens, ∀ s,
      cfg.triggerPatterns.findSome? (· (textOf cfg (tokens ++ [t]))) = some s →
      s ≤ (textOf cfg (tokens ++ [t])).length →
      ((textOf cfg (tokens ++ [t])).drop s = [] → ∀ fuel,
        ((waiting cfg g []).acceptAll cfg fuel (tokens ++ [t])).map LlamaGrammar.state = .ok g) ∧
      ((textOf cfg (tokens ++ [t])).drop s ≠ [] → BeginsText ((textOf cfg (tokens ++ [t])).drop s) →
        (∀ b ∈ (textOf cfg (tokens ++ [t])).drop s, b ≠ 0) →
        TriggersAs cfg g (tokens ++ [t]) s) := by
  refine ⟨fun fuel => ⟨_, acceptAll_waits fuel g hw, rfl, fun ids => ?_⟩,
    fun t ht fuel => acceptAll_token hlazy hw ht, fun t ht s hs _ => ⟨fun hnil fuel => ?_,
      fun hne htext h0 id => ?_⟩⟩
  · simp [masked, applyImpl, waiting]
  · rw [acceptAll_pattern hlazy hw ht hs]
    have hall : ∀ (s : Nat) (tokens : List Int32), (textOf cfg tokens).drop s = [] →
        piecesFrom cfg s tokens = [] := by
      intro s tokens
      induction tokens generalizing s with
      | nil => exact fun _ => rfl
      | cons t tokens ih =>
        intro h
        rw [textOf_cons, drop_append, append_eq_nil_iff, drop_eq_nil_iff] at h
        rw [piecesFrom, if_pos h.1]
        exact ih _ h.2
    rw [hall s _ hnil]
    rfl
  · have hu : g.partialUtf8.nRemain = 0 := by rw [hg.2.1]
    obtain ⟨-, -, -, htok⟩ := text_cut hu h0 htext (piecesFrom_flatten s (tokens ++ [t]))
    obtain ⟨whole, cut, hwhole, hcut, hmem⟩ := htok rawRules start hr hl g (.init hg) rfl id
      (piecesFrom cfg s (tokens ++ [t])) (piecesFrom_ne_nil hne) rfl
    refine ⟨whole, cut, _, hwhole, ?_, hmem⟩
    obtain ⟨n, hn⟩ := hcut
    exact ⟨n, fun m hm => (acceptAll_pattern hlazy hw ht hs).trans (hn m hm)⟩

/-- A lazy grammar with a pattern that finds an `a`. -/
def untilA : SamplerConfig Unit Nat :=
  { outputFormat with
    triggerPatterns := [fun text => text.findIdx? (· = 97)]
    grammarLazy := true }

/-- The tokens `3` and `4` have the pieces `>` and `a`. -/
theorem lazy_trigger_untilA :
    (∀ fuel, ∃ g', (waiting untilA onlyA_start.state []).acceptAll untilA fuel [3] = .ok g' ∧
      g'.triggerBuffer = textOf untilA [3] ∧ ∀ ids, g'.masked untilA fuel ids = .ok []) ∧
    (∀ t ∈ untilA.triggerTokens, ∀ fuel,
      ((waiting untilA onlyA_start.state []).acceptAll untilA fuel ([3] ++ [t])).map
        LlamaGrammar.state = acceptToken fuel onlyA_start.state (symbol t) (pieceOf untilA t)) ∧
    ∀ t ∉ untilA.triggerTokens, ∀ s,
      untilA.triggerPatterns.findSome? (· (textOf untilA ([3] ++ [t]))) = some s →
      s ≤ (textOf untilA ([3] ++ [t])).length →
      ((textOf untilA ([3] ++ [t])).drop s = [] → ∀ fuel,
        ((waiting untilA onlyA_start.state []).acceptAll untilA fuel ([3] ++ [t])).map
          LlamaGrammar.state = .ok onlyA_start.state) ∧
      ((textOf untilA ([3] ++ [t])).drop s ≠ [] →
        BeginsText ((textOf untilA ([3] ++ [t])).drop s) →
        (∀ b ∈ (textOf untilA ([3] ++ [t])).drop s, b ≠ 0) →
        TriggersAs untilA onlyA_start.state ([3] ++ [t]) s) := by
  refine lazy_trigger onlyA 0 (by decide) onlyA_not_leftRecursive onlyA_start.state
    ⟨rfl, rfl, 3, fun m hm => ?_⟩ rfl untilA [3] fun u t v e => ?_
  · obtain ⟨k, rfl⟩ := Nat.exists_eq_add_of_le' hm
    rfl
  · cases u with
    | nil =>
      cases e
      refine ⟨by decide, fun find hfind => ?_⟩
      obtain rfl := mem_singleton.mp hfind
      decide
    | cons a u => cases u <;> simp at e

/-- A lazy grammar with two pieces and a pattern that matches a buffer of two bytes. -/
def atTwoBytes (first second : List UInt8) : SamplerConfig Unit Nat :=
  { outputFormat with
    vocab := ⟨fun id => if id = 1 then first else second, fun _ => false⟩
    triggerPatterns := [fun text => if 2 ≤ text.length then some 0 else none]
    grammarLazy := true }

/-- The stacks are those of the whole text, whatever its last piece is. -/
def SameAsWhole (cfg : SamplerConfig Unit Nat) (g : GrammarState) (tokens : List Int32) (s : Nat) :
    Prop :=
  ∀ id g', Settles (fun fuel => acceptToken fuel g id ((textOf cfg tokens).drop s)) g' →
    ∃ g'', Settles (fun fuel =>
        ((waiting cfg g []).acceptAll cfg fuel tokens).map LlamaGrammar.state) g'' ∧
      ∀ st, st ∈ g''.grammarStacks ↔ st ∈ g'.grammarStacks

/-- The second token fires the trigger. -/
def FiresAtSecond (cfg : SamplerConfig Unit Nat) : Prop :=
  Waits cfg [1] ∧ 2 ∉ cfg.triggerTokens ∧
    cfg.triggerPatterns.findSome? (· (textOf cfg [1, 2])) = some 0

theorem firesAtSecond {first second : List UInt8} (h₁ : first.length < 2)
    (h₂ : 2 ≤ (first ++ second).length) : FiresAtSecond (atTwoBytes first second) := by
  refine ⟨fun u t v e => ?_, not_mem_nil, ?_⟩
  · cases u with
    | nil =>
      cases e
      refine ⟨not_mem_nil, fun find hfind => ?_⟩
      obtain rfl := mem_singleton.mp hfind
      have htext : textOf (atTwoBytes first second) ([] ++ [1]) = first := append_nil first
      rw [htext]
      exact if_neg (by omega)
    | cons a u => cases u <;> simp at e
  · have htext : textOf (atTwoBytes first second) [1, 2] = first ++ second :=
      congrArg (first ++ ·) (append_nil second)
    rw [htext]
    simp only [atTwoBytes, findSome?_cons, if_pos h₂]

/-- A text of characters that ends inside of one is not accepted as a whole text. Bytes that are no
characters, and those behind a `0`, differ in other ways. -/
theorem trigger_differs : (FiresAtSecond (atTwoBytes [97] [0xC3]) ∧
      textOf (atTwoBytes [97] [0xC3]) [1, 2] = [97, 0xC3] ∧
      ¬ SameAsWhole (atTwoBytes [97] [0xC3]) onlyA_start.state [1, 2] 0) ∧
    (FiresAtSecond (atTwoBytes [97] [0x80]) ∧
      textOf (atTwoBytes [97] [0x80]) [1, 2] = [97, 0x80] ∧
      ¬ TriggersAs (atTwoBytes [97] [0x80]) onlyA_start.state [1, 2] 0) ∧
    (FiresAtSecond (atTwoBytes [0] [97]) ∧
      textOf (atTwoBytes [0] [97]) [1, 2] = [0, 97] ∧
      ¬ TriggersAs (atTwoBytes [0] [97]) onlyA_start.state [1, 2] 0) := by
  refine ⟨⟨firesAtSecond (by decide) (by decide), by decide, fun h => ?_⟩,
    ⟨firesAtSecond (by decide) (by decide), by decide, fun h => ?_⟩,
    ⟨firesAtSecond (by decide) (by decide), by decide, fun h => ?_⟩⟩
  · have hwhole : Settles (fun fuel => acceptToken fuel onlyA_start.state 7
        ((textOf (atTwoBytes [97] [0xC3]) [1, 2]).drop 0))
        { onlyA_start.state with grammarStacks := [[]], partialUtf8 := ⟨3, 1⟩ } :=
      ⟨3, fun m hm => by
        obtain ⟨k, rfl⟩ := Nat.exists_eq_add_of_le' hm
        rfl⟩
    obtain ⟨g'', ⟨n, e⟩, -⟩ := h 7 _ hwhole
    have hcut : ∀ k, ((waiting (atTwoBytes [97] [0xC3]) onlyA_start.state []).acceptAll
        (atTwoBytes [97] [0xC3]) (k + 3) [1, 2]).map state = .error .emptyStack :=
      fun k => rfl
    have := e (n + 3) (by omega)
    simp only [hcut] at this
    cases this
  · obtain ⟨whole, cut, u, ⟨n, e⟩, ⟨n', e'⟩, hmem⟩ := h 7
    -- the whole text leaves the stack, and the pieces leave none
    have hwhole : ∀ k, acceptToken (k + 3) onlyA_start.state 7
        ((textOf (atTwoBytes [97] [0x80]) [1, 2]).drop 0) =
          .ok { onlyA_start.state with partialUtf8 := ⟨0, -1⟩ } := fun k => rfl
    have hcut : ∀ k, ((waiting (atTwoBytes [97] [0x80]) onlyA_start.state []).acceptAll
        (atTwoBytes [97] [0x80]) (k + 3) [1, 2]).map state = .error .emptyStack :=
      fun k => rfl
    have h1 := e (n + 3) (by omega)
    have h2 := e' (n' + 3) (by omega)
    simp only [hwhole] at h1
    simp only [hcut] at h2
    unfold withStacks at h1 h2
    split at h2
    · next hc =>
      split at h1
      · cases h1
      · have hw : whole = [[⟨0, 0⟩]] :=
          (congrArg GrammarState.grammarStacks (Except.ok.inj h1)).symm
        have := (hmem [⟨0, 0⟩]).mpr ⟨by simp [hw], fun _ => by simp⟩
        simp [hc] at this
    · cases h2
  · obtain ⟨whole, cut, u, ⟨n, e⟩, ⟨n', e'⟩, hmem⟩ := h 7
    have hwhole : ∀ k, acceptToken (k + 3) onlyA_start.state 7
        ((textOf (atTwoBytes [0] [97]) [1, 2]).drop 0) = .ok onlyA_start.state := fun k => rfl
    have hcut : ∀ k, ((waiting (atTwoBytes [0] [97]) onlyA_start.state []).acceptAll
        (atTwoBytes [0] [97]) (k + 3) [1, 2]).map state =
          .ok { onlyA_start.state with grammarStacks := [[]], partialUtf8 := ⟨97, 0⟩ } :=
      fun k => rfl
    have h1 := e (n + 3) (by omega)
    have h2 := e' (n' + 3) (by omega)
    simp only [hwhole] at h1
    simp only [hcut] at h2
    unfold withStacks at h1 h2
    split at h1
    · cases h1
    · split at h2
      · cases h2
      · have hw : whole = [[⟨0, 0⟩]] :=
          (congrArg GrammarState.grammarStacks (Except.ok.inj h1)).symm
        have hc : cut = [[]] := (congrArg GrammarState.grammarStacks (Except.ok.inj h2)).symm
        have := ((hmem []).mp (by simp [hc])).1
        simp [hw] at this

end BeeLlama.Sampling
