import BeeLlama.Peg.MatchPattern

/-!
# Sequences of tokens in the tokens that are accepted (`token_matcher`)

* `TokenMatcher`: the sequences and the state of their automaton.
* `Tracks`: the state knows nothing but tokens that were accepted one behind another.
* `Tracks.advance`, `Tracks.matched`: a token keeps that, and a sequence that is reported ends with
  it.
* `Fed.advance`: the longest sequence is reported that ends in the tokens since the last match or
  reset.
-/

namespace BeeLlama.Sampling

open Peg List Trie

/-- `llama_token` as a symbol of the automaton: the cast to `uint32_t`. -/
def symbol (token : Int32) : Nat := token.toUInt32.toNat

theorem symbol_injective : Function.Injective symbol := by
  intro a b h
  cases a
  cases b
  exact congrArg Int32.ofUInt32 (UInt32.toNat_inj.mp h)

/-- `collect`: the sequences that are not empty, each once. -/
def collect (seqs : List (List Int32)) : List (List Int32) :=
  seqs.foldl (fun res seq => if seq ≠ [] ∧ seq ∉ res then res ++ [seq] else res) []

/-- What `collect` gives: different sequences, none of them empty, all from the list. -/
theorem collect_spec (seqs : List (List Int32)) :
    (collect seqs).Nodup ∧ ∀ seq ∈ collect seqs, seq ≠ [] ∧ seq ∈ seqs := by
  let Ok (res : List (List Int32)) : Prop := res.Nodup ∧ ∀ seq ∈ res, seq ≠ [] ∧ seq ∈ seqs
  have hnil : Ok [] := ⟨.nil, by simp⟩
  refine List.foldlRecOn (motive := Ok) seqs _ hnil fun res h seq hseq => ?_
  split
  · next hnew =>
    refine ⟨nodup_append.mpr ⟨h.1, nodup_singleton _, fun a ha b hb e => ?_⟩, ?_⟩
    · exact hnew.2 (mem_singleton.mp hb ▸ e ▸ ha)
    · intro s hs
      rcases mem_append.mp hs with hs | hs
      · exact h.2 s hs
      · obtain rfl := mem_singleton.mp hs
        exact ⟨hnew.1, hseq⟩
  · exact h

/-- `token_matcher`. -/
structure TokenMatcher where
  seqs : List (List Int32)
  state : Nat := 0
  nodup : seqs.Nodup
  nonempty : ∀ seq ∈ seqs, seq ≠ []
  deriving DecidableEq

namespace TokenMatcher

/-- The constructor. -/
def ofSeqs (seqs : List (List Int32)) : TokenMatcher where
  seqs := collect seqs
  nodup := (collect_spec seqs).1
  nonempty := fun seq h => ((collect_spec seqs).2 seq h).1

/-- `build_trie`. -/
def trie (m : TokenMatcher) : Trie := trieOfSymbols (m.seqs.map (·.map symbol))

/-- The automaton. -/
def ac (m : TokenMatcher) : AhoCorasick := ahoCorasick m.trie

/-- `advance`: the index of the longest sequence that ends at the token, or -1. -/
def advance (m : TokenMatcher) (token : Int32) : Int × TokenMatcher :=
  let state := m.ac.next m.state (symbol token)
  let p := m.ac.matchPattern state
  (p, { m with state := if 0 ≤ p then 0 else state })

/-- `reset`. -/
def reset (m : TokenMatcher) : TokenMatcher := { m with state := 0 }

variable {m : TokenMatcher}

@[simp] theorem reset_seqs (m : TokenMatcher) : m.reset.seqs = m.seqs := rfl

@[simp] theorem reset_state (m : TokenMatcher) : m.reset.state = 0 := rfl

@[simp] theorem advance_seqs (m : TokenMatcher) (token : Int32) :
    (m.advance token).2.seqs = m.seqs := rfl

theorem advance_state_of_match {token : Int32} (h : 0 ≤ (m.advance token).1) :
    (m.advance token).2.state = 0 :=
  if_pos h

theorem numbered (m : TokenMatcher) : m.trie.Numbered (m.seqs.map (·.map symbol)) :=
  numbered_trieOfSymbols (m.nodup.map (map_injective_iff.mpr symbol_injective))

/-- The word of the state is the end of the tokens. -/
def Tracks (m : TokenMatcher) (tokens : List Int32) : Prop :=
  ∃ w, m.trie.Path (w.map symbol) m.state ∧ w <:+ tokens

theorem tracks_of_state (h : m.state = 0) (tokens : List Int32) : m.Tracks tokens :=
  ⟨[], h ▸ .nil, nil_suffix⟩

variable {tokens : List Int32}

/-- The word of the next state, as tokens. -/
theorem Tracks.next {m : TokenMatcher} (h : m.Tracks tokens)
    (token : Int32) : ∃ w, m.trie.Path (w.map symbol) (m.ac.next m.state (symbol token)) ∧
      w <:+ tokens ++ [token] := by
  obtain ⟨w, hw, hsuf⟩ := h
  obtain ⟨z, hz, hlong⟩ := AhoCorasick.next_spec m.numbered.tree hw (symbol token)
  have hz' : z <:+ (w ++ [token]).map symbol := by simpa using hlong.suffix
  obtain ⟨y, hy, rfl⟩ := suffix_map_iff.mp hz'
  exact ⟨y, hz, hy.trans (Suffix.suffix_snoc_snoc hsuf)⟩

/-- A token keeps the end of the tokens. -/
theorem Tracks.advance (h : m.Tracks tokens)
    (token : Int32) : (m.advance token).2.Tracks (tokens ++ [token]) := by
  by_cases hp : 0 ≤ (m.advance token).1
  · exact tracks_of_state (advance_state_of_match hp) _
  · obtain ⟨w, hw, hsuf⟩ := h.next token
    refine ⟨w, ?_, hsuf⟩
    have hstate : (m.advance token).2.state = m.ac.next m.state (symbol token) := if_neg hp
    rw [hstate]
    exact hw

/-- A sequence that is reported ends with the token. -/
theorem Tracks.matched (h : m.Tracks tokens) {token : Int32} (hp : 0 ≤ (m.advance token).1) :
    ∃ seq, m.seqs[(m.advance token).1.toNat]? = some seq ∧ seq <:+ tokens ++ [token] := by
  obtain ⟨w, hw, hsuf⟩ := h.next token
  obtain ⟨x, u, hx, hxw, hu⟩ := AhoCorasick.matchPattern_spec m.numbered.tree hw hp
  have hnum := m.numbered.number x u hx (hu ▸ hp)
  rw [hu, getElem?_map, Option.map_eq_some_iff] at hnum
  obtain ⟨seq, hseq, rfl⟩ := hnum
  obtain ⟨y, hy, he⟩ := suffix_map_iff.mp hxw
  obtain rfl := map_injective_iff.mpr symbol_injective he
  exact ⟨_, hseq, hy.trans hsuf⟩

/-! ## Runs -/

/-- A call of the matcher. -/
inductive Call where
  | advance (token : Int32)
  | reset

/-- A call, and the tokens since the last match or reset. -/
def call (s : TokenMatcher × List Int32) : Call → TokenMatcher × List Int32
  | .advance token =>
    let (p, m) := s.1.advance token
    (m, if 0 ≤ p then [] else s.2 ++ [token])
  | .reset => (s.1.reset, [])

/-- The calls on a new matcher. -/
def run (seqs : List (List Int32)) (calls : List Call) : TokenMatcher × List Int32 :=
  calls.foldl call (ofSeqs seqs, [])

/-- The state is the one after the tokens since the last match or reset. -/
def Fed (m : TokenMatcher) (tokens : List Int32) : Prop := m.state = m.ac.feed (tokens.map symbol)

theorem Fed.call (h : m.Fed tokens) (c : Call) :
    (TokenMatcher.call (m, tokens) c).1.Fed (TokenMatcher.call (m, tokens) c).2 := by
  cases c with
  | reset => rfl
  | advance token =>
    by_cases hp : 0 ≤ (m.advance token).1
    · have htokens : (TokenMatcher.call (m, tokens) (.advance token)).2 = [] := if_pos hp
      rw [htokens]
      exact advance_state_of_match hp
    · have htokens : (TokenMatcher.call (m, tokens) (.advance token)).2 = tokens ++ [token] :=
        if_neg hp
      have hstate : (m.advance token).2.state = m.ac.next m.state (symbol token) := if_neg hp
      rw [htokens]
      refine hstate.trans ?_
      rw [h, ← AhoCorasick.feed_snoc, map_append]
      rfl

theorem call_seqs (s : TokenMatcher × List Int32) (c : Call) : (call s c).1.seqs = s.1.seqs := by
  cases c <;> rfl

theorem run_spec (seqs : List (List Int32)) (calls : List Call) :
    (run seqs calls).1.seqs = collect seqs ∧ (run seqs calls).1.Fed (run seqs calls).2 := by
  induction calls using List.reverseRecOn with
  | nil => exact ⟨rfl, rfl⟩
  | append_singleton calls c ih =>
    rw [run, foldl_append]
    exact ⟨(call_seqs _ c).trans ih.1, ih.2.call c⟩

/-- The result of `advance` is the index of the longest sequence that ends with the token. -/
theorem Fed.advance (h : m.Fed tokens) (token : Int32) :
    LongestIndex m.seqs (tokens ++ [token]) (m.advance token).1 := by
  have hspec := AhoCorasick.feed_matchPattern m.numbered
    (fun w => hasPattern_trieOfSymbols_iff) ((tokens ++ [token]).map symbol)
  rw [map_append, map_singleton, AhoCorasick.feed_snoc] at hspec
  have hval : (m.advance token).1 =
      m.ac.matchPattern (m.ac.next (m.ac.feed (tokens.map symbol)) (symbol token)) := by
    rw [← h]
    rfl
  rw [hval]
  have hsuffix : ∀ s : List Int32, s.map symbol <:+ tokens.map symbol ++ [symbol token] ↔
      s <:+ tokens ++ [token] := fun s => by
    rw [show tokens.map symbol ++ [symbol token] = (tokens ++ [token]).map symbol by simp]
    refine ⟨fun hs => ?_, fun hs => hs.map symbol⟩
    obtain ⟨y, hy, e⟩ := suffix_map_iff.mp hs
    rwa [map_injective_iff.mpr symbol_injective e]
  rcases hspec with ⟨hneg, hno⟩ | ⟨x, hpos, hx, hlong⟩
  · exact .inl ⟨hneg, fun s hs hsuf =>
      hno _ (mem_map_of_mem hs) ((hsuffix s).mpr hsuf)⟩
  · rw [getElem?_map, Option.map_eq_some_iff] at hx
    obtain ⟨s, hs, rfl⟩ := hx
    refine .inr ⟨s, hpos, hs, (hsuffix s).mp hlong.suffix, mem_of_getElem? hs, fun y hy hmem => ?_⟩
    have hmap := hlong.longest (y.map symbol) ((hsuffix y).mpr hy) (mem_map_of_mem hmem)
    obtain ⟨z, hz, e⟩ := suffix_map_iff.mp hmap
    rwa [map_injective_iff.mpr symbol_injective e]

theorem mem_collect {seqs : List (List Int32)} {seq : List Int32} :
    seq ∈ collect seqs ↔ seq ∈ seqs ∧ seq ≠ [] := by
  refine ⟨fun h => ((collect_spec seqs).2 seq h).symm, fun ⟨h, hne⟩ => ?_⟩
  clear * - h hne
  induction seqs using List.reverseRecOn with
  | nil => cases h
  | append_singleton seqs s ih =>
    rw [collect, foldl_append, ← collect, foldl_cons, foldl_nil]
    rcases mem_append.mp h with h | h
    · split
      · exact mem_append_left _ (ih h)
      · exact ih h
    · obtain rfl := mem_singleton.mp h
      split
      · exact mem_append_right _ mem_cons_self
      · next hold => exact by_contra fun hn => hold ⟨hne, hn⟩

end TokenMatcher

/-- The automaton is in the node of the longest suffix of the stream that begins a pattern, and a
match is the longest pattern that ends there; so `advance` reports the longest sequence that ends
with the token, within the tokens since the last match or reset. -/
theorem matching_exact : (∀ (seqs : List (List Nat)) (stream : List Nat),
      let ac := ahoCorasick (trieOfSymbols seqs)
      (∃ z, ac.t.Path z (ac.feed stream) ∧
        Suffix.Longest (fun w => w = [] ∨ ∃ s ∈ seqs, w <+: s) stream z) ∧
      LongestIndex seqs.eraseDups stream (ac.matchPattern (ac.feed stream))) ∧
    ∀ (seqs : List (List Int32)) (calls : List TokenMatcher.Call) (token : Int32),
      let (m, tokens) := TokenMatcher.run seqs calls
      (∀ seq, seq ∈ m.seqs ↔ seq ∈ seqs ∧ seq ≠ []) ∧
        LongestIndex m.seqs (tokens ++ [token]) (m.advance token).1 := by
  refine ⟨fun seqs stream => ⟨?_, ?_⟩, fun seqs calls token => ?_⟩
  · obtain ⟨z, hz, hlong⟩ := AhoCorasick.feed_spec (numbered_eraseDups seqs).tree stream
    exact ⟨z, hz, hlong.suffix, hasWord_trieOfSymbols_iff.mp hlong.mem,
      fun y hy hP => hlong.longest y hy (hasWord_trieOfSymbols_iff.mpr hP)⟩
  · refine AhoCorasick.feed_matchPattern (numbered_eraseDups seqs) (fun w => ?_) stream
    rw [mem_eraseDups]
    exact hasPattern_trieOfSymbols_iff
  · obtain ⟨hseqs, hfed⟩ := TokenMatcher.run_spec seqs calls
    exact ⟨fun seq => hseqs ▸ TokenMatcher.mem_collect, hfed.advance token⟩

end BeeLlama.Sampling
