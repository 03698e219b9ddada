import BeeLlama.Grammar.Utf8Cut
import BeeLlama.Peg.AhoCorasick
import BeeLlama.Peg.Parser
import BeeLlama.Peg.Utf8Chars

/-!
# Texts up to a delimiter (`common_peg_until_parser`)

`until` stops at the first character from which the input goes on with a delimiter, or ends inside
of one, so that on a part of a text it never goes on to a delimiter that the rest completes.

* `walk_spec`: the walk through the trie from a node.
* `checkAt_iff`: at a character `check_at` says whether the parser has to stop.
* `untilLoop_spec`: the parser stops at the first such character.
* `until_le_whole`: what it reads on a prefix, against what it reads on the whole text.
-/

namespace BeeLlama.Peg

open Grammar List Trie

/-! ## The walk through the trie -/

/-- `check_at` on code points. -/
def Trie.walk (t : Trie) : List Nat → Nat → MatchResult
  | [], current => if current ≠ 0 then .partialMatch else .noMatch
  | ch :: w, current =>
    match t.child current ch with
    | none => .noMatch
    | some next => if 0 ≤ t.patternAt next then .completeMatch else t.walk w next

section Walk

variable {t : Trie}

/-- From the node of a word: a pattern is met, or the word ends inside of one, or neither. -/
theorem Trie.Tree.walk_spec (ht : t.Tree) (w : List Nat) {x : List Nat} {v : Nat}
    (hx : t.Path x v) :
    (t.walk w v = .completeMatch ∧ ∃ y, y <+: w ∧ y ≠ [] ∧ t.HasPattern (x ++ y)) ∨
    (∀ y, y <+: w → y ≠ [] → ¬ t.HasPattern (x ++ y)) ∧
      (t.walk w v = .partialMatch ∧ t.HasWord (x ++ w) ∧ (w = [] → v ≠ 0) ∨
        t.walk w v = .noMatch ∧ (¬ t.HasWord (x ++ w) ∨ w = [] ∧ v = 0)) := by
  induction w generalizing x v with
  | nil =>
    refine .inr ⟨fun y hy hne => absurd (prefix_nil.mp hy) hne, ?_⟩
    by_cases hv : v = 0
    · exact .inr ⟨by simp [walk, hv], .inr ⟨rfl, hv⟩⟩
    · exact .inl ⟨by simp [walk, hv], ⟨v, by rwa [append_nil]⟩, fun _ => hv⟩
  | cons ch w ih =>
    have hcons : ∀ y, y <+: ch :: w → y ≠ [] → ∃ z, z <+: w ∧ y = ch :: z := by
      intro y hy hne
      obtain ⟨a, z, rfl⟩ := exists_cons_of_ne_nil hne
      obtain ⟨rfl, hz⟩ := cons_prefix_cons.mp hy
      exact ⟨z, hz, rfl⟩
    have happ : ∀ z, x ++ ch :: z = x ++ [ch] ++ z := fun z => by simp
    cases hc : t.child v ch with
    | none =>
      -- no word goes on with the symbol
      have hno : ∀ z, ¬ t.HasWord (x ++ ch :: z) := by
        intro z h
        rw [happ] at h
        exact not_hasWord_snoc hx hc (t.prefixClosed.of_prefix (prefix_append _ z) h)
      refine .inr ⟨fun y hy hne h => ?_, .inr ⟨by simp [walk, hc], .inl (hno w)⟩⟩
      obtain ⟨z, -, rfl⟩ := hcons y hy hne
      exact hno z (hasWord_of_hasPattern h)
    | some next =>
      have hnext := hx.snoc hc
      by_cases hpat : 0 ≤ t.patternAt next
      · exact .inl ⟨by simp [walk, hc, hpat], [ch], ⟨w, rfl⟩, cons_ne_nil _ _,
          next, hnext, hpat⟩
      have hwalk : t.walk (ch :: w) v = t.walk w next := by simp [walk, hc, hpat]
      rw [hwalk]
      rcases ih hnext with ⟨hm, y, hy, hne, hp⟩ | ⟨hno, hm⟩
      · refine .inl ⟨hm, ch :: y, cons_prefix_cons.mpr ⟨rfl, hy⟩, cons_ne_nil _ _, ?_⟩
        rwa [happ]
      · refine .inr ⟨fun y hy hne h => ?_, ?_⟩
        · obtain ⟨z, hz, rfl⟩ := hcons y hy hne
          rw [happ] at h
          by_cases hz0 : z = []
          · obtain ⟨u, hu, hp⟩ := h
            rw [hz0, append_nil] at hu
            rw [hu.unique hnext] at hp
            exact hpat hp
          · exact hno z hz hz0 h
        · rw [happ]
          rcases hm with ⟨hm, hw, -⟩ | ⟨hm, hw | ⟨-, h0⟩⟩
          · exact .inl ⟨hm, hw, fun h => by cases h⟩
          · exact .inr ⟨hm, .inl hw⟩
          · exact absurd h0 (ht.child_ne_zero hc)

/-- `check_at` walks over the characters that are complete. -/
theorem checkLoop_encode (xs : List UInt8) (b : List Char) {l : List UInt8} (hl : Part l)
    (current fuel : Nat) (hf : (encode b ++ l).length ≤ fuel) :
    t.checkLoop (xs ++ (encode b ++ l)) fuel xs.length current =
      t.walk (b.map Char.toNat) current := by
  induction b generalizing xs current fuel with
  | nil =>
    cases fuel with
    | zero => rfl
    | succ fuel =>
      have hp := parseUtf8_append xs l 0
      rw [Nat.add_zero, parseUtf8_part hl] at hp
      simp [checkLoop, walk, hp]
  | cons c b ih =>
    have hc := length_pos_of_ne_nil (String.utf8EncodeChar_ne_nil (c := c))
    rw [encode_cons, append_assoc, length_append] at hf
    obtain ⟨fuel, rfl⟩ := Nat.exists_eq_succ_of_ne_zero (show fuel ≠ 0 by omega)
    have hp := parseUtf8_append xs (String.utf8EncodeChar c ++ (encode b ++ l)) 0
    rw [Nat.add_zero, parseUtf8_encode] at hp
    rw [encode_cons, append_assoc]
    simp only [checkLoop, walk, hp, map_cons]
    cases hch : t.child current c.toNat with
    | none => rfl
    | some next =>
      have h := ih (xs ++ String.utf8EncodeChar c) next fuel (by omega)
      rw [append_assoc, length_append] at h
      simp only [h]
      rfl

end Walk

/-! ## Where the parser stops -/

/-- The text goes on with a delimiter, or ends inside of one. -/
def Stops (ds : List (List Char)) (b : List Char) : Prop :=
  ∃ d ∈ ds, d <+: b ∨ b ≠ [] ∧ b <+: d

section Stops

variable {ds : List (List Char)}

/-- What does not stop at a part of the text does not stop at all of it. -/
theorem not_stops_append {a b : List Char} (ha : a ≠ []) (h : ¬ Stops ds a) :
    ¬ Stops ds (a ++ b) := by
  rintro ⟨d, hd, hpre | ⟨-, hpre⟩⟩
  · rcases prefix_or_prefix_of_prefix hpre (prefix_append a b) with hp | hp
    · exact h ⟨d, hd, .inl hp⟩
    · exact h ⟨d, hd, .inr ⟨ha, hp⟩⟩
  · exact h ⟨d, hd, .inr ⟨ha, (prefix_append a b).trans hpre⟩⟩

theorem toNat_injective : Function.Injective Char.toNat :=
  fun _ _ h => Char.ext (UInt32.toNat_inj.mp h)

theorem map_prefix_iff {d b : List Char} : d.map Char.toNat <+: b.map Char.toNat ↔ d <+: b := by
  constructor
  · intro h
    obtain ⟨l, hl, e⟩ := prefix_map_iff.mp h
    rwa [map_injective_iff.mpr toNat_injective e]
  · exact fun h => h.map _

/-- The trie of the delimiters. -/
abbrev delimiterTrie (ds : List (List Char)) : Trie := trieOf (ds.map encode)

theorem hasPattern_iff_mem {w : List Nat} :
    (delimiterTrie ds).HasPattern w ↔ ∃ d ∈ ds, w = d.map Char.toNat := by
  rw [hasPattern_trieOf_iff]
  simp

theorem hasWord_iff_begins (hne : ds ≠ []) {w : List Nat} :
    (delimiterTrie ds).HasWord w ↔ ∃ d ∈ ds, w <+: d.map Char.toNat := by
  rw [hasWord_trieOf_iff (by simpa using hne)]
  simp

variable (hds : ∀ d ∈ ds, d ≠ [])

include hds in
/-- At a character the trie says whether the parser stops. -/
theorem checkAt_iff (xs : List UInt8) (b : List Char) {l : List UInt8} (hl : Part l) :
    (delimiterTrie ds).checkAt (xs ++ (encode b ++ l)) xs.length ≠ .noMatch ↔ Stops ds b := by
  have hlen : (xs ++ (encode b ++ l)).length - xs.length = (encode b ++ l).length := by
    rw [length_append, Nat.add_sub_cancel_left]
  rw [checkAt, hlen, checkLoop_encode xs b hl 0 _ le_rfl]
  have hpat : ∀ d ∈ ds, d <+: b → ∃ y, y <+: b.map Char.toNat ∧ y ≠ [] ∧
      (delimiterTrie ds).HasPattern ([] ++ y) := fun d hd hp =>
    ⟨_, hp.map _, by simpa using hds d hd, hasPattern_iff_mem.mpr ⟨d, hd, rfl⟩⟩
  rcases (tree_trieOf (ds.map encode)).walk_spec
    (b.map Char.toNat) Trie.Path.nil with
    ⟨hm, y, hy, -, hp⟩ | ⟨hno, ⟨hm, hw, hb⟩ | ⟨hm, hw⟩⟩
  · obtain ⟨d, hd, rfl⟩ := hasPattern_iff_mem.mp hp
    simp only [hm, ne_eq, reduceCtorEq, not_false_eq_true, true_iff]
    exact ⟨d, hd, .inl (map_prefix_iff.mp hy)⟩
  · simp only [hm, ne_eq, reduceCtorEq, not_false_eq_true, true_iff]
    have hbne : b ≠ [] := by
      rintro rfl
      exact hb rfl rfl
    by_cases hne : ds = []
    · -- only the root is a node
      subst hne
      obtain ⟨v, hv⟩ := hw
      have := (path_empty_iff.mp hv).1
      simp [hbne] at this
    · obtain ⟨d, hd, hp⟩ := (hasWord_iff_begins hne).mp hw
      exact ⟨d, hd, .inr ⟨hbne, map_prefix_iff.mp hp⟩⟩
  · simp only [hm, ne_eq, not_true_eq_false, false_iff]
    rintro ⟨d, hd, hp | ⟨hbne, hp⟩⟩
    · obtain ⟨y, hy, hyne, h⟩ := hpat d hd hp
      exact hno y hy hyne h
    · rcases hw with hw | ⟨hb, -⟩
      · exact hw ((hasWord_iff_begins (ne_nil_of_mem hd)).mpr ⟨d, hd, hp.map _⟩)
      · exact hbne (by simpa using hb)

include hds in
/-- The parser goes over the characters up to the first one at which it stops. -/
theorem untilLoop_spec {ctx : ParseContext} (start : Nat) (xs : List UInt8) (b : List Char)
    {l : List UInt8} (hl : Part l) (hin : ctx.input = xs ++ (encode b ++ l))
    (hend : ctx.lenient = true ∨ l = []) (fuel : Nat) (hf : (encode b ++ l).length < fuel) :
    ∃ a b', b = a ++ b' ∧
      (untilLoop ctx (delimiterTrie ds) start fuel xs.length).stop = xs.length + (encode a).length ∧
      (∀ a₁ a₂, a = a₁ ++ a₂ → a₂ ≠ [] → ¬ Stops ds (a₂ ++ b')) ∧ (Stops ds b' ∨ b' = []) := by
  obtain ⟨fuel, rfl⟩ := Nat.exists_eq_succ_of_ne_zero (show fuel ≠ 0 by omega)
  induction b generalizing xs fuel with
  | nil =>
    refine ⟨[], [], rfl, ?_, fun a₁ a₂ e hne => absurd (append_eq_nil_iff.mp e.symm).2 hne,
      .inr rfl⟩
    have hp := parseUtf8_append xs l 0
    rw [Nat.add_zero, parseUtf8_part hl] at hp
    rw [encode_nil, nil_append] at hin
    simp only [untilLoop, hin, hp, length_append, encode_nil, length_nil, Nat.add_zero]
    rcases hend with hlen | rfl
    · rw [atEnd, if_pos hlen]
      split
      · rfl
      · split <;> rfl
    · simp only [length_nil, Nat.add_zero, lt_irrefl, if_false]
      split <;> rfl
  | cons c b ih =>
    have hc := length_pos_of_ne_nil (String.utf8EncodeChar_ne_nil (c := c))
    have hp := parseUtf8_append xs (String.utf8EncodeChar c ++ (encode b ++ l)) 0
    rw [Nat.add_zero, parseUtf8_encode] at hp
    have hcheck := checkAt_iff hds xs (c :: b) hl
    rw [encode_cons, append_assoc] at hin hcheck hf
    rw [length_append] at hf
    have hlt : xs.length < ctx.input.length := by
      rw [hin, length_append, length_append]
      omega
    unfold untilLoop
    rw [if_pos hlt, hin, hp]
    dsimp only
    by_cases hstop : Stops ds (c :: b)
    · refine ⟨[], c :: b, rfl, ?_, fun a₁ a₂ e hne =>
        absurd (append_eq_nil_iff.mp e.symm).2 hne, .inl hstop⟩
      have hm := hcheck.mpr hstop
      split
      · rfl
      · rfl
      · exact absurd ‹_› hm
    · have hm := not_not.mp (mt hcheck.mp hstop)
      rw [hm]
      have hnext : ctx.input = xs ++ String.utf8EncodeChar c ++ (encode b ++ l) := by
        rw [hin, append_assoc]
      obtain ⟨fuel, rfl⟩ := Nat.exists_eq_succ_of_ne_zero (show fuel ≠ 0 by omega)
      obtain ⟨a, b', e, hs, hbefore, hend'⟩ :=
        ih (xs ++ String.utf8EncodeChar c) hnext fuel (by omega)
      refine ⟨c :: a, b', by rw [e, cons_append], ?_, ?_, hend'⟩
      · rw [length_append] at hs
        rw [hs, encode_cons, length_append, Nat.add_assoc]
      · intro a₁ a₂ ea hne
        cases a₁ with
        | nil =>
          rw [nil_append] at ea
          rw [← ea, cons_append, ← e]
          exact hstop
        | cons c' a₁ => exact hbefore a₁ a₂ (List.cons.inj ea).2 hne

end Stops

/-! ## Positions in the bytes -/

/-- From `start` up to the position there are complete characters. -/
def CharPos (p : List UInt8) (start i : Nat) : Prop :=
  ∃ a : List Char, encode a <+: p.drop start ∧ i = start + (encode a).length

/-- The rest goes on with a delimiter, or is a proper part of one beside a character that is cut. -/
def StopsAt (ds : List (List Char)) (p : List UInt8) (i : Nat) : Prop :=
  (∃ d ∈ ds, encode d <+: p.drop i) ∨
    ∃ a l, p.drop i = encode a ++ l ∧ a ≠ [] ∧ Part l ∧ ∃ d ∈ ds, a <+: d ∧ a ≠ d

/-- The first character position from which the input stops, or the end of its characters. -/
structure FirstStop (ds : List (List Char)) (p : List UInt8) (start e : Nat) : Prop where
  charPos : CharPos p start e
  before : ∀ i < e, CharPos p start i → ¬ StopsAt ds p i
  stop : StopsAt ds p e ∨ Part (p.drop e)

/-- An `until` parser from a position. -/
def untilFrom (ctx : ParseContext) (ds : List (List Char)) (start : Nat) : ParseResult :=
  terminal ctx (.until_ (ds.map encode)) start

section Positions

variable {ds : List (List Char)} {xs l : List UInt8} {a b : List Char}

theorem encode_prefix_cases {u : List Char} (hu : u <+: a ++ b)
    (hlt : (encode u).length < (encode a).length) : ∃ a₂, a = u ++ a₂ ∧ a₂ ≠ [] := by
  rcases prefix_or_prefix_of_prefix hu (prefix_append a b) with ⟨a₂, rfl⟩ | ⟨z, rfl⟩
  · refine ⟨a₂, rfl, ?_⟩
    rintro rfl
    simp at hlt
  · rw [encode_append, length_append] at hlt
    omega

theorem drop_encode (xs l : List UInt8) (a b : List Char) :
    (xs ++ (encode (a ++ b) ++ l)).drop (xs.length + (encode a).length) = encode b ++ l := by
  rw [encode_append, append_assoc, ← drop_drop, drop_left, drop_left]

/-- At a character the bytes say what the characters say. -/
theorem stopsAt_iff (hl : Part l) :
    StopsAt ds (xs ++ (encode (a ++ b) ++ l)) (xs.length + (encode a).length) ↔ Stops ds b := by
  rw [StopsAt, drop_encode]
  constructor
  · rintro (⟨d, hd, hp⟩ | ⟨a', l', e, hne, hl', d, hd, hp, -⟩)
    · exact ⟨d, hd, .inl (prefix_of_encode hl hp)⟩
    · have h1 : a' <+: b := prefix_of_encode hl (e ▸ prefix_append _ _)
      have h2 : b <+: a' := prefix_of_encode hl' (e ▸ prefix_append _ _)
      obtain rfl := h1.eq_of_length_le h2.length_le
      exact ⟨d, hd, .inr ⟨hne, hp⟩⟩
  · rintro ⟨d, hd, ⟨z, rfl⟩ | ⟨hne, hp⟩⟩
    · exact .inl ⟨d, hd, by rw [encode_append, append_assoc]; exact prefix_append _ _⟩
    · by_cases e : b = d
      · exact .inl ⟨d, hd, e ▸ prefix_append _ _⟩
      · exact .inr ⟨b, l, rfl, hne, hl, d, hd, hp, e⟩

variable (hds : ∀ d ∈ ds, d ≠ [])

include hds in
/-- From a character on. -/
theorem untilFrom_spec (lenient : Bool) (xs : List UInt8) (b : List Char) (hl : Part l)
    (hend : lenient = true ∨ l = []) :
    ∃ a b', b = a ++ b' ∧
      (untilFrom ⟨xs ++ (encode b ++ l), lenient⟩ ds xs.length).stop =
        xs.length + (encode a).length ∧
      (∀ a₁ a₂, a = a₁ ++ a₂ → a₂ ≠ [] → ¬ Stops ds (a₂ ++ b')) ∧ (Stops ds b' ∨ b' = []) :=
  untilLoop_spec hds xs.length xs b hl rfl hend _ (by simp only [length_append]; omega)

include hds in
theorem firstStop (hl : Part l) (xs : List UInt8) (b : List Char) :
    FirstStop ds (xs ++ (encode b ++ l)) xs.length
      (untilFrom ⟨xs ++ (encode b ++ l), true⟩ ds xs.length).stop := by
  obtain ⟨a, b', rfl, hstop, hbefore, hend⟩ := untilFrom_spec hds true xs b hl (.inl rfl)
  rw [hstop]
  have hdrop : (xs ++ (encode (a ++ b') ++ l)).drop xs.length = encode (a ++ b') ++ l := drop_left
  refine ⟨⟨a, ?_, rfl⟩, ?_, ?_⟩
  · rw [hdrop, encode_append, append_assoc]
    exact prefix_append _ _
  · rintro i hi ⟨u, hu, rfl⟩
    rw [hdrop] at hu
    obtain ⟨a2, rfl, hne⟩ := encode_prefix_cases (prefix_of_encode hl hu) (by omega)
    rw [append_assoc, stopsAt_iff hl]
    exact hbefore u a2 rfl hne
  · rcases hend with h | rfl
    · exact .inl ((stopsAt_iff hl).mpr h)
    · refine .inr ?_
      rw [drop_encode]
      exact hl

/-- A position is at a character, or inside of one. -/
theorem charPos_cases (cs : List Char) {n : Nat} (hn : n ≤ (encode cs).length) :
    (∃ x y, cs = x ++ y ∧ n = (encode x).length) ∨
      ∃ x c y l b r, cs = x ++ c :: y ∧ String.utf8EncodeChar c = l ++ b :: r ∧ l ≠ [] ∧
        n = (encode x ++ l).length := by
  induction cs generalizing n with
  | nil => exact .inl ⟨[], [], rfl, Nat.le_zero.mp hn⟩
  | cons c cs ih =>
    rw [encode_cons, length_append] at hn
    rcases Nat.lt_or_ge n (String.utf8EncodeChar c).length with hlt | hge
    · by_cases h0 : n = 0
      · exact .inl ⟨[], c :: cs, rfl, h0⟩
      · have hne : (String.utf8EncodeChar c).drop n ≠ [] := by
          rw [ne_eq, drop_eq_nil_iff]
          omega
        obtain ⟨b, r, hr⟩ := exists_cons_of_ne_nil hne
        refine .inr ⟨[], c, cs, (String.utf8EncodeChar c).take n, b, r, rfl, ?_, ?_, ?_⟩
        · rw [← hr, take_append_drop]
        · rw [ne_eq, take_eq_nil_iff]
          have := String.utf8EncodeChar_ne_nil (c := c)
          tauto
        · rw [encode_nil, nil_append, length_take]
          omega
    · rcases ih (n := n - (String.utf8EncodeChar c).length) (by omega) with
        ⟨x, y, rfl, hx⟩ | ⟨x, d, y, l, b, r, rfl, e, hl, hx⟩
      · refine .inl ⟨c :: x, y, rfl, ?_⟩
        rw [encode_cons, length_append]
        omega
      · refine .inr ⟨c :: x, d, y, l, b, r, rfl, e, hl, ?_⟩
        rw [encode_cons, append_assoc, length_append]
        omega

include hds in
/-- What the parser reads on a prefix, against what it reads on the whole text. -/
theorem until_le {y z : List Char} (hl : Part l) (xs : List UInt8) (he : y <+: z) :
    (untilFrom ⟨xs ++ (encode y ++ l), true⟩ ds xs.length).stop ≤
        (untilFrom ⟨xs ++ (encode z ++ []), false⟩ ds xs.length).stop ∧
      ∀ u v, z = u ++ v →
        xs.length + (encode u).length <
          (untilFrom ⟨xs ++ (encode y ++ l), true⟩ ds xs.length).stop →
        ¬ Stops ds v := by
  obtain ⟨a, b, rfl, hstop, hbefore, -⟩ := untilFrom_spec hds true xs y hl (.inl rfl)
  have hno : ∀ u v, z = u ++ v → (encode u).length < (encode a).length → ¬ Stops ds v := by
    rintro u v rfl hlt
    obtain ⟨w, hw⟩ := he
    rw [append_assoc] at hw
    obtain ⟨a2, rfl, hne⟩ := encode_prefix_cases (hw ▸ prefix_append u v) hlt
    rw [append_assoc] at hw
    rw [← append_cancel_left hw, ← append_assoc]
    exact not_stops_append (by simp [hne]) (hbefore u a2 rfl hne)
  rw [hstop]
  refine ⟨?_, fun u v e hlt => hno u v e (by omega)⟩
  obtain ⟨a', b', e, hstop', -, hend⟩ := untilFrom_spec hds false xs z part_nil (.inr rfl)
  rw [hstop']
  by_contra hlt
  rcases hend with h | rfl
  · exact hno a' b' e (by omega) h
  · rw [append_nil] at e
    obtain ⟨w, hw⟩ := he
    rw [← e, ← hw, encode_append, encode_append, length_append, length_append] at hlt
    omega

/-- Inside of a character the parser fails, but on a prefix that ends there. -/
theorem untilFrom_inside (ctx : ParseContext) {start : Nat} {b : UInt8} {rest : List UInt8}
    (hb : ∀ ys, parseUtf8 (b :: ys) 0 = .invalid) (hdrop : ctx.input.drop start = b :: rest) :
    untilFrom ctx ds start = failAt start := by
  have hlt : start < ctx.input.length := by
    by_contra h
    rw [drop_eq_nil_of_le (by omega)] at hdrop
    cases hdrop
  have hp := parseUtf8_append (ctx.input.take start) (ctx.input.drop start) 0
  rw [take_append_drop, length_take, Nat.min_eq_left hlt.le, Nat.add_zero, hdrop, hb] at hp
  simp only [untilFrom, terminal, untilLoop, if_pos hlt, hp]

end Positions

/-- On a prefix of a text the parser reads no more than on the whole of it: it stops at the first
character from which the prefix goes on with a delimiter or ends inside of one, and up to there no
delimiter begins in the text. -/
theorem until_le_whole (ds : List (List Char)) (hds : ∀ d ∈ ds, d ≠ []) (cs : List Char)
    (p : List UInt8) (hp : p <+: encode cs) (start : Nat) (hs : start ≤ p.length)
    (hfail : (untilFrom ⟨p, true⟩ ds start).type ≠ .fail) :
    (untilFrom ⟨p, true⟩ ds start).stop ≤ (untilFrom ⟨encode cs, false⟩ ds start).stop ∧
      (∀ i, start ≤ i → i < (untilFrom ⟨p, true⟩ ds start).stop → CharPos (encode cs) 0 i →
        ∀ d ∈ ds, ¬ encode d <+: (encode cs).drop i) ∧
      FirstStop ds p start (untilFrom ⟨p, true⟩ ds start).stop := by
  rcases charPos_cases cs (hs.trans hp.length_le) with
    ⟨x, z, rfl, rfl⟩ | ⟨x, c, y, l, b, r, rfl, e, hl, rfl⟩
  · -- the prefix is the characters of before, more characters and a part of one
    obtain ⟨q, rfl⟩ : encode x <+: p := by
      refine prefix_of_prefix_length_le ?_ hp hs
      rw [encode_append]
      exact prefix_append _ _
    rw [encode_append, prefix_append_right_inj] at hp
    obtain ⟨y, c, l, r, rfl, e, hr⟩ := BeginsText.split ⟨z, hp⟩
    have hl : Part l := ⟨c, r, e, hr⟩
    have he : y <+: z := by
      refine prefix_of_encode (l := []) part_nil ?_
      rw [append_nil]
      exact (prefix_append _ _).trans hp
    obtain ⟨hle, hno⟩ := until_le hds hl (encode x) he
    rw [append_nil, ← encode_append] at hle
    refine ⟨hle, ?_, firstStop hds hl (encode x) y⟩
    rintro i hi hlt ⟨a, ha, rfl⟩ d hd hpre
    rw [Nat.zero_add] at hi hlt hpre
    rw [drop_zero] at ha
    have ha' : a <+: x ++ z := prefix_of_encode (l := []) part_nil (by rwa [append_nil])
    obtain ⟨u, rfl⟩ : x <+: a := by
      rcases prefix_or_prefix_of_prefix (prefix_append x z) ha' with h | ⟨u, rfl⟩
      · exact h
      · rw [encode_append, length_append] at hi
        by_cases hu : u = []
        · rw [hu, append_nil]
        · have := length_encode_pos hu
          omega
    rw [prefix_append_right_inj] at ha'
    obtain ⟨v, rfl⟩ := ha'
    have hdrop := drop_encode [] [] (x ++ u) v
    simp only [nil_append, append_nil, length_nil, Nat.zero_add, append_assoc] at hdrop
    rw [hdrop] at hpre
    rw [encode_append, length_append] at hlt
    exact hno u v rfl hlt ⟨d, hd, .inl (prefix_of_encode (l := []) part_nil (by rwa [append_nil]))⟩
  · have hinv := fun ys => parseUtf8_inside e hl ys
    have hcs : encode (x ++ c :: y) = encode x ++ l ++ b :: (r ++ encode y) := by
      simp [e]
    rw [hcs] at hp ⊢
    obtain ⟨q, rfl⟩ : encode x ++ l <+: p := prefix_of_prefix_length_le (prefix_append _ _) hp hs
    have hwhole := @untilFrom_inside ds ⟨encode x ++ l ++ b :: (r ++ encode y), false⟩ _ b _
      hinv drop_left
    cases q with
    | cons b' q =>
      obtain ⟨rfl, -⟩ := cons_prefix_cons.mp ((prefix_append_right_inj _).mp hp)
      exact absurd (by
        rw [untilFrom_inside ⟨encode x ++ l ++ b' :: q, true⟩ hinv drop_left]
        rfl) hfail
    | nil =>
      rw [append_nil]
      have hmore : (untilFrom ⟨encode x ++ l, true⟩ ds (encode x ++ l).length).stop =
          (encode x ++ l).length := by
        simp [untilFrom, terminal, untilLoop]
      rw [hmore, hwhole]
      refine ⟨le_rfl, fun i hi hlt => by omega, ⟨[], nil_prefix, rfl⟩, ?_, ?_⟩
      · rintro i hi ⟨a, -, rfl⟩
        omega
      · rw [drop_length]
        exact .inr part_nil

/-- Of `a<c` the prefix `a<` is read up to the part of the delimiter `<b`. -/
theorem until_le_whole_part : (untilFrom ⟨[97, 60], true⟩ [['<', 'b']] 0).stop ≤
        (untilFrom ⟨encode ['a', '<', 'c'], false⟩ [['<', 'b']] 0).stop ∧
      (∀ i, 0 ≤ i → i < (untilFrom ⟨[97, 60], true⟩ [['<', 'b']] 0).stop →
        CharPos (encode ['a', '<', 'c']) 0 i → ∀ d ∈ [['<', 'b']],
          ¬ encode d <+: (encode ['a', '<', 'c']).drop i) ∧
      FirstStop [['<', 'b']] [97, 60] 0 (untilFrom ⟨[97, 60], true⟩ [['<', 'b']] 0).stop :=
  until_le_whole [['<', 'b']] (by decide) ['a', '<', 'c'] [97, 60] (by decide) 0 (by decide)
    (by decide)

end BeeLlama.Peg
