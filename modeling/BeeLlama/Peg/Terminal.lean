import BeeLlama.Peg.Parser

/-!
# Terminals on a prefix of the input

The lenient result of a terminal on a prefix is compared with the strict result on the whole input.
It asks for more input, or it is the same, or both succeed and the terminal reads the prefix to its
end, or it stops inside of the prefix at a place where it does not stop on the whole input
(`guesses`).

* `terminal_agrees`: without a guess the results agree.
-/

namespace BeeLlama.Peg

open List Trie

section Prefix

variable {s : List UInt8} {n : Nat}

/-- The context of the prefix, whose end is not the end of the input. -/
abbrev cut (s : List UInt8) (n : Nat) : ParseContext := ⟨s.take n, true⟩

/-- The context of the whole input. -/
abbrev whole (s : List UInt8) : ParseContext := ⟨s, false⟩

theorem take_get (k : Nat) : (s.take n)[k]? = none ∨ (s.take n)[k]? = s[k]? := by
  rw [getElem?_take]
  split
  · exact .inr rfl
  · exact .inl rfl

/-- The result asks for more input, or it is that on the whole input. -/
def MoreOr (r r' : ParseResult) : Prop := r.type = .needMore ∨ r = r'

theorem parseLiteral_take (start : Nat) (literal : List UInt8) (pos : Nat) :
    MoreOr (parseLiteral (cut s n) start literal pos)
      (parseLiteral (whole s) start literal pos) := by
  induction literal generalizing pos with
  | nil => exact .inr rfl
  | cons b literal ih =>
    rcases take_get (s := s) (n := n) pos with e | e
    · exact .inl (by simp [parseLiteral, e, atEnd])
    · simp only [parseLiteral, e]
      cases s[pos]? with
      | none => exact .inl rfl
      | some c =>
        dsimp only
        split
        · exact .inr rfl
        · exact ih (pos + 1)

theorem parseAny_take (start : Nat) :
    MoreOr (parseAny (cut s n) start) (parseAny (whole s) start) := by
  rcases parseUtf8_take s n start with e | e
  · exact .inl (by simp [parseAny, e, atEnd])
  · simp only [parseAny, e]
    cases parseUtf8 s start with
    | success c k => exact .inr rfl
    | incomplete => exact .inl rfl
    | invalid => exact .inr rfl

theorem unicodeEscape_take (start k pos : Nat) :
    MoreOr (unicodeEscape (cut s n) start k pos) (unicodeEscape (whole s) start k pos) := by
  induction k generalizing pos with
  | zero => exact .inr rfl
  | succ k ih =>
    rcases take_get (s := s) (n := n) pos with e | e
    · exact .inl (by simp [unicodeEscape, e, atEnd])
    · simp only [unicodeEscape, e]
      cases s[pos]? with
      | none => exact .inl rfl
      | some c =>
        dsimp only
        split
        · exact .inr rfl
        · exact ih (pos + 1)

theorem escapeSequence_take (start pos : Nat) (delimiter : UInt8) :
    MoreOr (escapeSequence (cut s n) start pos delimiter)
      (escapeSequence (whole s) start pos delimiter) := by
  rcases take_get (s := s) (n := n) (pos + 1) with e | e
  · exact .inl (by simp [escapeSequence, e, atEnd])
  · simp only [escapeSequence, e]
    cases s[pos + 1]? with
    | none => exact .inl rfl
    | some c =>
      dsimp only
      split
      · exact .inr rfl
      · split
        · rcases unicodeEscape_take (s := s) (n := n) start 4 (pos + 2) with hm | hm
          · exact .inl (by simp [hm])
          · rw [hm]
            split
            · exact .inl rfl
            · exact .inr rfl
        · exact .inr rfl

/-- An escape sequence ends behind its first byte and inside of the input. -/
theorem escapeSequence_stop {ctx : ParseContext} {start pos : Nat} {delimiter : UInt8}
    (h : (escapeSequence ctx start pos delimiter).type = .success) :
    pos < (escapeSequence ctx start pos delimiter).stop ∧
      (escapeSequence ctx start pos delimiter).stop ≤ ctx.input.length := by
  have huni : ∀ (k pos : Nat), (unicodeEscape ctx start k pos).type = .success →
      pos ≤ ctx.input.length → pos ≤ (unicodeEscape ctx start k pos).stop ∧
        (unicodeEscape ctx start k pos).stop ≤ ctx.input.length := by
    intro k
    induction k with
    | zero => exact fun pos _ hle => ⟨le_rfl, hle⟩
    | succ k ih =>
      intro pos h hle
      unfold unicodeEscape at h ⊢
      cases e : ctx.input[pos]? with
      | none =>
        simp only [e, atEnd, failAt] at h
        split at h <;> cases h
      | some c =>
        have hlt := (List.getElem?_eq_some_iff.mp e).1
        simp only [e] at h ⊢
        split at h
        · cases h
        · next hx =>
          rw [if_neg hx]
          have := ih (pos + 1) h hlt
          omega
  unfold escapeSequence at h ⊢
  cases e : ctx.input[pos + 1]? with
  | none =>
    simp only [e, atEnd, failAt] at h
    split at h <;> cases h
  | some c =>
    have hlt := (List.getElem?_eq_some_iff.mp e).1
    simp only [e] at h ⊢
    split at h
    · next hc =>
      rw [if_pos hc]
      exact ⟨by dsimp only; omega, by dsimp only; omega⟩
    · next hc =>
      rw [if_neg hc]
      split at h
      · next hu =>
        rw [if_pos hu]
        split at h
        · cases h
        · next hm =>
          rw [if_neg hm]
          have := huni 4 (pos + 2) h hlt
          omega
      · cases h

theorem stringLoop_take (delimiter : UInt8) (start : Nat) {fuel fuel' pos : Nat}
    (hf : n - pos < fuel) (hf' : s.length - pos < fuel') (hn : n ≤ s.length) :
    MoreOr (stringLoop (cut s n) delimiter start fuel pos)
      (stringLoop (whole s) delimiter start fuel' pos) := by
  induction fuel generalizing fuel' pos with
  | zero => omega
  | succ fuel ih =>
    obtain ⟨fuel', rfl⟩ := Nat.exists_eq_succ_of_ne_zero (show fuel' ≠ 0 by omega)
    rcases take_get (s := s) (n := n) pos with e | e
    · exact .inl (by simp [stringLoop, e])
    · simp only [stringLoop, e]
      cases hs : s[pos]? with
      | none => exact .inl rfl
      | some c =>
        dsimp only
        split
        · exact .inr rfl
        · split
          · rcases escapeSequence_take (s := s) (n := n) start pos delimiter with hm | hm
            · exact .inl (by simp [hm])
            · rw [hm]
              split
              · next ht =>
                have hstop := escapeSequence_stop (hm ▸ ht)
                have hstop' := escapeSequence_stop ht
                simp only [length_take] at hstop hstop'
                exact ih (by omega) (by omega)
              · exact .inr rfl
          · rcases parseUtf8_take s n pos with hu | hu
            · exact .inl (by simp [hu, atEnd])
            · rw [hu]
              cases hp : parseUtf8 s pos with
              | success c k =>
                have h2 := parseUtf8_success (hu.trans hp)
                simp only [length_take] at h2
                exact ih (by omega) (by omega)
              | incomplete => exact .inl rfl
              | invalid => exact .inr rfl

/-! ## Delimiters -/

/-- What the prefix says about a delimiter holds for the whole input, unless the prefix ends inside
of a delimiter. -/
theorem checkLoop_take {t : Trie} (ht : t.Rooted) (pos current : Nat) {fuel fuel' : Nat}
    (hf : n - pos ≤ fuel) (hf' : s.length - pos ≤ fuel') (hn : n ≤ s.length) :
    t.checkLoop (s.take n) fuel pos current = .partialMatch ∨
      t.checkLoop (s.take n) fuel pos current = t.checkLoop s fuel' pos current ∨
        current = 0 ∧ parseUtf8 (s.take n) pos = .incomplete := by
  have hlen : (s.take n).length = n := by simp [hn]
  induction fuel generalizing pos current fuel' with
  | zero =>
    by_cases hc : current = 0
    · exact .inr (.inr ⟨hc, parseUtf8_of_le (by omega)⟩)
    · exact .inl (by simp [checkLoop, hc])
  | succ fuel ih =>
    rcases parseUtf8_take s n pos with hu | hu
    · by_cases hc : current = 0
      · exact .inr (.inr ⟨hc, hu⟩)
      · exact .inl (by simp [checkLoop, hu, hc])
    · cases hp : parseUtf8 s pos with
      | success c k =>
        have h1 := parseUtf8_success hp
        obtain ⟨fuel', rfl⟩ := Nat.exists_eq_succ_of_ne_zero (show fuel' ≠ 0 by omega)
        simp only [checkLoop, hu, hp]
        cases hc : t.child current c with
        | none => exact .inr (.inl rfl)
        | some next =>
          dsimp only
          split
          · exact .inr (.inl rfl)
          · rcases ih (pos + k) next (show n - (pos + k) ≤ fuel by omega)
              (show s.length - (pos + k) ≤ fuel' by omega) with h | h | ⟨rfl, hi⟩
            · exact .inl h
            · exact .inr (.inl h)
            · exact absurd rfl (ht.child hc)
      | incomplete =>
        by_cases hc : current = 0
        · exact .inr (.inr ⟨hc, hu.trans hp⟩)
        · exact .inl (by simp [checkLoop, hu, hp, hc])
      | invalid =>
        by_cases hc : current = 0
        · refine .inr (.inl ?_)
          cases fuel' with
          | zero => simp [checkLoop, hu, hp, hc]
          | succ fuel' => simp [checkLoop, hu, hp]
        · exact .inl (by simp [checkLoop, hu, hp, hc])

/-- A delimiter that begins in the prefix, or none, is what the whole input has there, too. -/
theorem checkAt_take {t : Trie} (ht : t.Rooted) (hn : n ≤ s.length) {pos c k : Nat}
    (hp : parseUtf8 (s.take n) pos = .success c k) :
    t.checkAt (s.take n) pos = .partialMatch ∨ t.checkAt (s.take n) pos = t.checkAt s pos := by
  have hlen : (s.take n).length = n := by simp [hn]
  rcases checkLoop_take ht pos 0 (show n - pos ≤ n - pos from le_rfl)
    (show s.length - pos ≤ s.length - pos from le_rfl) hn with h | h | ⟨-, h⟩
  · exact .inl (by rwa [checkAt, hlen])
  · exact .inr (by rwa [checkAt, hlen])
  · rw [hp] at h
    cases h

/-- An `until` on the prefix asks for more input, or it does what it does on the whole input, or it
stops at a part of a delimiter. -/
theorem untilLoop_take {t : Trie} (ht : t.Rooted) (start : Nat) {fuel fuel' pos : Nat}
    (hf : n - pos < fuel) (hf' : s.length - pos < fuel') (hn : n ≤ s.length) (hpos : pos ≤ n) :
    MoreOr (untilLoop (cut s n) t start fuel pos) (untilLoop (whole s) t start fuel' pos) ∨
      ((untilLoop (cut s n) t start fuel pos).type = .success ∧
        (untilLoop (cut s n) t start fuel pos).stop < n ∧
        t.checkAt (s.take n) (untilLoop (cut s n) t start fuel pos).stop = .partialMatch) := by
  have hlen : (s.take n).length = n := by simp [hn]
  induction fuel generalizing fuel' pos with
  | zero => omega
  | succ fuel ih =>
    obtain ⟨fuel', rfl⟩ := Nat.exists_eq_succ_of_ne_zero (show fuel' ≠ 0 by omega)
    simp only [untilLoop, hlen]
    by_cases hlt : pos < n
    · simp only [if_pos hlt, if_pos (lt_of_lt_of_le hlt hn)]
      rcases parseUtf8_take s n pos with hu | hu
      · exact .inl (.inl (by simp [hu, atEnd]))
      · rw [hu]
        cases hp : parseUtf8 s pos with
        | success c k =>
          have h2 := parseUtf8_success (hu.trans hp)
          rw [hlen] at h2
          rcases checkAt_take ht hn (hu.trans hp) with hm | hm
          · rw [hm]
            exact .inr ⟨rfl, hlt, hm⟩
          · rw [hm]
            cases hs : t.checkAt s pos with
            | noMatch => exact ih (by omega) (by omega) h2.2
            | partialMatch => exact .inl (.inr rfl)
            | completeMatch => exact .inl (.inr rfl)
        | incomplete => exact .inl (.inl rfl)
        | invalid => exact .inl (.inr rfl)
    · obtain rfl : pos = n := by omega
      simp [MoreOr]

/-! ## Classes of characters -/

section Chars

variable (ranges : List (Nat × Nat)) (negated : Bool) (minCount maxCount : Int) (start : Nat)

/-- With enough characters a class succeeds, at its position or behind it. -/
theorem charsLoop_success (ctx : ParseContext) (fuel pos : Nat) {count : Nat}
    (h : minCount ≤ count) :
    (charsLoop ctx ranges negated minCount maxCount start fuel pos count).type = .success ∧
      pos ≤ (charsLoop ctx ranges negated minCount maxCount start fuel pos count).stop := by
  induction fuel generalizing pos count with
  | zero => exact ⟨rfl, le_rfl⟩
  | succ fuel ih =>
    have hlt : ¬ (count : Int) < minCount := by omega
    simp only [charsLoop, if_neg hlt, ge_iff_le, if_pos h]
    split
    · cases parseUtf8 ctx.input pos with
      | success c k =>
        dsimp only
        split
        · have := ih (pos + k) (show minCount ≤ ((count + 1 : Nat) : Int) by omega)
          exact ⟨this.1, by omega⟩
        · exact ⟨rfl, le_rfl⟩
      | incomplete => exact ⟨rfl, le_rfl⟩
      | invalid => exact ⟨rfl, le_rfl⟩
    · exact ⟨rfl, le_rfl⟩

/-- A class on the prefix asks for more input, or it does what it does on the whole input, or it
reads the prefix to its end, or it stops at a character that is cut. -/
theorem charsLoop_take (count : Nat) {fuel fuel' pos : Nat} (hf : n - pos < fuel)
    (hf' : s.length - pos < fuel') (hn : n ≤ s.length) (hpos : pos ≤ n) :
    let r := charsLoop (cut s n) ranges negated minCount maxCount start fuel pos count
    let r' := charsLoop (whole s) ranges negated minCount maxCount start fuel' pos count
    MoreOr r r' ∨ (r.type = .success ∧ r'.type = .success ∧ r.stop = n ∧ n ≤ r'.stop) ∨
      (r.type = .success ∧ r.stop < n ∧ parseUtf8 (s.take n) r.stop = .incomplete) := by
  have hlen : (s.take n).length = n := by simp [hn]
  induction fuel generalizing count fuel' pos with
  | zero => omega
  | succ fuel ih =>
    obtain ⟨fuel', rfl⟩ := Nat.exists_eq_succ_of_ne_zero (show fuel' ≠ 0 by omega)
    -- the loop ends at a position that both inputs have
    have hfin : MoreOr
        (if (count : Int) < minCount then
          if pos ≥ (cut s n).input.length ∧ (cut s n).lenient = true then
            (⟨.needMore, start, pos⟩ : ParseResult)
          else ⟨.fail, start, pos⟩
        else ⟨.success, start, pos⟩)
        (if (count : Int) < minCount then
          if pos ≥ (whole s).input.length ∧ (whole s).lenient = true then
            (⟨.needMore, start, pos⟩ : ParseResult)
          else ⟨.fail, start, pos⟩
        else ⟨.success, start, pos⟩) := by
      by_cases hc : (count : Int) < minCount
      · by_cases hp : n ≤ pos
        · exact .inl (by simp [hc, hp])
        · exact .inr (by simp [hc, hp, lt_of_lt_of_le (not_le.mp hp) hn])
      · exact .inr (by simp [hc])
    simp only [charsLoop]
    by_cases hmax : maxCount = -1 ∨ (count : Int) < maxCount
    · simp only [if_pos hmax]
      rcases parseUtf8_take s n pos with hu | hu
      · simp only [hu]
        by_cases hc : (count : Int) ≥ minCount
        · simp only [if_pos hc]
          rcases Nat.lt_or_ge pos n with hlt | hge
          · exact .inr (.inr ⟨trivial, hlt, hu⟩)
          · obtain rfl : pos = n := by omega
            have := charsLoop_success ranges negated minCount maxCount start (whole s) (fuel' + 1)
              pos hc
            simp only [charsLoop, if_pos hmax, if_pos hc] at this
            exact .inr (.inl ⟨trivial, this.1, rfl, this.2⟩)
        · exact .inl (.inl (by simp [hc, atEnd]))
      · simp only [hu]
        cases hp : parseUtf8 s pos with
        | success c k =>
          have h2 := parseUtf8_success (hu.trans hp)
          rw [hlen] at h2
          by_cases hm : classMatches ranges negated c = true
          · simp only [if_pos hm]
            exact ih (count + 1) (by omega) (by omega) h2.2
          · simp only [if_neg hm]
            exact .inl (by simpa using hfin)
        | incomplete =>
          by_cases hc : (count : Int) ≥ minCount
          · exact .inl (.inr (by simp [hc]))
          · exact .inl (.inl (by simp [hc, atEnd]))
        | invalid => exact .inl (.inr rfl)
    · simp only [if_neg hmax]
      exact .inl (by simpa using hfin)

end Chars

/-- Spaces on the prefix end where they end on the whole input, or with the prefix. -/
theorem parseSpace_take {start : Nat} (hs : start ≤ n) : (parseSpace (cut s n) start).stop =
      min n (parseSpace (whole s) start).stop := by
  simp only [parseSpace, drop_take, ← take_takeWhile, length_take]
  omega

/-! ## Results that agree -/

/-- The positions are the same, or the prefix is read to its end. -/
def Sync (n i j : Nat) : Prop := i = j ∨ i = n ∧ n ≤ j

/-- How a lenient result on the prefix agrees with the strict one. For the empty prefix a parser may
succeed that fails on the whole input. -/
inductive Agrees (n : Nat) (r r' : ParseResult) : Prop where
  | more (h : r.type = .needMore)
  | fail (h : r.type = .fail) (h' : r'.type = .fail)
  | success (h : r.type = .success) (h' : r'.type = .success) (hs : Sync n r.stop r'.stop)
  | empty (hn : n = 0) (h : r.type = .success) (hs : r.stop = 0) (h' : r'.type = .fail)

/-- The terminal stops inside of the prefix at a place where it does not stop on the whole input. -/
def guesses (s : List UInt8) (n : Nat) (p : PegParser) (start : Nat) : Bool :=
  let r := terminal (cut s n) p start
  decide (r.type = .success ∧ r.stop < n ∧ terminal (whole s) p start ≠ r)

/-! ## Where a terminal ends -/

section Within

variable {ctx : ParseContext} {start pos : Nat}

/-- The result ends behind its start and inside of the input, and only a lenient one asks for
more. -/
structure Within (ctx : ParseContext) (start : Nat) (r : ParseResult) : Prop where
  le_stop : start ≤ r.stop
  stop_le : r.stop ≤ ctx.input.length
  lenient : r.type = .needMore → ctx.lenient = true

theorem within_success (h₁ : start ≤ pos) (h₂ : pos ≤ ctx.input.length) :
    Within ctx start ⟨.success, start, pos⟩ := ⟨h₁, h₂, fun h => by cases h⟩

theorem within_fail (h₁ : start ≤ pos) (h₂ : pos ≤ ctx.input.length) :
    Within ctx start ⟨.fail, start, pos⟩ := ⟨h₁, h₂, fun h => by cases h⟩

theorem within_more (hl : ctx.lenient = true) (h₁ : start ≤ pos) (h₂ : pos ≤ ctx.input.length) :
    Within ctx start ⟨.needMore, start, pos⟩ := ⟨h₁, h₂, fun _ => hl⟩

theorem within_failAt (h : start ≤ ctx.input.length) : Within ctx start (failAt start) :=
  within_fail le_rfl h

theorem within_atEnd (h₁ : start ≤ pos) (h₂ : pos ≤ ctx.input.length) :
    Within ctx start (atEnd ctx start pos) := by
  unfold atEnd
  split
  · next hl => exact within_more hl h₁ h₂
  · exact within_failAt (le_trans h₁ h₂)

theorem within_literal (literal : List UInt8) (h₁ : start ≤ pos) (h₂ : pos ≤ ctx.input.length) :
    Within ctx start (parseLiteral ctx start literal pos) := by
  induction literal generalizing pos with
  | nil => exact within_success h₁ h₂
  | cons b literal ih =>
    unfold parseLiteral
    cases e : ctx.input[pos]? with
    | none => exact within_atEnd h₁ h₂
    | some c =>
      have hlt := (List.getElem?_eq_some_iff.mp e).1
      dsimp only
      split
      · exact within_failAt (le_trans h₁ h₂)
      · exact ih (by omega) hlt

theorem within_any (h : start ≤ ctx.input.length) : Within ctx start (parseAny ctx start) := by
  unfold parseAny
  cases e : parseUtf8 ctx.input start with
  | success c k =>
    have := parseUtf8_success e
    exact within_success (Nat.le_add_right _ _) this.2
  | incomplete => exact within_atEnd le_rfl h
  | invalid => exact within_failAt h

theorem within_space (h : start ≤ ctx.input.length) : Within ctx start (parseSpace ctx start) := by
  have hle := ( takeWhile_prefix (l := ctx.input.drop start) isSpace).length_le
  rw [length_drop] at hle
  exact within_success (Nat.le_add_right _ _) (by omega)

theorem within_chars (ranges : List (Nat × Nat)) (negated : Bool) (minCount maxCount : Int)
    (fuel count : Nat) (h₁ : start ≤ pos) (h₂ : pos ≤ ctx.input.length) :
    Within ctx start (charsLoop ctx ranges negated minCount maxCount start fuel pos count) := by
  induction fuel generalizing pos count with
  | zero => exact within_success h₁ h₂
  | succ fuel ih =>
    have hfail := within_failAt (le_trans h₁ h₂)
    have hpos : Within ctx start ⟨.success, start, pos⟩ := within_success h₁ h₂
    have hite : ∀ {a b : ParseResult} {c : Prop} [Decidable c], Within ctx start a →
        Within ctx start b → Within ctx start (if c then a else b) := by
      intro a b c _ ha hb
      split
      · exact ha
      · exact hb
    have hfin : Within ctx start (if (count : Int) < minCount then
        (if pos ≥ ctx.input.length ∧ ctx.lenient = true then ⟨.needMore, start, pos⟩
          else ⟨.fail, start, pos⟩) else ⟨.success, start, pos⟩) := by
      refine hite ?_ hpos
      split
      · next hl => exact within_more hl.2 h₁ h₂
      · exact within_fail h₁ h₂
    unfold charsLoop
    dsimp only
    split
    · cases e : parseUtf8 ctx.input pos with
      | success c k =>
        have := parseUtf8_success e
        exact hite (ih _ (by omega) this.2) hfin
      | incomplete => exact hite hpos (within_atEnd h₁ h₂)
      | invalid => exact hite hpos hfail
    · exact hfin

theorem within_escape (delimiter : UInt8) (h₁ : start ≤ pos) (h₂ : pos ≤ ctx.input.length) :
    Within ctx start (escapeSequence ctx start pos delimiter) := by
  by_cases ht : (escapeSequence ctx start pos delimiter).type = .success
  · have := escapeSequence_stop ht
    exact ⟨by omega, this.2, fun h => by rw [ht] at h; cases h⟩
  · have huni : ∀ (k pos : Nat), start ≤ pos → pos ≤ ctx.input.length →
        Within ctx start (unicodeEscape ctx start k pos) := by
      intro k
      induction k with
      | zero => exact fun pos h₁ h₂ => within_success h₁ h₂
      | succ k ih =>
        intro pos h₁ h₂
        unfold unicodeEscape
        cases e : ctx.input[pos]? with
        | none => exact within_atEnd h₁ h₂
        | some c =>
          have hlt := (List.getElem?_eq_some_iff.mp e).1
          dsimp only
          split
          · exact within_failAt (le_trans h₁ h₂)
          · exact ih (pos + 1) (by omega) hlt
    unfold escapeSequence
    cases e : ctx.input[pos + 1]? with
    | none => exact within_atEnd h₁ h₂
    | some c =>
      have hlt := (List.getElem?_eq_some_iff.mp e).1
      dsimp only
      split
      · exact within_success (by omega) hlt
      · have hu := huni 4 (pos + 2) (by omega) hlt
        split
        · split
          · next hm => exact within_more (hu.lenient hm) h₁ h₂
          · exact hu
        · exact within_failAt (le_trans h₁ h₂)

theorem within_string (delimiter : UInt8) (fuel : Nat) (h₁ : start ≤ pos)
    (h₂ : pos ≤ ctx.input.length) :
    Within ctx start (stringLoop ctx delimiter start fuel pos) := by
  induction fuel generalizing pos with
  | zero => exact within_atEnd h₁ h₂
  | succ fuel ih =>
    unfold stringLoop
    cases e : ctx.input[pos]? with
    | none =>
      dsimp only
      split
      · next hl => exact within_more hl h₁ h₂
      · exact within_fail h₁ h₂
    | some c =>
      dsimp only
      split
      · exact within_success h₁ h₂
      · split
        · have hesc := within_escape delimiter h₁ h₂
          split
          · exact ih hesc.le_stop hesc.stop_le
          · exact hesc
        · cases eu : parseUtf8 ctx.input pos with
          | success c k =>
            have := parseUtf8_success eu
            exact ih (by omega) this.2
          | incomplete => exact within_atEnd h₁ h₂
          | invalid => exact within_failAt (le_trans h₁ h₂)

theorem within_until (t : Trie) (fuel : Nat) (h₁ : start ≤ pos) (h₂ : pos ≤ ctx.input.length) :
    Within ctx start (untilLoop ctx t start fuel pos) := by
  induction fuel generalizing pos with
  | zero => exact within_success h₁ h₂
  | succ fuel ih =>
    unfold untilLoop
    split
    · cases eu : parseUtf8 ctx.input pos with
      | success c k =>
        have := parseUtf8_success eu
        cases t.checkAt ctx.input pos with
        | noMatch => exact ih (by omega) this.2
        | partialMatch => exact within_success h₁ h₂
        | completeMatch => exact within_success h₁ h₂
      | incomplete => exact within_atEnd h₁ h₂
      | invalid => exact within_failAt (le_trans h₁ h₂)
    · split
      · next hl => exact within_more hl.2 h₁ h₂
      · exact within_success h₁ h₂

theorem within_terminal (ctx : ParseContext) (p : PegParser) (h : start ≤ ctx.input.length) :
    Within ctx start (terminal ctx p start) := by
  cases p with
  | literal literal => exact within_literal literal le_rfl h
  | any => exact within_any h
  | space => exact within_space h
  | chars ranges negated minCount maxCount =>
    exact within_chars ranges negated minCount maxCount _ 0 le_rfl h
  | string delimiter => exact within_string delimiter _ le_rfl h
  | until_ delimiters => exact within_until _ _ le_rfl h
  | start =>
    unfold terminal
    dsimp only
    split
    · exact within_success le_rfl h
    · exact within_failAt h
  | end_ =>
    unfold terminal
    dsimp only
    split
    · exact within_success le_rfl h
    · exact within_failAt h
  | _ => exact within_success le_rfl h

end Within

/-! ## Agreement -/

theorem agrees_of_moreOr {r r' : ParseResult} (h : MoreOr r r')
    (hs : r'.type ≠ .needMore) : Agrees n r r' := by
  rcases h with h | rfl
  · exact .more h
  · cases ht : r.type with
    | fail => exact .fail ht ht
    | success => exact .success ht ht (.inl rfl)
    | needMore => exact absurd ht hs

/-- The strict result is a success or a failure. -/
theorem Within.strict {start : Nat} {r : ParseResult} (h : Within (whole s) start r) :
    r.type ≠ .needMore := fun ht => by
  cases h.lenient ht

/-- At the same position a terminal that does not guess agrees. -/
theorem terminal_agrees_same (hn : n ≤ s.length) {p : PegParser} {start : Nat} (hs : start ≤ n)
    (he : p ≠ .end_) (hg : guesses s n p start = false) :
    Agrees n (terminal (cut s n) p start) (terminal (whole s) p start) := by
  have hstrict := (within_terminal (whole s) p (le_trans hs hn)).strict
  -- a success inside of the prefix is the same
  have hsame : ∀ {r : ParseResult}, terminal (cut s n) p start = r → r.type = .success →
      r.stop < n → Agrees n r (terminal (whole s) p start) := by
    rintro r rfl ht hlt
    have heq : terminal (whole s) p start = terminal (cut s n) p start := by
      by_contra hne
      rw [guesses, decide_eq_false_iff_not] at hg
      exact hg ⟨ht, hlt, hne⟩
    exact .success ht (heq ▸ ht) (.inl (by rw [heq]))
  cases p with
  | literal literal => exact agrees_of_moreOr (parseLiteral_take start literal start) hstrict
  | any => exact agrees_of_moreOr (parseAny_take start) hstrict
  | string delimiter =>
    exact agrees_of_moreOr (stringLoop_take delimiter start
      (show n - start < (cut s n).input.length + 1 by simp; omega)
      (show s.length - start < s.length + 1 by omega) hn) hstrict
  | chars ranges negated minCount maxCount =>
    rcases charsLoop_take ranges negated minCount maxCount start 0
      (show n - start < (cut s n).input.length + 1 by simp; omega)
      (show s.length - start < s.length + 1 by omega) hn hs with hm | hm | hm
    · exact agrees_of_moreOr hm hstrict
    · exact .success hm.1 hm.2.1 (.inr ⟨hm.2.2.1, hm.2.2.2⟩)
    · exact hsame rfl hm.1 hm.2.1
  | until_ delimiters =>
    rcases untilLoop_take (rooted_trieOf delimiters) start
      (show n - start < (cut s n).input.length + 1 by simp; omega)
      (show s.length - start < s.length + 1 by omega) hn hs with hm | hm
    · exact agrees_of_moreOr hm hstrict
    · exact hsame rfl hm.1 hm.2.1
  | space =>
    have hstop := parseSpace_take (s := s) hs
    refine .success rfl rfl ?_
    change Sync n (parseSpace (cut s n) start).stop (parseSpace (whole s) start).stop
    unfold Sync
    omega
  | end_ => exact absurd rfl he
  | start => exact agrees_of_moreOr (.inr rfl) hstrict
  | _ => exact .success rfl rfl (.inl rfl)

/-- At the end of the prefix a terminal agrees with what it does anywhere behind it. -/
theorem terminal_agrees_end (hn : n ≤ s.length) {p : PegParser} {j : Nat} (hj : n ≤ j)
    (he : p ≠ .end_) :
    Agrees n (terminal (cut s n) p n) (terminal (whole s) p j) := by
  have hlen : (s.take n).length = n := by simp [hn]
  have hutf : parseUtf8 (s.take n) n = .incomplete := parseUtf8_of_le (by omega)
  have hsucc : ∀ {r r' : ParseResult}, r = ⟨.success, n, n⟩ → r'.type = .success → j ≤ r'.stop →
      Agrees n r r' := by
    rintro r r' rfl h' hle
    exact .success rfl h' (.inr ⟨rfl, le_trans hj hle⟩)
  cases p with
  | literal literal =>
    cases literal with
    | nil => exact hsucc rfl rfl le_rfl
    | cons b literal => exact .more (by simp [terminal, parseLiteral, atEnd])
  | any => exact .more (by simp [terminal, parseAny, hutf, atEnd])
  | string delimiter => exact .more (by simp [terminal, stringLoop])
  | chars ranges negated minCount maxCount =>
    by_cases h0 : minCount ≤ ((0 : Nat) : Int)
    · have h := charsLoop_success ranges negated minCount maxCount j (whole s) (s.length + 1) j h0
      refine hsucc ?_ h.1 h.2
      have hlt : ¬ ((0 : Nat) : Int) < minCount := by omega
      simp only [terminal, charsLoop, hutf, ge_iff_le, if_pos h0, if_neg hlt, ite_self]
    · have hlt : ((0 : Nat) : Int) < minCount := by omega
      refine .more ?_
      simp only [terminal, charsLoop, hutf, ge_iff_le, if_neg h0, if_pos hlt, atEnd, hlen,
        le_refl, true_and, if_true, ite_self]
  | until_ delimiters => exact .more (by simp [terminal, untilLoop, hlen])
  | space =>
    refine hsucc ?_ rfl (Nat.le_add_right _ _)
    simp [terminal, parseSpace]
  | end_ => exact absurd rfl he
  | start =>
    rcases Nat.eq_zero_or_pos n with rfl | hpos
    · by_cases hj0 : j = 0
      · exact hsucc rfl (by simp [terminal, hj0]) (by simp [terminal, hj0])
      · exact .empty rfl rfl rfl (by simp [terminal, hj0, failAt])
    · have hn0 : n ≠ 0 := Nat.pos_iff_ne_zero.mp hpos
      have hj0 : j ≠ 0 := by omega
      exact .fail (by simp [terminal, hn0, failAt]) (by simp [terminal, hj0, failAt])
  | _ => exact hsucc rfl rfl le_rfl

/-- A terminal that does not guess agrees. -/
theorem terminal_agrees (hn : n ≤ s.length) {p : PegParser} {i j : Nat} (hij : Sync n i j)
    (hi : i ≤ n) (he : p ≠ .end_) (hg : guesses s n p i = false) :
    Agrees n (terminal (cut s n) p i) (terminal (whole s) p j) := by
  rcases hij with rfl | ⟨rfl, hle⟩
  · exact terminal_agrees_same hn hi he hg
  · exact terminal_agrees_end hn hle he

end Prefix

end BeeLlama.Peg
