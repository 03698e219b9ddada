import BeeLlama.Peg.Total

/-!
# A lenient parse of a prefix

A lenient parse of a prefix is followed beside the strict parse of the whole input. The terminals
that agree (`terminal_agrees`) make the parsers agree that call them, `not` excepted
(`agrees_parse`).

* `cautious`: the terminals, which stop the parse where they would guess.
* `lenient_not_fail`: where no terminal guesses, a lenient parse of a prefix does not fail when the
  strict parse succeeds.
-/

namespace BeeLlama.Peg

/-- A terminal on the prefix that stops the parse where it would guess. -/
def cautious (s : List UInt8) (n : Nat) (p : PegParser) (start : Nat) :
    Except PegError ParseResult :=
  if guesses s n p start then .error .stop else .ok (terminal (cut s n) p start)

/-- No terminal of the lenient parse guesses. -/
def NoGuess (arena : Arena) (s : List UInt8) (n : Nat) : Prop :=
  ∀ fuel, parseWith arena (cut s n) (cautious s n) fuel arena.root 0 ≠ .error .stop

/-- The arena has neither `not` nor `end` parsers. -/
def Arena.Plain (arena : Arena) : Prop :=
  ∀ p ∈ arena.parsers, p ≠ .end_ ∧ ∀ child, p ≠ .not_ child

theorem mem_of_shape_not {arena : Arena} {id child : Nat} (h : shape arena id = .not_ child) :
    .not_ child ∈ arena.parsers := by
  unfold shape at h
  split at h
  · cases h
  · next p hp =>
    have hmem := List.mem_of_getElem? hp
    split at h <;> first | cases h; exact hmem | (split at h <;> cases h) | cases h

theorem mem_of_shape_leaf {arena : Arena} {id : Nat} {p : PegParser}
    (h : shape arena id = .leaf p) : p ∈ arena.parsers := by
  unfold shape at h
  split at h
  · cases h
  · next p hp =>
    have hmem := List.mem_of_getElem? hp
    split at h <;> first | cases h; exact hmem | (split at h <;> cases h) | cases h

section Agree

variable {s : List UInt8} {n : Nat}

/-- A strict failure agrees with any result that does not read, if the prefix is empty. -/
theorem agrees_of_empty (hn : n = 0) {r r' : ParseResult} (hr : r.stop ≤ n)
    (h' : r'.type = .fail) : Agrees n r r' := by
  cases ht : r.type with
  | needMore => exact .more ht
  | fail => exact .fail ht h'
  | success => exact .empty hn ht (by omega) h'

section Loops

variable {f g : Nat → Nat → Except PegError ParseResult}
  (hf : ∀ id i r, i ≤ n → f id i = .ok r → Within (cut s n) i r)
  (hg : ∀ id j r, j ≤ s.length → g id j = .ok r → Within (whole s) j r)
  (h : ∀ id i j r r', i ≤ n → j ≤ s.length → Sync n i j → f id i = .ok r → g id j = .ok r' →
    Agrees n r r')

theorem length_cut (hn : n ≤ s.length) : (cut s n).input.length = n := by simp [hn]

include hf hg h

theorem agrees_sequence (hn : n ≤ s.length) {start start' : Nat} {children : List Nat} {i j : Nat}
    {r r' : ParseResult} (hi : i ≤ n) (hj : j ≤ s.length) (hij : Sync n i j) (hs : start ≤ i)
    (e : sequenceLoop f start children i = .ok r)
    (e' : sequenceLoop g start' children j = .ok r') : Agrees n r r' := by
  induction children generalizing i j with
  | nil =>
    cases e
    cases e'
    exact .success rfl rfl hij
  | cons child children ih =>
    obtain ⟨q, eq, hq⟩ := sequenceLoop_cons_iff.mp e
    obtain ⟨q', eq', hq'⟩ := sequenceLoop_cons_iff.mp e'
    have hw := hf _ _ _ hi eq
    have hw' := hg _ _ _ hj eq'
    have hstop : q.stop ≤ n := length_cut hn ▸ hw.stop_le
    -- the whole sequence ends inside of the prefix
    have hend : r.stop ≤ n := by
      have hwr : Within (cut s n) start r := within_sequence
        (fun id pos r hp => hf id pos r (length_cut hn ▸ hp)) hs ((length_cut hn).symm ▸ hi) e
      exact length_cut hn ▸ hwr.stop_le
    rcases h _ _ _ _ _ hi hj hij eq eq' with ht | ⟨ht, ht'⟩ | ⟨ht, ht', hsync⟩ | ⟨h0, ht, -, ht'⟩
    · obtain rfl : r = ⟨.needMore, start, q.stop⟩ := by simpa [ht] using hq
      exact .more rfl
    · obtain rfl : r = ⟨.fail, start, q.stop⟩ := by simpa [ht] using hq
      obtain rfl : r' = ⟨.fail, start', q'.stop⟩ := by simpa [ht'] using hq'
      exact .fail rfl rfl
    · have e1 : sequenceLoop f start children q.stop = .ok r := by simpa [ht] using hq
      have e2 : sequenceLoop g start' children q'.stop = .ok r' := by simpa [ht'] using hq'
      exact ih hstop hw'.stop_le hsync (le_trans hs hw.le_stop) e1 e2
    · obtain rfl : r' = ⟨.fail, start', q'.stop⟩ := by simpa [ht'] using hq'
      exact agrees_of_empty h0 hend rfl

omit hf in
theorem agrees_choice {i j : Nat} {children : List Nat} {r r' : ParseResult} (hi : i ≤ n)
    (hj : j ≤ s.length) (hij : Sync n i j) (e : choiceLoop f i children = .ok r)
    (e' : choiceLoop g j children = .ok r') : Agrees n r r' := by
  induction children with
  | nil =>
    cases e
    cases e'
    exact .fail rfl rfl
  | cons child children ih =>
    obtain ⟨q, eq, hq⟩ := choiceLoop_cons_iff.mp e
    obtain ⟨q', eq', hq'⟩ := choiceLoop_cons_iff.mp e'
    have ha := h _ _ _ _ _ hi hj hij eq eq'
    rcases ha with ht | ⟨ht, ht'⟩ | ⟨ht, ht', hsync⟩ | ⟨h0, ht, hstop, ht'⟩
    · obtain rfl : r = q := by simpa [ht] using hq
      exact .more ht
    · exact ih (by simpa [ht] using hq) (by simpa [ht'] using hq')
    · obtain rfl : r = q := by simpa [ht] using hq
      obtain rfl : r' = q' := by simpa [ht'] using hq'
      exact .success ht ht' hsync
    · obtain rfl : r = q := by simpa [ht] using hq
      have hw' := @within_choice (whole s) _ hg _ _ _ hj e'
      cases ht'' : r'.type with
      | needMore => exact absurd ht'' hw'.strict
      | fail => exact .empty h0 ht hstop ht''
      | success => exact .success ht ht'' (.inr ⟨by omega, by omega⟩)

omit hf h in
/-- With enough matches a strict repetition succeeds, at its position or behind it. -/
theorem repetition_strict {child : Nat} {minCount maxCount : Int} {start left j count : Nat}
    {r : ParseResult} (hj : j ≤ s.length) (hm : ¬ (minCount > 0 ∧ (count : Int) < minCount))
    (e : repetitionLoop (g child) (whole s) minCount maxCount start left j count = .ok r) :
    r.type = .success ∧ j ≤ r.stop := by
  induction left generalizing j count with
  | zero => cases e
  | succ left ih =>
    have hfin : repetitionFinish (whole s) minCount start j count = ⟨.success, start, j⟩ := by
      rw [repetitionFinish, if_neg hm]
    by_cases hc : Repeats (whole s) maxCount j count
    · obtain ⟨q, eq, hq⟩ := (repetitionLoop_call_iff hc).mp e
      have hw := hg _ _ _ hj eq
      rcases hq with ⟨-, rfl⟩ | ⟨ht, -⟩ | ⟨-, -, e'⟩
      · simp [hfin]
      · exact absurd ht hw.strict
      · have := ih hw.stop_le
          (show ¬ (minCount > 0 ∧ ((count + 1 : Nat) : Int) < minCount) by omega)
          e'
        exact ⟨this.1, le_trans hw.le_stop this.2⟩
    · rw [repetitionLoop_done hc] at e
      cases e
      simp [hfin]

theorem agrees_repetition (hn : n ≤ s.length) {child : Nat} {minCount maxCount : Int}
    {start start' left left' i j count : Nat} {r r' : ParseResult} (hi : i ≤ n)
    (hj : j ≤ s.length) (hij : Sync n i j)
    (e : repetitionLoop (f child) (cut s n) minCount maxCount start left i count = .ok r)
    (e' : repetitionLoop (g child) (whole s) minCount maxCount start' left' j count = .ok r') :
    Agrees n r r' := by
  have hlen := length_cut hn
  induction left generalizing i j count left' with
  | zero => cases e
  | succ left ih =>
    cases left' with
    | zero => cases e'
    | succ left' =>
      rcases Nat.lt_or_ge i n with hlt | hge
      · -- the prefix goes on, and both loops stand at the same position
        obtain rfl : i = j := by
          unfold Sync at hij
          omega
        have hfin : Agrees n (repetitionFinish (cut s n) minCount start i count)
            (repetitionFinish (whole s) minCount start' i count) := by
          have h₁ : ¬ n ≤ i := by omega
          by_cases hm : minCount > 0 ∧ (count : Int) < minCount
          · exact .fail (by simp only [repetitionFinish, if_pos hm, hlen]; simp [h₁])
              (by simp [repetitionFinish, hm])
          · exact .success (by simp [repetitionFinish, hm]) (by simp [repetitionFinish, hm])
              (.inl (by simp only [repetitionFinish, if_neg hm]))
        by_cases hmax : maxCount = -1 ∨ (count : Int) < maxCount
        · have hc : Repeats (cut s n) maxCount i count := ⟨hmax, hlen.symm ▸ hlt⟩
          have hc' : Repeats (whole s) maxCount i count := ⟨hmax, lt_of_lt_of_le hlt hn⟩
          obtain ⟨q, eq, hq⟩ := (repetitionLoop_call_iff hc).mp e
          obtain ⟨q', eq', hq'⟩ := (repetitionLoop_call_iff hc').mp e'
          have hw := hf _ _ _ hi eq
          have hw' := hg _ _ _ hj eq'
          rcases h _ _ _ _ _ hi hj hij eq eq' with ht | ⟨ht, ht'⟩ | ⟨ht, ht', hsync⟩ | ⟨h0, -, -, -⟩
          · obtain rfl : r = ⟨.needMore, start, q.stop⟩ := by simpa [ht] using hq
            exact .more rfl
          · obtain rfl : r = _ := by simpa [ht] using hq
            obtain rfl : r' = _ := by simpa [ht'] using hq'
            exact hfin
          · by_cases hs : q.stop = i
            · have hs' : q'.stop = i := by
                unfold Sync at hsync
                omega
              obtain rfl : r = _ := by simpa [ht, hs] using hq
              obtain rfl : r' = _ := by simpa [ht', hs'] using hq'
              exact hfin
            · have hs' : q'.stop ≠ i := by
                have := hw.le_stop
                unfold Sync at hsync
                omega
              have e1 : repetitionLoop (f child) (cut s n) minCount maxCount start left q.stop
                  (count + 1) = .ok r := by simpa [ht, hs] using hq
              have e2 : repetitionLoop (g child) (whole s) minCount maxCount start' left' q'.stop
                  (count + 1) = .ok r' := by simpa [ht', hs'] using hq'
              exact ih (hlen ▸ hw.stop_le) hw'.stop_le hsync e1 e2
          · omega
        · rw [repetitionLoop_done (fun hc => hmax hc.1)] at e
          rw [repetitionLoop_done (fun hc => hmax hc.1)] at e'
          cases e
          cases e'
          exact hfin
      · -- the prefix is read, and the strict loop may go on
        obtain rfl : i = n := by omega
        have hle : i ≤ j := by
          unfold Sync at hij
          omega
        rw [repetitionLoop_done (fun hc => by have := hc.2; omega)] at e
        cases e
        by_cases hm : minCount > 0 ∧ (count : Int) < minCount
        · exact .more (by simp only [repetitionFinish, if_pos hm, hlen]; simp)
        · obtain ⟨ht, hstop⟩ := repetition_strict hg hj hm e'
          exact .success (by simp [repetitionFinish, hm]) ht
            (.inr ⟨by simp only [repetitionFinish, if_neg hm], le_trans hle hstop⟩)

end Loops

/-- A cautious parse of the prefix agrees with the strict parse of the whole input. -/
theorem agrees_parse {arena : Arena} (plain : arena.Plain) (hn : n ≤ s.length) {fuel fuel' : Nat}
    {id i j : Nat} {r r' : ParseResult} (hi : i ≤ n) (hj : j ≤ s.length) (hij : Sync n i j)
    (e : parseWith arena (cut s n) (cautious s n) fuel id i = .ok r)
    (e' : parse arena (whole s) fuel' id j = .ok r') : Agrees n r r' := by
  induction fuel generalizing fuel' id i j r r' with
  | zero => cases e
  | succ fuel ih =>
    cases fuel' with
    | zero => cases e'
    | succ fuel' =>
      have hf : ∀ id i r, i ≤ n → parseWith arena (cut s n) (cautious s n) fuel id i = .ok r →
          Within (cut s n) i r := by
        intro id i r hi e
        refine within_parse (fun p pos r hp e => ?_)
          ((length_cut hn).symm ▸ hi : i ≤ (cut s n).input.length) e
        unfold cautious at e
        split at e
        · cases e
        · cases e
          exact within_terminal _ p hp
      have hg : ∀ id j r, j ≤ s.length → parse arena (whole s) fuel' id j = .ok r →
          Within (whole s) j r := fun id j r hj e => parse_within hj e
      have h : ∀ id i j r r', i ≤ n → j ≤ s.length → Sync n i j →
          parseWith arena (cut s n) (cautious s n) fuel id i = .ok r →
          parse arena (whole s) fuel' id j = .ok r' → Agrees n r r' :=
        fun id i j r r' hi hj hij e e' => ih hi hj hij e e'
      rw [parseWith_succ] at e
      rw [parse, parseWith_succ] at e'
      cases hsh : shape arena id with
      | sequence children =>
        rw [hsh] at e e'
        exact agrees_sequence hf hg h hn hi hj hij le_rfl e e'
      | choice children =>
        rw [hsh] at e e'
        exact agrees_choice hg h hi hj hij e e'
      | repetition child minCount maxCount =>
        rw [hsh] at e e'
        exact agrees_repetition hf hg h hn hi hj hij e e'
      | and_ child =>
        rw [hsh] at e e'
        obtain ⟨q, eq, rfl⟩ := parseShape_and_iff.mp e
        obtain ⟨q', eq', rfl⟩ := parseShape_and_iff.mp e'
        rcases h _ _ _ _ _ hi hj hij eq eq' with ht | ⟨ht, ht'⟩ | ⟨ht, ht', -⟩ | ⟨h0, ht, -, ht'⟩
        · exact .more ht
        · exact .fail ht ht'
        · exact .success ht ht' hij
        · exact .empty h0 ht (show i = 0 by omega) ht'
      | not_ child => exact absurd rfl ((plain _ (mem_of_shape_not hsh)).2 child)
      | call child =>
        rw [hsh] at e e'
        exact h _ _ _ _ _ hi hj hij e e'
      | leaf p =>
        rw [hsh] at e e'
        cases e'
        change cautious s n p i = .ok r at e
        unfold cautious at e
        split at e
        · cases e
        · next hguess =>
          cases e
          exact terminal_agrees hn hij hi (plain _ (mem_of_shape_leaf hsh)).1
            (by simpa using hguess)
      | missing err =>
        rw [hsh] at e
        cases e

/-- Where no terminal guesses, the lenient parse of a prefix of an input that the strict parse
accepts ends, and it does not fail. -/
theorem lenient_not_fail (arena : Arena) (closed : arena.Closed) (plain : arena.Plain)
    (consumes : Consumes arena) (s : List UInt8) (n : Nat) (hn : n ≤ s.length)
    (strict : ∃ r, Parses arena (whole s) arena.root 0 r ∧ r.type = .success)
    (noGuess : NoGuess arena s n) :
    ∃ r, (∃ fuel, ∀ m ≥ fuel, parse arena (cut s n) m arena.root 0 = .ok r) ∧ r.type ≠ .fail := by
  obtain ⟨r, fuel, e⟩ : ∃ r, Parses arena (cut s n) arena.root 0 r :=
    parses_total closed consumes closed.root_lt (Nat.zero_le _)
  refine ⟨r, ⟨fuel, fun m hm => parse_mono hm e⟩, fun hfail => ?_⟩
  obtain ⟨r', ⟨fuel', e'⟩, hsuccess⟩ := strict
  -- the cautious parse is not stopped, so it returns the lenient result
  have hc : parseWith arena (cut s n) (cautious s n) fuel arena.root 0 = .ok r := by
    have hl : ∀ p pos, OrStop (.ok (terminal (cut s n) p pos)) (cautious s n p pos) := by
      intro p pos
      unfold cautious
      split
      · exact .inr rfl
      · exact .inl rfl
    rcases @parseWith_or_stop arena (cut s n) _ _ hl fuel arena.root 0 with h | h
    · exact h.trans e
    · exact absurd h (noGuess fuel)
  rcases agrees_parse plain hn (Nat.zero_le n) (Nat.zero_le _) (.inl rfl) hc e' with
    ht | ⟨-, ht'⟩ | ⟨ht, -, -⟩ | ⟨-, ht, -, -⟩
  · rw [hfail] at ht
    cases ht
  · rw [hsuccess] at ht'
    cases ht'
  · rw [hfail] at ht
    cases ht
  · rw [hfail] at ht
    cases ht

end Agree

/-! ## Guesses that are wrong -/

/-- The strict parse accepts the input, and the lenient parse of its prefix fails. -/
structure FailsEarly (arena : Arena) (s : List UInt8) (n : Nat) : Prop where
  closed : arena.Closed
  plain : arena.Plain
  consumes : Consumes arena
  le : n ≤ s.length
  strict : ∃ r, Parses arena (whole s) arena.root 0 r ∧ r.type = .success
  lenient : ∃ r fuel, (∀ m ≥ fuel, parse arena (cut s n) m arena.root 0 = .ok r) ∧ r.type = .fail

/-- A parser and what must follow it. -/
def twoArena (first second : PegParser) : Arena := ⟨[.sequence [1, 2], first, second], [], 0⟩

section Two

variable {first second : PegParser} (h₁ : shape (twoArena first second) 1 = .leaf first)
  (h₂ : shape (twoArena first second) 2 = .leaf second)

include h₁ h₂

theorem twoArena_children {id child : Nat}
    (h : child ∈ (shape (twoArena first second) id).children) :
    id = 0 ∧ (child = 1 ∨ child = 2) := by
  match id with
  | 0 => exact ⟨rfl, by simpa [twoArena, shape, Shape.children] using h⟩
  | 1 => simp [h₁, Shape.children] at h
  | 2 => simp [h₂, Shape.children] at h
  | id + 3 => simp [twoArena, shape, Shape.children] at h

theorem twoArena_closed : (twoArena first second).Closed := by
  refine ⟨fun id child h => ?_, fun id hid e => ?_, Nat.zero_lt_succ 2⟩
  · obtain ⟨-, rfl | rfl⟩ := twoArena_children h₁ h₂ h
    · exact Nat.one_lt_succ_succ 1
    · exact Nat.lt_succ_self 2
  · match id with
    | 0 => simp [twoArena, shape]
    | 1 => simp [h₁]
    | 2 => simp [h₂]
    | id + 3 => exact absurd hid (by simp [twoArena])

theorem twoArena_consumes : Consumes (twoArena first second) := by
  refine consumes_of_lt fun id child h => ?_
  obtain ⟨rfl, rfl | rfl⟩ := twoArena_children h₁ h₂ h
  · exact Nat.zero_lt_one
  · exact Nat.zero_lt_two

end Two

/-- `[^<]*` and the `<` behind it. -/
def textArena : Arena := twoArena (.chars [(60, 60)] true 0 (-1)) (.literal [60])

/-- Everything before `ab` or `cd`, and the `ab` behind it. -/
def untilArena : Arena := twoArena (.until_ [[97, 98], [99, 100]]) (.literal [97, 98])

theorem textArena_closed : textArena.Closed := twoArena_closed rfl rfl

theorem textArena_consumes : Consumes textArena := twoArena_consumes rfl rfl

theorem textArena_plain : textArena.Plain := by
  simp [Arena.Plain, textArena, twoArena]

theorem untilArena_plain : untilArena.Plain := by
  simp [Arena.Plain, untilArena, twoArena]

/-- `é<` that is cut inside of the `é`, and `cxab` that is cut behind the `c`. -/
theorem failsEarly_text_until :
    FailsEarly textArena [0xc3, 0xa9, 60] 1 ∧ FailsEarly untilArena [99, 120, 97, 98] 1 where
  left := ⟨textArena_closed, textArena_plain, textArena_consumes, by decide,
    ⟨⟨.success, 0, 3⟩, ⟨2, by decide +kernel⟩, rfl⟩,
    ⟨⟨.fail, 0, 0⟩, 2, fun _ hm => parse_mono hm (by decide +kernel), rfl⟩⟩
  right := ⟨twoArena_closed rfl rfl, untilArena_plain, twoArena_consumes rfl rfl, by decide,
    ⟨⟨.success, 0, 4⟩, ⟨2, by decide +kernel⟩, rfl⟩,
    ⟨⟨.fail, 0, 0⟩, 2, fun _ hm => parse_mono hm (by decide +kernel), rfl⟩⟩

/-- The same text, cut between its characters. -/
theorem lenient_text_between :
    ∃ r, (∃ fuel, ∀ m ≥ fuel, parse textArena (cut [0xc3, 0xa9, 60] 2) m 0 0 = .ok r) ∧
      r.type ≠ .fail := by
  refine lenient_not_fail textArena textArena_closed textArena_plain textArena_consumes
    [0xc3, 0xa9, 60] 2 (by decide) ⟨⟨.success, 0, 3⟩, ⟨2, by decide +kernel⟩, rfl⟩ ?_
  intro fuel
  match fuel with
  | 0 => decide +kernel
  | 1 => decide +kernel
  | fuel + 2 =>
    have e : parseWith textArena (cut [0xc3, 0xa9, 60] 2) (cautious [0xc3, 0xa9, 60] 2) 2 0 0 =
        .ok ⟨.needMore, 0, 2⟩ := by decide +kernel
    rw [show textArena.root = 0 from rfl,
      parseWith_mono (fun _ _ _ h => h) (Nat.le_add_left 2 fuel) e]
    exact fun h => by cases h

end BeeLlama.Peg
