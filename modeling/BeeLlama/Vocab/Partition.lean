import Mathlib.Data.List.Infix

/-!
# Special tokens in a text (`llama_vocab::impl::tokenizer_st_partition`)

The buffer is a list of fragments that is changed while an iterator goes over it: a text fragment
with a special token is replaced by what is left of the token, the token, and what is right of it,
and the iterator goes on with the right part.

* `SplitOf` says what comes from one text fragment, `splitLoop_spec` and `partitionLoop_spec` that
  the buffer gets it in its place.
* `Reads`: the fragments, read in order, give a text, up to whitespace that a token strips.
* `tokenizerStPartition_covers`: the result reads as the text, and no text fragment has a special
  token in it.
-/

namespace BeeLlama

open List Nat

/-- What `tokenizer_st_partition` reads of `llama_vocab::token_data`. -/
structure SpecialTokenData where
  text : List UInt8
  control : Bool := false
  unknown : Bool := false
  lstrip : Bool := false
  rstrip : Bool := false
  deriving DecidableEq, Repr

/-- `fragment_buffer_variant`, for fragments of one text. -/
inductive Fragment where
  | token (token : Nat)
  | rawText (offset length : Nat)
  deriving DecidableEq, Repr

namespace Partition

/-- `isspace`. -/
def isSpace (c : UInt8) : Bool := decide (c = 0x20 ∨ 0x09 ≤ c ∧ c ≤ 0x0D)

/-- `std::string_view::find`. -/
def findFrom (view text : List UInt8) (pos : Nat) : Option Nat :=
  (List.range' pos (view.length + 1 - pos)).find? fun i => text.isPrefixOf (view.drop i)

/-- The buffer and the index of the iterator. -/
structure Buffer where
  fragments : List Fragment
  it : Nat
  deriving DecidableEq, Repr

/-- `buffer.emplace_after(it, ...); it++`. -/
def Buffer.emplaceAfter (b : Buffer) (f : Fragment) : Buffer :=
  ⟨b.fragments.insertIdx (b.it + 1) f, b.it + 1⟩

/-- The fragment at `source` is erased. It stands before the iterator, which stays where it is. -/
def Buffer.eraseSource (b : Buffer) (source : Nat) : Buffer :=
  ⟨b.fragments.eraseIdx source, b.it - 1⟩

/-- The loop for `LLAMA_TOKEN_ATTR_LSTRIP`: the length without the whitespace at its end. -/
def stripLeft (rawText : List UInt8) (offset : Nat) : Nat → Nat
  | 0 => 0
  | n + 1 => if isSpace (rawText.getD (offset + n) 0) then stripLeft rawText offset n else n + 1

/-- The loop for `LLAMA_TOKEN_ATTR_RSTRIP`: the range without the whitespace at its beginning. -/
def stripRight (rawText : List UInt8) : Nat → Nat → Nat × Nat
  | offset, 0 => (offset, 0)
  | offset, n + 1 =>
    if isSpace (rawText.getD offset 0) then stripRight rawText (offset + 1) n else (offset, n + 1)

/-- `left_reminder_length` for a match at `match_`. -/
def leftLength (rawText : List UInt8) (data : SpecialTokenData) (baseOffset match_ : Nat) : Nat :=
  if data.lstrip then stripLeft rawText baseOffset (match_ - baseOffset) else match_ - baseOffset

/-- `right_reminder_offset` and `right_reminder_length`. -/
def rightRange (rawText : List UInt8) (data : SpecialTokenData)
    (baseOffset baseLength match_ : Nat) : Nat × Nat :=
  let offset := match_ + data.text.length
  let length := baseLength - ((match_ - baseOffset) + data.text.length)
  if data.rstrip then stripRight rawText offset length else (offset, length)

/-- The loop over the text of one fragment. -/
def splitLoop (rawText : List UInt8) (specialId : Nat) (data : SpecialTokenData) :
    Nat → Buffer → Nat → Nat → Option Buffer
  | 0, _, _, _ => none
  | fuel + 1, b, baseOffset, baseLength =>
    match findFrom (rawText.take (baseOffset + baseLength)) data.text baseOffset with
    | none => some b
    | some match_ =>
      let source := b.it
      let left := leftLength rawText data baseOffset match_
      let b := if match_ > baseOffset ∧ left > 0 then b.emplaceAfter (.rawText baseOffset left)
        else b
      let b := b.emplaceAfter (.token specialId)
      if match_ + data.text.length < baseOffset + baseLength then
        let right := rightRange rawText data baseOffset baseLength match_
        let b := if right.2 > 0 then b.emplaceAfter (.rawText right.1 right.2) else b
        splitLoop rawText specialId data fuel (b.eraseSource source) right.1 right.2
      else some (b.eraseSource source)

/-- The loop over the fragments. -/
def partitionLoop (rawText : List UInt8) (specialId : Nat) (data : SpecialTokenData) :
    Nat → Buffer → Option (List Fragment)
  | 0, _ => none
  | fuel + 1, b =>
    match b.fragments[b.it]? with
    | none => some b.fragments
    | some (.token _) => partitionLoop rawText specialId data fuel { b with it := b.it + 1 }
    | some (.rawText offset length) =>
      match splitLoop rawText specialId data (fuel + 1) b offset length with
      | none => none
      | some b => partitionLoop rawText specialId data fuel { b with it := b.it + 1 }

/-- The token takes part. -/
def active (parseSpecial : Bool) (data : SpecialTokenData) : Bool :=
  parseSpecial || !(data.control || data.unknown)

/-- `tokenizer_st_partition` on a buffer, for the tokens of `cache_special_tokens`. -/
def tokenizerStPartition (vocab : Nat → SpecialTokenData) (parseSpecial : Bool)
    (rawText : List UInt8) (fuel : Nat) : List Nat → List Fragment → Option (List Fragment)
  | [], fragments => some fragments
  | specialId :: cacheSpecialTokens, fragments =>
    if active parseSpecial (vocab specialId) then
      match partitionLoop rawText specialId (vocab specialId) fuel ⟨fragments, 0⟩ with
      | none => none
      | some fragments =>
        tokenizerStPartition vocab parseSpecial rawText fuel cacheSpecialTokens fragments
    else tokenizerStPartition vocab parseSpecial rawText fuel cacheSpecialTokens fragments

/-! ## Finding the token -/

variable {rawText text : List UInt8}

variable {view : List UInt8} {o l : Nat} {fs : List Fragment} {p : List Fragment}

/-- Where the token is found, and that it is not found before. -/
theorem findFrom_eq_some {pos i : Nat} (h : findFrom view text pos = some i) :
    pos ≤ i ∧ text <+: view.drop i ∧ ∀ j, pos ≤ j → j < i → ¬ text <+: view.drop j := by
  obtain ⟨hp, hi, hno⟩ := find?_range'_eq_some.mp h
  refine ⟨(mem_range'_1.mp hi).1, isPrefixOf_iff_prefix.mp hp, fun j h1 h2 hpre => ?_⟩
  have := hno j h1 h2
  rw [ isPrefixOf_iff_prefix.mpr hpre] at this
  cases this

theorem findFrom_eq_none {pos : Nat} (h : findFrom view text pos = none) :
    ∀ j, pos ≤ j → j ≤ view.length → ¬ text <+: view.drop j := by
  intro j h1 h2 hpre
  have := find?_range'_eq_none.mp h j h1 (by omega)
  rw [ isPrefixOf_iff_prefix.mpr hpre] at this
  cases this

/-- The bytes of a range of the text. -/
def slice (rawText : List UInt8) (offset length : Nat) : List UInt8 :=
  (rawText.drop offset).take length

theorem drop_take_add (o l : Nat) : (rawText.take (o + l)).drop o = slice rawText o l := by
  rw [drop_take, slice]
  congr 1
  omega

theorem slice_append (rawText : List UInt8) (o k l : Nat) :
    slice rawText o (k + l) = slice rawText o k ++ slice rawText (o + k) l := by
  unfold slice
  rw [take_add, drop_drop]

theorem length_slice (h : o + l ≤ rawText.length) : (slice rawText o l).length = l := by
  rw [slice, length_take, length_drop]
  omega

/-- An occurrence in a range. -/
theorem infix_slice_iff (h : o + l ≤ rawText.length) :
    text <:+: slice rawText o l ↔ ∃ j, o ≤ j ∧ j + text.length ≤ o + l ∧
      text <+: (rawText.take (o + l)).drop j := by
  constructor
  · rintro ⟨a, b, e⟩
    have hlen := congrArg List.length e
    rw [length_slice h, length_append, length_append] at hlen
    refine ⟨o + a.length, by omega, by omega, b, ?_⟩
    rw [← drop_drop, drop_take_add, ← e, append_assoc, drop_left]
  · rintro ⟨j, hj, hjl, b, e⟩
    have hdrop : (rawText.take (o + l)).drop j = (slice rawText o l).drop (j - o) := by
      rw [← drop_take_add, drop_drop]
      congr 1
      omega
    refine ⟨(slice rawText o l).take (j - o), b, ?_⟩
    rw [append_assoc, e, hdrop, take_append_drop]

/-- A range inside of another one. -/
theorem slice_isInfix {o l o' l' : Nat} (h₁ : o ≤ o') (h₂ : o' + l' ≤ o + l) :
    slice rawText o' l' <:+: slice rawText o l := by
  obtain ⟨d, rfl⟩ := Nat.exists_eq_add_of_le h₁
  obtain ⟨e, rfl⟩ := Nat.exists_eq_add_of_le (show d + l' ≤ l by omega)
  rw [slice_append, slice_append]
  exact ⟨slice rawText o d, _, rfl⟩

theorem slice_one {o : Nat} (h : o < rawText.length) : slice rawText o 1 = [rawText.getD o 0] := by
  rw [slice, drop_eq_getElem_cons h, getD_eq_getElem?_getD, getElem?_eq_getElem h]
  rfl

/-! ## Whitespace -/

/-- The whitespace that is stripped at the end. -/
theorem stripLeft_spec (rawText : List UInt8) {o n : Nat} (h : o + n ≤ rawText.length) :
    stripLeft rawText o n ≤ n ∧
      ∀ c ∈ slice rawText (o + stripLeft rawText o n) (n - stripLeft rawText o n),
        isSpace c = true := by
  induction n with
  | zero => simp [stripLeft, slice]
  | succ n ih =>
    rw [stripLeft]
    split
    · rename_i hs
      obtain ⟨hle, hall⟩ := ih (by omega)
      refine ⟨by omega, fun c hc => ?_⟩
      rw [show n + 1 - stripLeft rawText o n = (n - stripLeft rawText o n) + 1 by omega,
        slice_append, mem_append] at hc
      rcases hc with hc | hc
      · exact hall c hc
      · rw [show o + stripLeft rawText o n + (n - stripLeft rawText o n) = o + n by omega,
          slice_one (by omega), mem_singleton] at hc
        rw [hc]
        exact hs
    · exact ⟨le_rfl, by simp [slice]⟩

/-- The whitespace that is stripped at the beginning. -/
theorem stripRight_spec (rawText : List UInt8) {o n : Nat} (h : o + n ≤ rawText.length) :
    o ≤ (stripRight rawText o n).1 ∧
      (stripRight rawText o n).1 + (stripRight rawText o n).2 = o + n ∧
      ∀ c ∈ slice rawText o ((stripRight rawText o n).1 - o), isSpace c = true := by
  induction n generalizing o with
  | zero => simp [stripRight, slice]
  | succ n ih =>
    rw [stripRight]
    split
    · rename_i hs
      obtain ⟨hle, heq, hall⟩ := ih (o := o + 1) (by omega)
      refine ⟨by omega, by omega, fun c hc => ?_⟩
      rw [show (stripRight rawText (o + 1) n).1 - o =
        1 + ((stripRight rawText (o + 1) n).1 - (o + 1)) by omega, slice_append,
        mem_append] at hc
      rcases hc with hc | hc
      · rw [slice_one (by omega), mem_singleton] at hc
        rw [hc]
        exact hs
      · exact hall c hc
    · exact ⟨le_rfl, rfl, by simp [slice]⟩

/-! ## Reading fragments -/

/-- The fragments read in order give the text, if whitespace may be dropped before a token with
`LSTRIP` and behind one with `RSTRIP`. -/
inductive Reads (vocab : Nat → SpecialTokenData) (rawText : List UInt8) :
    List Fragment → List UInt8 → Prop where
  | nil : Reads vocab rawText [] []
  | rawText {o l : Nat} {fs : List Fragment} {s : List UInt8} (h : Reads vocab rawText fs s) :
    Reads vocab rawText (.rawText o l :: fs) (slice rawText o l ++ s)
  | token {id : Nat} {before after : List UInt8} {fs : List Fragment} {s : List UInt8}
    (hb : ∀ c ∈ before, isSpace c = true) (hl : before ≠ [] → (vocab id).lstrip = true)
    (ha : ∀ c ∈ after, isSpace c = true) (hr : after ≠ [] → (vocab id).rstrip = true)
    (h : Reads vocab rawText fs s) :
    Reads vocab rawText (.token id :: fs) (before ++ ((vocab id).text ++ (after ++ s)))

variable {vocab : Nat → SpecialTokenData}

theorem Reads.append {fs gs : List Fragment} {s t : List UInt8} (h : Reads vocab rawText fs s)
    (h' : Reads vocab rawText gs t) : Reads vocab rawText (fs ++ gs) (s ++ t) := by
  induction h with
  | nil => exact h'
  | rawText _ ih =>
    rw [append_assoc]
    exact .rawText ih
  | token hb hl ha hr _ ih =>
    simp only [append_assoc]
    exact .token hb hl ha hr ih

/-- A text fragment is replaced by fragments that read like it. -/
theorem Reads.replace
    (h : Reads vocab rawText fs (slice rawText o l)) {gs : List Fragment} {s : List UInt8}
    (h' : Reads vocab rawText (.rawText o l :: gs) s) {gs' : List Fragment}
    (hgs : ∀ t, Reads vocab rawText gs t → Reads vocab rawText gs' t) :
    Reads vocab rawText (fs ++ gs') s := by
  cases h' with
  | rawText h' => exact h.append (hgs _ h')

/-! ## One fragment -/

/-- The buffer with the iterator at the last fragment of `p`. -/
def bufferAt (p c : List Fragment) : Buffer := ⟨p ++ c, p.length - 1⟩

/-- The fragment of a range, which is there if the range is not empty. -/
def rest (o l : Nat) : List Fragment := if l = 0 then [] else [.rawText o l]

theorem insertIdx_length_append (p c : List Fragment) (f : Fragment) :
    (p ++ c).insertIdx p.length f = p ++ f :: c := by
  induction p with
  | nil => rfl
  | cons x p ih => rw [cons_append, length_cons, insertIdx_succ_cons, ih]; rfl

theorem eraseIdx_length_append (a q : List Fragment) (x : Fragment) :
    (a ++ x :: q).eraseIdx a.length = a ++ q := by
  induction a with
  | nil => rfl
  | cons y a ih => rw [cons_append, length_cons, eraseIdx_cons_succ, ih]; rfl

theorem bufferAt_emplaceAfter (hp : p ≠ []) (c : List Fragment)
    (f : Fragment) : (bufferAt p c).emplaceAfter f = bufferAt (p ++ [f]) c := by
  have hpos := length_pos_iff.mpr hp
  unfold bufferAt Buffer.emplaceAfter
  rw [Nat.sub_add_cancel hpos, insertIdx_length_append]
  simp

theorem bufferAt_rest (hp : p ≠ []) (c : List Fragment) (o l : Nat) :
    (if l > 0 then (bufferAt p c).emplaceAfter (.rawText o l) else bufferAt p c) =
      bufferAt (p ++ rest o l) c := by
  unfold rest
  by_cases h : l = 0
  · simp [h]
  · rw [if_pos (Nat.pos_of_ne_zero h), if_neg h, bufferAt_emplaceAfter hp]

theorem bufferAt_eraseSource {a q c : List Fragment} {x : Fragment} (hq : q ≠ []) :
    (bufferAt (a ++ x :: q) c).eraseSource a.length = bufferAt (a ++ q) c := by
  unfold bufferAt Buffer.eraseSource
  rw [append_assoc, cons_append, eraseIdx_length_append, append_assoc]
  congr 1
  simp only [length_append, length_cons]
  omega

/-- What comes from a range of the text when the token is split off. -/
structure SplitOf (vocab : Nat → SpecialTokenData) (rawText : List UInt8) (specialId o l : Nat)
    (fs : List Fragment) : Prop where
  reads : Reads vocab rawText fs (slice rawText o l)
  inside : ∀ o' l', .rawText o' l' ∈ fs → 0 < l' ∧ o ≤ o' ∧ o' + l' ≤ o + l ∧
    ¬ (vocab specialId).text <:+: slice rawText o' l'
  ne : 0 < l → fs ≠ []

theorem mem_rest {o l o' l' : Nat} : Fragment.rawText o' l' ∈ rest o l ↔
    0 < l ∧ o' = o ∧ l' = l := by
  unfold rest
  by_cases h : l = 0
  · simp [h]
  · simp [h, Nat.pos_of_ne_zero h]

theorem reads_rest (o l : Nat) : Reads vocab rawText (rest o l) (slice rawText o l) := by
  unfold rest
  by_cases h : l = 0
  · rw [if_pos h, h]
    exact .nil
  · rw [if_neg h, ← append_nil (slice rawText o l)]
    exact .rawText .nil

/-- The range to the left of the token and the whitespace between them. -/
theorem leftLength_spec (data : SpecialTokenData) {o m : Nat} (hom : o ≤ m)
    (hm : m ≤ rawText.length) :
    leftLength rawText data o m ≤ m - o ∧
      (∀ c ∈ slice rawText (o + leftLength rawText data o m)
        (m - o - leftLength rawText data o m), isSpace c = true) ∧
      (slice rawText (o + leftLength rawText data o m)
        (m - o - leftLength rawText data o m) ≠ [] → data.lstrip = true) := by
  unfold leftLength
  split
  · rename_i hl
    obtain ⟨h1, h2⟩ := stripLeft_spec rawText (o := o) (n := m - o) (by omega)
    exact ⟨h1, h2, fun _ => hl⟩
  · simp [slice]

/-- The range to the right of the token and the whitespace between them. -/
theorem rightRange_spec {data : SpecialTokenData} {o l m : Nat} (hom : o ≤ m)
    (hm : m + data.text.length ≤ o + l) (h : o + l ≤ rawText.length) :
    m + data.text.length ≤ (rightRange rawText data o l m).1 ∧
      (rightRange rawText data o l m).1 + (rightRange rawText data o l m).2 = o + l ∧
      (∀ c ∈ slice rawText (m + data.text.length)
        ((rightRange rawText data o l m).1 - (m + data.text.length)), isSpace c = true) ∧
      (slice rawText (m + data.text.length)
        ((rightRange rawText data o l m).1 - (m + data.text.length)) ≠ [] →
          data.rstrip = true) := by
  unfold rightRange
  dsimp only
  split
  · rename_i hr
    obtain ⟨h1, h2, h3⟩ := stripRight_spec rawText (o := m + data.text.length)
      (n := l - ((m - o) + data.text.length)) (by omega)
    exact ⟨h1, by omega, h3, fun _ => hr⟩
  · refine ⟨le_rfl, by dsimp only; omega, ?_, ?_⟩ <;> simp [slice]

/-- A range that the token splits: left part, token, right part. -/
theorem SplitOf.of_match {specialId o l m : Nat}
    (hom : o ≤ m) (hm : m + (vocab specialId).text.length ≤ o + l) (h : o + l ≤ rawText.length)
    (hmatch : (vocab specialId).text <+: (rawText.take (o + l)).drop m)
    (hbefore : ∀ j, o ≤ j → j < m → ¬ (vocab specialId).text <+: (rawText.take (o + l)).drop j)
    (hne : (vocab specialId).text ≠ [])
    (hfs : SplitOf vocab rawText specialId (rightRange rawText (vocab specialId) o l m).1
      (rightRange rawText (vocab specialId) o l m).2 fs) :
    SplitOf vocab rawText specialId o l
      (rest o (leftLength rawText (vocab specialId) o m) ++ .token specialId :: fs) := by
  obtain ⟨hl1, hl2, hl3⟩ := leftLength_spec (vocab specialId) hom (show m ≤ rawText.length by omega)
  obtain ⟨hr1, hr2, hr3, hr4⟩ := rightRange_spec hom hm h
  set left := leftLength rawText (vocab specialId) o m with hleft
  set right := rightRange rawText (vocab specialId) o l m with hright
  set len := (vocab specialId).text.length with hlen
  have htext : slice rawText m len = (vocab specialId).text := by
    obtain ⟨b, e⟩ := hmatch
    have hdrop : (rawText.take (o + l)).drop m = slice rawText m (o + l - m) := by
      rw [← drop_take_add, Nat.add_sub_cancel' (by omega)]
    rw [hdrop, show o + l - m = len + (o + l - m - len) by omega, slice_append] at e
    have hl : (vocab specialId).text.length = (slice rawText m len).length := by
      rw [length_slice (by omega)]
    exact (append_inj_left e hl).symm
  refine ⟨?_, fun o' l' hmem => ?_, fun _ => by simp⟩
  · -- the pieces in order
    have hsplit : slice rawText o l = slice rawText o left ++
        (slice rawText (o + left) (m - o - left) ++ ((vocab specialId).text ++
          (slice rawText (m + len) (right.1 - (m + len)) ++ slice rawText right.1 right.2))) := by
      rw [← htext, show l = left + ((m - o - left) + (len + ((right.1 - (m + len)) + right.2)))
        by omega, slice_append, slice_append, slice_append, slice_append]
      congr 3
      · congr 1; omega
      · congr 1
        · congr 1; omega
        · congr 1; omega
    rw [hsplit]
    exact (reads_rest o left).append (.token hl2 hl3 hr3 hr4 hfs.reads)
  · rcases mem_append.mp hmem with hmem | hmem
    · obtain ⟨hpos, ho', hl'⟩ := mem_rest.mp hmem
      rw [ho', hl']
      refine ⟨hpos, le_rfl, by omega, fun hin => ?_⟩
      -- an occurrence on the left would have been found first
      obtain ⟨j, hj, hjl, hpre⟩ := (infix_slice_iff (by omega)).mp hin
      have hlenpos := length_pos_iff.mpr hne
      refine hbefore j hj (by omega) (hpre.trans (List.IsPrefix.drop ?_ j))
      rw [← Nat.min_eq_left (show o + left ≤ o + l by omega), ← take_take]
      exact take_prefix _ _
    · rcases mem_cons.mp hmem with hmem | hmem
      · cases hmem
      · obtain ⟨h1, h2, h3, h4⟩ := hfs.inside o' l' hmem
        exact ⟨h1, by omega, by omega, h4⟩

/-- The loop over the text of a fragment replaces it by what the token splits it into. -/
theorem splitLoop_spec {specialId : Nat} (hne : (vocab specialId).text ≠ []) (l : Nat) :
    ∀ o, o + l ≤ rawText.length → ∃ fs, SplitOf vocab rawText specialId o l fs ∧
      ∀ (a c : List Fragment), a ++ rest o l ≠ [] → ∀ fuel, l < fuel →
        splitLoop rawText specialId (vocab specialId) fuel (bufferAt (a ++ rest o l) c) o l =
          some (bufferAt (a ++ fs) c) := by
  have hlenpos := length_pos_iff.mpr hne
  induction l using Nat.strongRecOn with
  | ind l ih =>
    intro o h
    cases hfind : findFrom (rawText.take (o + l)) (vocab specialId).text o with
    | none =>
      refine ⟨rest o l, ⟨reads_rest o l, fun o' l' hmem => ?_, fun hl => ?_⟩,
        fun a c _ fuel hfuel => ?_⟩
      · obtain ⟨hpos, rfl, rfl⟩ := mem_rest.mp hmem
        refine ⟨hpos, le_rfl, le_rfl, fun hin => ?_⟩
        obtain ⟨j, hj, hjl, hpre⟩ := (infix_slice_iff h).mp hin
        refine findFrom_eq_none hfind j hj ?_ hpre
        rw [length_take]
        omega
      · simp [rest, hl.ne']
      · obtain ⟨fuel, rfl⟩ :=
          exists_eq_succ_of_ne_zero (Nat.ne_of_gt (zero_lt_of_lt hfuel))
        rw [splitLoop, hfind]
    | some m =>
      obtain ⟨hom, hmatch, hbefore⟩ := findFrom_eq_some hfind
      have hm : m + (vocab specialId).text.length ≤ o + l := by
        have := hmatch.length_le
        rw [length_drop, length_take] at this
        omega
      have hrest : rest o l = [.rawText o l] := if_neg (by omega)
      have hleft := (leftLength_spec (vocab specialId) hom (show m ≤ rawText.length by omega)).1
      obtain ⟨hr1, hr2, -⟩ := rightRange_spec hom hm h
      set left := leftLength rawText (vocab specialId) o m with hleftdef
      set right := rightRange rawText (vocab specialId) o l m with hrightdef
      -- the fragment on the left and the token, behind the fragment
      have hif : ∀ a c : List Fragment, (if m > o ∧ left > 0 then
          (bufferAt (a ++ [.rawText o l]) c).emplaceAfter (.rawText o left)
            else bufferAt (a ++ [.rawText o l]) c) =
          bufferAt (a ++ [.rawText o l] ++ rest o left) c := by
        intro a c
        rw [← bufferAt_rest (by simp)]
        by_cases hpos : left > 0
        · rw [if_pos ⟨by omega, hpos⟩, if_pos hpos]
        · rw [if_neg fun hx => hpos hx.2, if_neg hpos]
      have hsource : ∀ a c : List Fragment, (bufferAt (a ++ [.rawText o l]) c).it = a.length := by
        simp [bufferAt]
      by_cases hright : m + (vocab specialId).text.length < o + l
      · -- the loop goes on with the right part
        obtain ⟨fs, hfs, hrun⟩ := ih right.2 (by omega) right.1 (by omega)
        refine ⟨_, .of_match hom hm h hmatch hbefore hne hfs, fun a c _ fuel hfuel => ?_⟩
        obtain ⟨fuel, rfl⟩ := exists_eq_succ_of_ne_zero (Nat.ne_of_gt (zero_lt_of_lt hfuel))
        rw [splitLoop, hfind]
        dsimp only
        rw [← hleftdef, hrest, hif, bufferAt_emplaceAfter (by simp), hsource, ← hrightdef,
          if_pos hright, bufferAt_rest (by simp)]
        have hgo := hrun (a ++ (rest o left ++ [.token specialId])) c (by simp) fuel (by omega)
        have herase := bufferAt_eraseSource (a := a) (c := c) (x := .rawText o l)
          (q := rest o left ++ [.token specialId] ++ rest right.1 right.2) (by simp)
        simp only [append_assoc, cons_append, nil_append] at herase hgo ⊢
        rw [herase]
        exact hgo
      · -- the token ends the fragment
        have hzero : right.2 = 0 := by omega
        have hnil : SplitOf vocab rawText specialId right.1 right.2 [] := by
          rw [hzero]
          exact ⟨.nil, fun o' l' hmem => absurd hmem not_mem_nil, fun hx => by omega⟩
        refine ⟨_, .of_match hom hm h hmatch hbefore hne hnil, fun a c _ fuel hfuel => ?_⟩
        obtain ⟨fuel, rfl⟩ := exists_eq_succ_of_ne_zero (Nat.ne_of_gt (zero_lt_of_lt hfuel))
        rw [splitLoop, hfind]
        dsimp only
        rw [← hleftdef, hrest, hif, bufferAt_emplaceAfter (by simp), hsource, if_neg hright]
        have herase := bufferAt_eraseSource (a := a) (c := c) (x := .rawText o l)
          (q := rest o left ++ [.token specialId]) (by simp)
        simp only [append_assoc, cons_append, nil_append] at herase ⊢
        rw [herase]

/-! ## The buffer -/

/-- The text fragments are ranges of the text without any of the excluded texts. -/
def Clean (rawText : List UInt8) (excluded : List (List UInt8)) (fs : List Fragment) : Prop :=
  ∀ o l, .rawText o l ∈ fs →
    0 < l ∧ o + l ≤ rawText.length ∧ ∀ t ∈ excluded, ¬ t <:+: slice rawText o l

variable {excluded : List (List UInt8)}

theorem Clean.append {fs gs : List Fragment} (h : Clean rawText excluded fs)
    (h' : Clean rawText excluded gs) : Clean rawText excluded (fs ++ gs) := by
  intro o l hmem
  rcases mem_append.mp hmem with hmem | hmem
  · exact h o l hmem
  · exact h' o l hmem

/-- What comes from a range excludes the token, and what the range excluded. -/
theorem SplitOf.clean {specialId o l : Nat}
    (h : SplitOf vocab rawText specialId o l fs) (hl : o + l ≤ rawText.length)
    (hex : ∀ t ∈ excluded, ¬ t <:+: slice rawText o l) :
    Clean rawText ((vocab specialId).text :: excluded) fs := by
  intro o' l' hmem
  obtain ⟨h1, h2, h3, h4⟩ := h.inside o' l' hmem
  refine ⟨h1, by omega, fun t ht hin => ?_⟩
  rcases mem_cons.mp ht with rfl | ht
  · exact h4 hin
  · exact hex t ht (hin.trans (slice_isInfix h2 h3))

/-- The loop over the fragments, from a fragment of the buffer on. -/
theorem partitionLoop_spec {specialId : Nat} (hne : (vocab specialId).text ≠ [])
    (todo : List Fragment) (h : Clean rawText excluded todo) :
    ∃ out, Clean rawText ((vocab specialId).text :: excluded) out ∧
      (∀ s, Reads vocab rawText todo s → Reads vocab rawText out s) ∧
      ∀ (done : List Fragment) (fuel : Nat), todo.length + rawText.length < fuel →
        partitionLoop rawText specialId (vocab specialId) fuel ⟨done ++ todo, done.length⟩ =
          some (done ++ out) := by
  induction todo with
  | nil =>
    refine ⟨[], fun o l hmem => absurd hmem not_mem_nil, fun _ hs => hs, fun done fuel hfuel => ?_⟩
    obtain ⟨fuel, rfl⟩ := exists_eq_succ_of_ne_zero (Nat.ne_of_gt (zero_lt_of_lt hfuel))
    simp [partitionLoop]
  | cons f todo ih =>
    obtain ⟨out, hclean, hreads, hrun⟩ :=
      ih fun o l hmem => h o l (mem_cons_of_mem f hmem)
    have hat : ∀ done : List Fragment, (done ++ f :: todo)[done.length]? = some f := by simp
    cases f with
    | token id =>
      refine ⟨.token id :: out, fun o l hmem => ?_, fun s hs => ?_, fun done fuel hfuel => ?_⟩
      · exact hclean o l ((mem_cons.mp hmem).resolve_left (by simp))
      · cases hs with
        | token hb hl ha hr hs => exact .token hb hl ha hr (hreads _ hs)
      · obtain ⟨fuel, rfl⟩ :=
          exists_eq_succ_of_ne_zero (Nat.ne_of_gt (zero_lt_of_lt hfuel))
        rw [length_cons] at hfuel
        have := hrun (done ++ [.token id]) fuel (by omega)
        simp only [append_assoc, cons_append, nil_append, length_append,
          length_cons, length_nil] at this
        simp only [partitionLoop, hat]
        exact this
    | rawText o l =>
      obtain ⟨hl, hol, hex⟩ := h o l mem_cons_self
      have hrest : rest o l = [.rawText o l] := if_neg hl.ne'
      obtain ⟨fs, hfs, hsplit⟩ := splitLoop_spec hne l o hol
      refine ⟨fs ++ out, (hfs.clean hol hex).append hclean,
        fun s hs => hfs.reads.replace hs hreads, fun done fuel hfuel => ?_⟩
      obtain ⟨fuel, rfl⟩ := exists_eq_succ_of_ne_zero (Nat.ne_of_gt (zero_lt_of_lt hfuel))
      rw [length_cons] at hfuel
      have hbuffer : (⟨done ++ .rawText o l :: todo, done.length⟩ : Buffer) =
          bufferAt (done ++ rest o l) todo := by
        simp [bufferAt, hrest]
      have hpos : 0 < (done ++ fs).length := by
        have := length_pos_iff.mpr (hfs.ne hl)
        rw [length_append]
        omega
      simp only [partitionLoop, hat]
      rw [hbuffer, hsplit done todo (by simp [hrest]) (fuel + 1) (by omega)]
      dsimp only [bufferAt]
      rw [Nat.sub_add_cancel hpos, hrun (done ++ fs) fuel (by omega), append_assoc]

/-- The buffer after the tokens that take part. -/
theorem tokenizerStPartition_spec (parseSpecial : Bool) (cacheSpecialTokens : List Nat)
    (hne : ∀ id ∈ cacheSpecialTokens, (vocab id).text ≠ []) :
    ∀ (fs : List Fragment) (excluded : List (List UInt8)), Clean rawText excluded fs →
      ∃ out, Clean rawText excluded out ∧
        (∀ id ∈ cacheSpecialTokens, active parseSpecial (vocab id) = true →
          Clean rawText [(vocab id).text] out) ∧
        (∀ s, Reads vocab rawText fs s → Reads vocab rawText out s) ∧
        ∃ n, ∀ fuel, n ≤ fuel →
          tokenizerStPartition vocab parseSpecial rawText fuel cacheSpecialTokens fs =
            some out := by
  induction cacheSpecialTokens with
  | nil =>
    exact fun fs excluded h => ⟨fs, h, fun id hid => absurd hid not_mem_nil, fun _ hs => hs,
      0, fun _ _ => rfl⟩
  | cons id ids ih =>
    intro fs excluded h
    have ih' := ih fun i hi => hne i (mem_cons_of_mem id hi)
    by_cases hact : active parseSpecial (vocab id) = true
    · obtain ⟨mid, hmid, hreads, hrun⟩ := partitionLoop_spec (hne id mem_cons_self) fs h
      obtain ⟨out, hout, hall, hreads', n, hn⟩ := ih' mid _ hmid
      refine ⟨out, fun o l hmem => ?_, fun i hi hai => ?_, fun s hs => hreads' s (hreads s hs),
        max n (fs.length + rawText.length + 1), fun fuel hfuel => ?_⟩
      · obtain ⟨h1, h2, h3⟩ := hout o l hmem
        exact ⟨h1, h2, fun t ht => h3 t (mem_cons_of_mem _ ht)⟩
      · rcases mem_cons.mp hi with rfl | hi
        · intro o l hmem
          obtain ⟨h1, h2, h3⟩ := hout o l hmem
          refine ⟨h1, h2, fun t ht => h3 t ?_⟩
          rw [mem_singleton.mp ht]
          exact mem_cons_self
        · exact hall i hi hai
      · rw [tokenizerStPartition, if_pos hact]
        have := hrun [] fuel (by omega)
        simp only [nil_append, length_nil] at this
        rw [this]
        exact hn fuel (by omega)
    · obtain ⟨out, hout, hall, hreads', n, hn⟩ := ih' fs excluded h
      refine ⟨out, hout, fun i hi hai => ?_, hreads', n, fun fuel hfuel => ?_⟩
      · rcases mem_cons.mp hi with rfl | hi
        · exact absurd hai hact
        · exact hall i hi hai
      · rw [tokenizerStPartition, if_neg hact]
        exact hn fuel hfuel

/-- The partition of a text that is not empty: it ends, its fragments read as the text, and no text
fragment is empty or has the text of a token that takes part in it. -/
theorem tokenizerStPartition_covers (vocab : Nat → SpecialTokenData) (parseSpecial : Bool)
    (cacheSpecialTokens : List Nat) (hne : ∀ id ∈ cacheSpecialTokens, (vocab id).text ≠ [])
    {rawText : List UInt8} (hraw : rawText ≠ []) :
    ∃ out,
      (∃ n, ∀ fuel, n ≤ fuel →
        tokenizerStPartition vocab parseSpecial rawText fuel cacheSpecialTokens
          [.rawText 0 rawText.length] = some out) ∧
      Reads vocab rawText out rawText ∧
      ∀ o l, .rawText o l ∈ out → 0 < l ∧ o + l ≤ rawText.length ∧
        ∀ id ∈ cacheSpecialTokens, active parseSpecial (vocab id) = true →
          ¬ (vocab id).text <:+: slice rawText o l := by
  have hstart : Clean rawText [] [.rawText 0 rawText.length] := by
    intro o l hmem
    obtain ⟨rfl, rfl⟩ := Fragment.rawText.inj (mem_singleton.mp hmem)
    exact ⟨length_pos_iff.mpr hraw, by omega, fun t ht => absurd ht not_mem_nil⟩
  obtain ⟨out, hclean, hall, hreads, hrun⟩ :=
    tokenizerStPartition_spec parseSpecial cacheSpecialTokens hne _ _ hstart
  refine ⟨out, hrun, hreads _ ?_, fun o l hmem => ?_⟩
  · have : slice rawText 0 rawText.length = rawText := by simp [slice]
    have h := @Reads.rawText vocab rawText 0 rawText.length [] [] .nil
    rwa [this, append_nil] at h
  · obtain ⟨h1, h2, -⟩ := hclean o l hmem
    exact ⟨h1, h2, fun id hid hact => (hall id hid hact o l hmem).2.2 _ mem_cons_self⟩

/-- The token `<s>`, which strips on both sides. -/
def strippingToken : SpecialTokenData :=
  { text := [0x3C, 0x73, 0x3E], control := true, lstrip := true, rstrip := true }

/-- The text `a <s> b`. -/
theorem tokenizerStPartition_covers_stripped : ∃ out, (∃ n, ∀ fuel, n ≤ fuel →
        tokenizerStPartition (fun _ => strippingToken) true
          [0x61, 0x20, 0x3C, 0x73, 0x3E, 0x20, 0x62] fuel [3] [.rawText 0 7] = some out) ∧
      Reads (fun _ => strippingToken) [0x61, 0x20, 0x3C, 0x73, 0x3E, 0x20, 0x62] out
        [0x61, 0x20, 0x3C, 0x73, 0x3E, 0x20, 0x62] ∧
      ∀ o l, .rawText o l ∈ out → 0 < l ∧ o + l ≤ 7 ∧
        ∀ id ∈ [3], active true strippingToken = true →
          ¬ strippingToken.text <:+: slice [0x61, 0x20, 0x3C, 0x73, 0x3E, 0x20, 0x62] o l :=
  tokenizerStPartition_covers (fun _ => strippingToken) true [3] (by simp [strippingToken])
    (by simp)

example : tokenizerStPartition (fun _ => strippingToken) true
    [0x61, 0x20, 0x3C, 0x73, 0x3E, 0x20, 0x62] 9 [3] [.rawText 0 7] =
      some [.rawText 0 1, .token 3, .rawText 6 1] := by decide

end Partition
end BeeLlama
