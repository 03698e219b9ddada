import BeeLlama.Vocab.NaiveTrie

/-!
# Normalization of the unigram tokenizer (`llm_tokenizer_ugm_session::normalize`)

`normalize_prefix` tries a user-defined token, the character map, a code point, and gives up with a
replacement character. The character map is an XOR-compressed double array: an entry packs the base
of its children, the byte that leads to it and whether a replacement ends here.

* `walk_spec`: the walk through the double array finds the longest prefix that it maps.
* `normalizePrefix_right_iff`: `get_longest_prefix` walks on into a token that does not go on like
  the input, so the user-defined branch is right exactly if the longest prefix that some token
  begins with is a token (`LongestIsToken`).
* `normalize_returns`: each prefix consumes something, so `normalize` ends.
-/

namespace BeeLlama

open List Nat

/-- The exceptions of `normalize_prefix`. -/
inductive NormalizeError where
  /-- "Index out of array bounds in XCDA array!" -/
  | xcdaBounds
  /-- "Index out of array bounds in precompiled charsmap!" -/
  | charsmapBounds
  /-- "Unterminated string in precompiled charsmap!" -/
  | unterminated
  deriving DecidableEq, Repr

/-- The precompiled character map of `llm_tokenizer_ugm`. -/
structure UgmCharsmap where
  xcdaArray : List UInt32 := []
  prefixReplacements : List UInt8 := []
  deriving DecidableEq, Repr

/-- What a `normalization_result` points to. -/
inductive NormalizedFrom where
  | inputEnd
  | userDefined
  | replacement
  | codePoint
  | replacementCharacter
  deriving DecidableEq, Repr

/-- `normalization_result`. -/
structure NormalizationResult where
  source : NormalizedFrom
  normalized : List UInt8
  consumedInput : Nat
  deriving DecidableEq, Repr

namespace UgmCharsmap

/-! ## `xcda_array_view` -/

/-- `get_base` of a packed node. -/
def base (packedNode : UInt32) : UInt32 :=
  (packedNode >>> 10) <<< ((packedNode &&& ((1 : UInt32) <<< 9)) >>> 6)

/-- `get_lcheck`. -/
def lcheck (packedNode : UInt32) : UInt32 := packedNode &&& (((1 : UInt32) <<< 31) ||| 0xff)

/-- `get_leaf`. -/
def leaf (packedNode : UInt32) : Bool := (packedNode >>> 8) &&& 1 != 0

/-- `get_value`. -/
def value (packedNode : UInt32) : UInt32 := packedNode &&& (((1 : UInt32) <<< 31) - 1)

/-- `get_node`. -/
def getNode (m : UgmCharsmap) (index : UInt32) : Except NormalizeError UInt32 :=
  match m.xcdaArray[index.toNat]? with
  | some packedNode => .ok packedNode
  | none => .error .xcdaBounds

/-- The loop over the bytes of the prefix, of which `n` were read: the length and the value of the
longest prefix with a replacement. -/
def walk (m : UgmCharsmap) : List UInt8 → UInt32 → Nat → Nat × UInt32 →
    Except NormalizeError (Nat × UInt32)
  | [], _, _, longest => .ok longest
  | c :: rest, nodeIndex, n, longest =>
    if c = 0 then .ok longest
    else
      let nodeIndex := nodeIndex ^^^ c.toUInt32
      match m.getNode nodeIndex with
      | .error e => .error e
      | .ok packedNode =>
        if lcheck packedNode ≠ c.toUInt32 then .ok longest
        else
          let nodeIndex := nodeIndex ^^^ base packedNode
          if leaf packedNode then
            match m.getNode nodeIndex with
            | .error e => .error e
            | .ok packedValue => walk m rest nodeIndex (n + 1) (n + 1, value packedValue)
          else walk m rest nodeIndex (n + 1) longest

/-- The longest prefix with a replacement, of length `0` if there is none. -/
def longestPrefix (m : UgmCharsmap) (rest : List UInt8) : Except NormalizeError (Nat × UInt32) :=
  if m.xcdaArray = [] then .ok (0, 0)
  else
    match m.getNode 0 with
    | .error e => .error e
    | .ok packedNode => m.walk rest (base packedNode) 0 (0, 0)

/-- The replacement string at an index. -/
def replacementAt (m : UgmCharsmap) (index : Nat) : Except NormalizeError (List UInt8) :=
  if index ≥ m.prefixReplacements.length then .error .charsmapBounds
  else
    let tail := m.prefixReplacements.drop index
    if tail.all (· ≠ 0) then .error .unterminated else .ok (tail.takeWhile (· ≠ 0))

end UgmCharsmap

/-! ## `normalize_prefix` -/

/-- The byte at `i` continues a UTF-8 sequence. -/
def isContinuation (bytes : List UInt8) (i : Nat) : Bool :=
  match bytes[i]? with
  | some b => b &&& 0xc0 == 0x80
  | none => false

/-- The bytes that `unicode_cpt_from_utf8` reads; `none` if it throws. -/
def cptLength (bytes : List UInt8) : Option Nat :=
  match bytes with
  | [] => none
  | b :: _ =>
    if b &&& 0x80 = 0 then some 1
    else if b &&& 0x40 = 0 then none
    else if b &&& 0x20 = 0 then if isContinuation bytes 1 then some 2 else none
    else if b &&& 0x10 = 0 then
      if isContinuation bytes 1 && isContinuation bytes 2 then some 3 else none
    else if b &&& 0x08 = 0 then
      if isContinuation bytes 1 && isContinuation bytes 2 && isContinuation bytes 3 then some 4
      else none
    else none

/-- `normalize_prefix`. -/
def normalizePrefix (userDefinedTokenMatcher : NaiveTrie) (m : UgmCharsmap) (input : List UInt8)
    (inputOffset : Nat) : Except NormalizeError NormalizationResult :=
  if inputOffset = input.length then .ok ⟨.inputEnd, [], 0⟩
  else
    let rest := input.drop inputOffset
    let len := userDefinedTokenMatcher.longestPrefix rest 0
    if len > 0 then .ok ⟨.userDefined, rest.take len, len⟩
    else
      match m.longestPrefix rest with
      | .error e => .error e
      | .ok (longestPrefixLength, longestPrefixOffset) =>
        if longestPrefixLength > 0 then
          match m.replacementAt longestPrefixOffset.toNat with
          | .error e => .error e
          | .ok replacement => .ok ⟨.replacement, replacement, longestPrefixLength⟩
        else
          match cptLength rest with
          | some n => .ok ⟨.codePoint, rest.take n, n⟩
          | none => .ok ⟨.replacementCharacter, [0xEF, 0xBF, 0xBD], 1⟩

/-! ## `normalize` -/

/-- What `normalize` asks the vocabulary for. -/
structure NormalizeOptions where
  escapeWhitespaces : Bool
  treatWhitespaceAsSuffix : Bool
  addSpacePrefix : Bool
  removeExtraWhitespaces : Bool
  deriving DecidableEq, Repr

/-- `space`. -/
def NormalizeOptions.space (o : NormalizeOptions) : List UInt8 :=
  if o.escapeWhitespaces then [0xE2, 0x96, 0x81] else [0x20]

/-- The variables of the loop of `normalize`. -/
structure NormalizeState where
  normalized : List UInt8 := []
  isSpacePrepended : Bool := false
  processingNonWs : Bool := false
  deriving DecidableEq, Repr

/-- One byte of a normalized prefix. -/
def NormalizeState.put (o : NormalizeOptions) (s : NormalizeState) (c : UInt8) : NormalizeState :=
  if c ≠ 0x20 then
    let prepend := !o.treatWhitespaceAsSuffix && o.addSpacePrefix
    let s :=
      if s.processingNonWs then s
      else if prepend && !s.isSpacePrepended || o.removeExtraWhitespaces then
        ⟨s.normalized ++ o.space, true, true⟩
      else { s with processingNonWs := true }
    { s with normalized := s.normalized ++ [c] }
  else
    { s with
      normalized := if o.removeExtraWhitespaces then s.normalized else s.normalized ++ o.space
      processingNonWs := false }

/-- The loop of `normalize`; `none` if it is not at its end after `fuel` prefixes. -/
def normalizeLoop (matcher : NaiveTrie) (m : UgmCharsmap) (o : NormalizeOptions)
    (input : List UInt8) : Nat → Nat → NormalizeState →
    Option (Except NormalizeError NormalizeState)
  | fuel, inputOffset, s =>
    if inputOffset < input.length then
      match fuel with
      | 0 => none
      | fuel + 1 =>
        match normalizePrefix matcher m input inputOffset with
        | .error e => some (.error e)
        | .ok r =>
          normalizeLoop matcher m o input fuel (inputOffset + r.consumedInput)
            (r.normalized.foldl (NormalizeState.put o) s)
    else some (.ok s)

/-- `normalize`. -/
def normalize (matcher : NaiveTrie) (m : UgmCharsmap) (o : NormalizeOptions) (fuel : Nat)
    (input : List UInt8) : Option (Except NormalizeError (List UInt8)) :=
  (normalizeLoop matcher m o input fuel 0 {}).map fun r => r.map fun s =>
    if o.treatWhitespaceAsSuffix && o.addSpacePrefix then s.normalized ++ o.space else s.normalized

/-! ## The double array -/

namespace UgmCharsmap

variable {m : UgmCharsmap}

/-- The value that the double array has for a string, from a node on. -/
def valueFrom (m : UgmCharsmap) : UInt32 → List UInt8 → Option UInt32
  | _, [] => none
  | nodeIndex, c :: key =>
    (m.xcdaArray[(nodeIndex ^^^ c.toUInt32).toNat]?).bind fun packedNode =>
      if c = 0 ∨ lcheck packedNode ≠ c.toUInt32 then none
      else
        let next := nodeIndex ^^^ c.toUInt32 ^^^ base packedNode
        if key = [] then
          if leaf packedNode then (m.xcdaArray[next.toNat]?).map value else none
        else valueFrom m next key

/-- The walk along the bytes leaves the array. -/
def Leaves (m : UgmCharsmap) : UInt32 → List UInt8 → Prop
  | _, [] => False
  | nodeIndex, c :: rest =>
    c ≠ 0 ∧
      match m.xcdaArray[(nodeIndex ^^^ c.toUInt32).toNat]? with
      | none => True
      | some packedNode =>
        lcheck packedNode = c.toUInt32 ∧
          let next := nodeIndex ^^^ c.toUInt32 ^^^ base packedNode
          (leaf packedNode = true ∧ m.xcdaArray[next.toNat]? = none) ∨ Leaves m next rest

/-- The longest prefix of the bytes that has a value, and this value. -/
structure Longest (m : UgmCharsmap) (nodeIndex : UInt32) (rest : List UInt8) (k : Nat)
    (v : UInt32) : Prop where
  pos : 0 < k
  le : k ≤ rest.length
  value : m.valueFrom nodeIndex (rest.take k) = some v
  longest : ∀ j, k < j → j ≤ rest.length → m.valueFrom nodeIndex (rest.take j) = none

variable {rest : List UInt8}

theorem Longest.unique {nodeIndex : UInt32} {k k' : Nat} {v v' : UInt32}
    (h : m.Longest nodeIndex rest k v) (h' : m.Longest nodeIndex rest k' v') :
    k = k' ∧ v = v' := by
  rcases Nat.lt_trichotomy k k' with hk | rfl | hk
  · have := h.longest k' hk h'.le
    rw [h'.value] at this
    cases this
  · exact ⟨rfl, Option.some.inj (h.value.symm.trans h'.value)⟩
  · have := h'.longest k hk h.le
    rw [h.value] at this
    cases this

/-- No prefix of the bytes has a value. -/
def Unmapped (m : UgmCharsmap) (nodeIndex : UInt32) (rest : List UInt8) : Prop :=
  ∀ j, 0 < j → j ≤ rest.length → m.valueFrom nodeIndex (rest.take j) = none

theorem unmapped_of_head {nodeIndex : UInt32} {c : UInt8}
    (h : ∀ key, m.valueFrom nodeIndex (c :: key) = none) : m.Unmapped nodeIndex (c :: rest) := by
  intro j h0 _
  obtain ⟨j, rfl⟩ := exists_eq_succ_of_ne_zero h0.ne'
  rw [take_succ_cons]
  exact h _

/-- The values behind a child. -/
theorem valueFrom_child {nodeIndex packedNode : UInt32} {c : UInt8} (hc : c ≠ 0)
    (hp : m.xcdaArray[(nodeIndex ^^^ c.toUInt32).toNat]? = some packedNode)
    (hl : lcheck packedNode = c.toUInt32) (key : List UInt8) :
    m.valueFrom nodeIndex (c :: key) =
      if key = [] then
        if leaf packedNode then
          (m.xcdaArray[(nodeIndex ^^^ c.toUInt32 ^^^ base packedNode).toNat]?).map value
        else none
      else m.valueFrom (nodeIndex ^^^ c.toUInt32 ^^^ base packedNode) key := by
  rw [valueFrom, hp, Option.bind_some, if_neg (by simp [hc, hl])]

theorem take_ne_nil {j : Nat} (h0 : 0 < j) (hj : j ≤ rest.length) : rest.take j ≠ [] := by
  rw [← length_pos_iff, length_take]
  omega

/-- The longest prefix behind a child. -/
theorem Longest.cons {nodeIndex packedNode : UInt32} {c : UInt8} {k : Nat} {v : UInt32} (hc : c ≠ 0)
    (hp : m.xcdaArray[(nodeIndex ^^^ c.toUInt32).toNat]? = some packedNode)
    (hl : lcheck packedNode = c.toUInt32)
    (h : m.Longest (nodeIndex ^^^ c.toUInt32 ^^^ base packedNode) rest k v) :
    m.Longest nodeIndex (c :: rest) (k + 1) v where
  pos := succ_pos k
  le := succ_le_succ h.le
  value := by
    rw [take_succ_cons, valueFrom_child hc hp hl, if_neg (take_ne_nil h.pos h.le), h.value]
  longest j hk hj := by
    obtain ⟨j, rfl⟩ := exists_eq_succ_of_ne_zero (Nat.ne_of_gt (zero_lt_of_lt hk))
    have hj' : j ≤ rest.length := le_of_succ_le_succ hj
    rw [take_succ_cons, valueFrom_child hc hp hl, if_neg (take_ne_nil (by omega) hj')]
    exact h.longest j (by omega) hj'

/-- The walk finds the longest prefix that has a value. -/
theorem walk_spec (rest : List UInt8) (nodeIndex : UInt32) (n : Nat) (longest : Nat × UInt32) :
    (m.Leaves nodeIndex rest ∧ ∃ e, m.walk rest nodeIndex n longest = .error e) ∨
    (¬ m.Leaves nodeIndex rest ∧
      ((m.Unmapped nodeIndex rest ∧ m.walk rest nodeIndex n longest = .ok longest) ∨
        ∃ k v, m.Longest nodeIndex rest k v ∧
          m.walk rest nodeIndex n longest = .ok (n + k, v))) := by
  induction rest generalizing nodeIndex n longest with
  | nil =>
    refine .inr ⟨id, .inl ⟨fun j h0 hj => ?_, rfl⟩⟩
    rw [length_nil] at hj
    omega
  | cons c rest ih =>
    unfold walk Leaves getNode
    dsimp only
    by_cases hc : c = 0
    · rw [if_pos hc]
      refine .inr ⟨fun h => h.1 hc, .inl ⟨unmapped_of_head fun key => ?_, rfl⟩⟩
      unfold valueFrom
      simp [hc]
    · rw [if_neg hc]
      cases hp : m.xcdaArray[(nodeIndex ^^^ c.toUInt32).toNat]? with
      | none => exact .inl ⟨⟨hc, trivial⟩, _, rfl⟩
      | some packedNode =>
        dsimp only
        by_cases hl : lcheck packedNode = c.toUInt32
        · rw [if_neg (not_not.mpr hl)]
          set next := nodeIndex ^^^ c.toUInt32 ^^^ base packedNode with hnext
          have hchild := fun key => valueFrom_child hc hp hl key
          by_cases hleaf : leaf packedNode = true
          · rw [if_pos hleaf]
            cases hv : m.xcdaArray[next.toNat]? with
            | none => exact .inl ⟨⟨hc, hl, .inl ⟨hleaf, rfl⟩⟩, _, rfl⟩
            | some packedValue =>
              dsimp only
              -- this prefix has a value, which a longer one replaces
              rcases ih next (n + 1) (n + 1, value packedValue) with ⟨h, e⟩ | ⟨h, h'⟩
              · exact .inl ⟨⟨hc, hl, .inr h⟩, e⟩
              · refine .inr ⟨?_, .inr ?_⟩
                · rintro ⟨-, -, ⟨-, hx⟩ | hx⟩
                  · cases hx
                  · exact h hx
                · rcases h' with ⟨hun, e⟩ | ⟨k, v, hk, e⟩
                  · refine ⟨1, value packedValue, ⟨Nat.one_pos, ?_, ?_, fun j hk hj => ?_⟩, e⟩
                    · exact succ_le_succ (Nat.zero_le _)
                    · rw [take_succ_cons, take_zero, hchild, if_pos rfl, if_pos hleaf, ← hnext, hv]
                      rfl
                    · obtain ⟨j, rfl⟩ :=
                        exists_eq_succ_of_ne_zero (Nat.ne_of_gt (zero_lt_of_lt hk))
                      have hj' : j ≤ rest.length := le_of_succ_le_succ hj
                      rw [take_succ_cons, hchild, if_neg (take_ne_nil (by omega) hj')]
                      exact hun j (by omega) hj'
                  · exact ⟨k + 1, v, .cons hc hp hl hk, by rw [e, Nat.add_assoc, Nat.add_comm 1]⟩
          · rw [if_neg hleaf]
            rcases ih next (n + 1) longest with ⟨h, e⟩ | ⟨h, h'⟩
            · exact .inl ⟨⟨hc, hl, .inr h⟩, e⟩
            · refine .inr ⟨?_, ?_⟩
              · rintro ⟨-, -, ⟨hx, -⟩ | hx⟩
                · exact hleaf hx
                · exact h hx
              · rcases h' with ⟨hun, e⟩ | ⟨k, v, hk, e⟩
                · refine .inl ⟨fun j h0 hj => ?_, e⟩
                  obtain ⟨j, rfl⟩ := exists_eq_succ_of_ne_zero h0.ne'
                  have hj' : j ≤ rest.length := le_of_succ_le_succ hj
                  rw [take_succ_cons, hchild]
                  by_cases hj0 : j = 0
                  · rw [hj0, take_zero, if_pos rfl, if_neg hleaf]
                  · rw [if_neg (take_ne_nil (by omega) hj')]
                    exact hun j (by omega) hj'
                · exact .inr ⟨k + 1, v, .cons hc hp hl hk, by rw [e, Nat.add_assoc, Nat.add_comm 1]⟩
        · rw [if_pos hl]
          refine .inr ⟨fun h => hl h.2.1, .inl ⟨unmapped_of_head fun key => ?_, rfl⟩⟩
          rw [valueFrom, hp, Option.bind_some, if_pos (.inr hl)]

/-- The base of the root. -/
def root (m : UgmCharsmap) : UInt32 := base (m.xcdaArray.headD 0)

/-- The replacement string at an index. -/
def replacement (m : UgmCharsmap) (index : Nat) : List UInt8 :=
  (m.prefixReplacements.drop index).takeWhile (· ≠ 0)

/-- The map is damaged: along the bytes the walk leaves the array, or the replacement that it finds
does not end within the map. -/
def Damaged (m : UgmCharsmap) (rest : List UInt8) : Prop :=
  m.xcdaArray ≠ [] ∧ (m.Leaves m.root rest ∨
    ∃ k v, m.Longest m.root rest k v ∧ 0 ∉ m.prefixReplacements.drop v.toNat)

theorem unmapped_of_nil (m : UgmCharsmap) (h : m.xcdaArray = []) (nodeIndex : UInt32)
    (rest : List UInt8) :
    m.Unmapped nodeIndex rest := by
  intro j h0 hj
  cases hrest : rest.take j with
  | nil => rfl
  | cons c key => simp [valueFrom, h]

/-- The search in the map. -/
theorem longestPrefix_spec (m : UgmCharsmap) (rest : List UInt8) :
    (m.xcdaArray ≠ [] ∧ m.Leaves m.root rest ∧ ∃ e, m.longestPrefix rest = .error e) ∨
    ((m.xcdaArray = [] ∨ ¬ m.Leaves m.root rest) ∧
      ((m.Unmapped m.root rest ∧ m.longestPrefix rest = .ok (0, 0)) ∨
        ∃ k v, m.Longest m.root rest k v ∧ m.longestPrefix rest = .ok (k, v))) := by
  unfold longestPrefix
  by_cases h : m.xcdaArray = []
  · rw [if_pos h]
    exact .inr ⟨.inl h, .inl ⟨m.unmapped_of_nil h _ _, rfl⟩⟩
  · rw [if_neg h]
    obtain ⟨p, ps, hp⟩ := exists_cons_of_ne_nil h
    have hroot : m.root = base p := by rw [root, hp, headD_cons]
    have hnode : m.getNode 0 = .ok p := by simp [getNode, hp]
    rw [hnode, hroot]
    dsimp only
    rcases m.walk_spec rest (base p) 0 (0, 0) with ⟨h1, h2⟩ | ⟨h1, ⟨h2, e⟩ | ⟨k, v, h2, e⟩⟩
    · exact .inl ⟨h, h1, h2⟩
    · exact .inr ⟨.inr h1, .inl ⟨h2, e⟩⟩
    · exact .inr ⟨.inr h1, .inr ⟨k, v, h2, by rw [e, Nat.zero_add]⟩⟩

theorem replacementAt_eq (m : UgmCharsmap) (index : Nat) : (0 ∈ m.prefixReplacements.drop index ∧
      m.replacementAt index = .ok (m.replacement index)) ∨
    (0 ∉ m.prefixReplacements.drop index ∧ ∃ e, m.replacementAt index = .error e) := by
  unfold replacementAt replacement
  by_cases h : index ≥ m.prefixReplacements.length
  · rw [if_pos h, drop_of_length_le h]
    exact .inr ⟨not_mem_nil, _, rfl⟩
  · rw [if_neg h]
    by_cases h0 : 0 ∈ m.prefixReplacements.drop index
    · refine .inl ⟨h0, if_neg fun hall => ?_⟩
      have := all_eq_true.mp hall 0 h0
      simp at this
    · refine .inr ⟨h0, _, if_pos (all_eq_true.mpr fun b hb => ?_)⟩
      have : b ≠ 0 := fun e => h0 (e ▸ hb)
      simpa using this

end UgmCharsmap

/-! ## What `normalize_prefix` should return -/

theorem cptLength_bounds {bytes : List UInt8} {n : Nat} (h : cptLength bytes = some n) :
    0 < n ∧ n ≤ bytes.length := by
  have hcont : ∀ i, isContinuation bytes i = true → i < bytes.length := by
    intro i hi
    unfold isContinuation at hi
    split at hi
    · rename_i b hb
      exact (List.getElem?_eq_some_iff.mp hb).1
    · cases hi
  unfold cptLength at h
  split at h
  · cases h
  · rename_i b bs
    split at h
    · cases h
      exact ⟨Nat.one_pos, succ_pos _⟩
    · split at h
      · cases h
      · split at h
        · split at h
          · rename_i h1
            cases h
            exact ⟨Nat.two_pos, hcont 1 h1⟩
          · cases h
        · split at h
          · split at h
            · rename_i h2
              cases h
              exact ⟨by decide, hcont 2 (Bool.and_eq_true_iff.mp h2).2⟩
            · cases h
          · split at h
            · split at h
              · rename_i h3
                cases h
                exact ⟨by decide, hcont 3 (Bool.and_eq_true_iff.mp h3).2⟩
              · cases h
            · cases h

/-- The result for the remaining input. -/
structure NormalizedRight (userDefined : List (List UInt8)) (m : UgmCharsmap) (rest : List UInt8)
    (r : NormalizationResult) : Prop where
  /-- The user-defined branch is taken if a user-defined token begins the input. -/
  userDefined_iff : r.source = .userDefined ↔ ∃ t ∈ userDefined, t <+: rest
  /-- It consumes the longest one. -/
  longest : r.source = .userDefined → r.normalized = rest.take r.consumedInput ∧
    rest.take r.consumedInput ∈ userDefined ∧
      ∀ t ∈ userDefined, t <+: rest → t.length ≤ r.consumedInput
  /-- Otherwise the longest prefix in the character map is replaced. -/
  replaced : r.source ≠ .userDefined → ∀ k v, m.Longest m.root rest k v →
    r = ⟨.replacement, m.replacement v.toNat, k⟩
  /-- Otherwise a code point is left as it is, or a byte is replaced. -/
  codePoint : r.source ≠ .userDefined → m.Unmapped m.root rest →
    match cptLength rest with
    | some n => r = ⟨.codePoint, rest.take n, n⟩
    | none => r = ⟨.replacementCharacter, [0xEF, 0xBF, 0xBD], 1⟩
  /-- Something is consumed. -/
  consumes : 0 < r.consumedInput ∧ r.consumedInput ≤ rest.length

/-- A user-defined token begins with these bytes. -/
def BeginsToken (userDefined : List (List UInt8)) (bytes : List UInt8) : Prop :=
  ∃ t ∈ userDefined, bytes <+: t

/-- The longest prefix of the input that a user-defined token begins with is a token. -/
def LongestIsToken (userDefined : List (List UInt8)) (rest : List UInt8) : Prop :=
  ∀ n, 0 < n → n ≤ rest.length → BeginsToken userDefined (rest.take n) →
    (∀ j, n < j → j ≤ rest.length → ¬ BeginsToken userDefined (rest.take j)) →
      rest.take n ∈ userDefined

/-- `user_defined_token_matcher`. -/
def userDefinedTokenMatcher (userDefined : List (List UInt8)) : NaiveTrie :=
  .ofKeys (userDefined.map fun t => (t, 0))

section

variable {userDefined : List (List UInt8)} {m : UgmCharsmap} {rest : List UInt8}

theorem le_userDefined {n : Nat} (hn : n ≤ rest.length) (h0 : 0 < n) :
    n ≤ (userDefinedTokenMatcher userDefined).longestPrefix rest 0 ↔
      BeginsToken userDefined (rest.take n) := by
  unfold userDefinedTokenMatcher
  rw [NaiveTrie.le_longestPrefix_ofKeys _ _ hn h0]
  simp [BeginsToken]

/-- A token that begins the input. -/
theorem beginsToken_of_isPrefix {t : List UInt8} (ht : t ∈ userDefined) (h : t <+: rest) :
    BeginsToken userDefined (rest.take t.length) := by
  rw [← prefix_iff_eq_take.mp h]
  exact ⟨t, ht, prefix_rfl⟩

/-- The branch of the user-defined tokens is right if the walk ends at a token. -/
theorem right_of_userDefined (h0 : 0 < (userDefinedTokenMatcher userDefined).longestPrefix rest 0) :
    let len := (userDefinedTokenMatcher userDefined).longestPrefix rest 0
    NormalizedRight userDefined m rest ⟨.userDefined, rest.take len, len⟩ ↔
      rest.take len ∈ userDefined := by
  intro len
  have hle : len ≤ rest.length := NaiveTrie.longestPrefix_le _ _
  constructor
  · exact fun h => (h.longest rfl).2.1
  · intro hmem
    refine ⟨⟨fun _ => ⟨_, hmem, take_prefix len rest⟩, fun _ => rfl⟩,
      fun _ => ⟨rfl, hmem, fun t ht hp => ?_⟩, fun h => absurd rfl h, fun h => absurd rfl h,
      h0, hle⟩
    rcases Nat.eq_zero_or_pos t.length with h | h
    · omega
    · exact (le_userDefined hp.length_le h).mpr (beginsToken_of_isPrefix ht hp)

theorem longestIsToken_iff (h0 : 0 < (userDefinedTokenMatcher userDefined).longestPrefix rest 0) :
    LongestIsToken userDefined rest ↔
      rest.take ((userDefinedTokenMatcher userDefined).longestPrefix rest 0) ∈ userDefined := by
  set len := (userDefinedTokenMatcher userDefined).longestPrefix rest 0 with hlen
  have hle : len ≤ rest.length := NaiveTrie.longestPrefix_le _ _
  constructor
  · intro h
    refine h len h0 hle ((le_userDefined hle h0).mp le_rfl) fun j hj hjl hb => ?_
    have := (le_userDefined hjl (by omega)).mpr hb
    omega
  · intro h n hn hnl hb hmax
    have hn' := (le_userDefined hnl hn).mpr hb
    rcases Nat.lt_or_ge n len with hlt | hge
    · exact absurd ((le_userDefined hle h0).mp le_rfl) (hmax len hlt hle)
    · obtain rfl : n = len := le_antisymm hn' hge
      exact h

variable {input : List UInt8} {inputOffset : Nat}

theorem normalizePrefix_userDefined (ho : inputOffset < input.length)
    (h0 : 0 < (userDefinedTokenMatcher userDefined).longestPrefix (input.drop inputOffset) 0) :
    normalizePrefix (userDefinedTokenMatcher userDefined) m input inputOffset =
      .ok ⟨.userDefined, (input.drop inputOffset).take
          ((userDefinedTokenMatcher userDefined).longestPrefix (input.drop inputOffset) 0),
        (userDefinedTokenMatcher userDefined).longestPrefix (input.drop inputOffset) 0⟩ := by
  unfold normalizePrefix
  rw [if_neg (by omega)]
  rw [if_pos h0]

/-- The other branches. -/
theorem normalizePrefix_other (ho : inputOffset < input.length)
    (h0 : (userDefinedTokenMatcher userDefined).longestPrefix (input.drop inputOffset) 0 = 0) :
    (m.Damaged (input.drop inputOffset) ∧
      ∃ e, normalizePrefix (userDefinedTokenMatcher userDefined) m input inputOffset = .error e) ∨
    (¬ m.Damaged (input.drop inputOffset) ∧ ∃ r,
      normalizePrefix (userDefinedTokenMatcher userDefined) m input inputOffset = .ok r ∧
      r.source ≠ .userDefined ∧
      (∀ k v, m.Longest m.root (input.drop inputOffset) k v →
        r = ⟨.replacement, m.replacement v.toNat, k⟩) ∧
      (m.Unmapped m.root (input.drop inputOffset) →
        match cptLength (input.drop inputOffset) with
        | some n => r = ⟨.codePoint, (input.drop inputOffset).take n, n⟩
        | none => r = ⟨.replacementCharacter, [0xEF, 0xBF, 0xBD], 1⟩) ∧
      0 < r.consumedInput ∧ r.consumedInput ≤ (input.drop inputOffset).length) := by
  set rest := input.drop inputOffset with hrest
  have hpos : 0 < rest.length := by
    rw [hrest, length_drop]
    omega
  unfold normalizePrefix
  rw [if_neg (by omega)]
  dsimp only
  rw [← hrest, h0, if_neg (lt_irrefl 0)]
  rcases m.longestPrefix_spec rest with ⟨hne, hl, e, he⟩ | ⟨hl, ⟨hun, he⟩ | ⟨k, v, hk, he⟩⟩
  · rw [he]
    exact .inl ⟨⟨hne, .inl hl⟩, e, rfl⟩
  · rw [he]
    dsimp only
    rw [if_neg (lt_irrefl 0)]
    have hno : ∀ k v, ¬ m.Longest m.root rest k v := fun k v hk => by
      have := hun k hk.pos hk.le
      rw [hk.value] at this
      cases this
    have hsound : ¬ m.Damaged rest := by
      rintro ⟨hne, hx | ⟨k, v, hk, -⟩⟩
      · exact hl.elim hne fun h => h hx
      · exact hno k v hk
    cases hc : cptLength rest with
    | some n =>
      exact .inr ⟨hsound, _, rfl, by simp, fun k v hk => absurd hk (hno k v), fun _ => rfl,
        cptLength_bounds hc⟩
    | none =>
      exact .inr ⟨hsound, _, rfl, by simp, fun k v hk => absurd hk (hno k v), fun _ => rfl,
        Nat.one_pos, hpos⟩
  · rw [he]
    dsimp only
    rw [if_pos hk.pos]
    rcases m.replacementAt_eq v.toNat with ⟨hmem, hr⟩ | ⟨hmem, e, hr⟩
    · rw [hr]
      refine .inr ⟨?_, _, rfl, by simp, fun k' v' hk' => ?_, fun hun => ?_, hk.pos, hk.le⟩
      · rintro ⟨hne, hx | ⟨k', v', hk', hmem'⟩⟩
        · exact hl.elim hne fun h => h hx
        · obtain ⟨rfl, rfl⟩ := hk.unique hk'
          exact hmem' hmem
      · obtain ⟨rfl, rfl⟩ := hk.unique hk'
        rfl
      · have := hun k hk.pos hk.le
        rw [hk.value] at this
        cases this
    · rw [hr]
      refine .inl ⟨⟨fun hnil => ?_, .inr ⟨k, v, hk, hmem⟩⟩, e, rfl⟩
      have := m.unmapped_of_nil hnil m.root rest k hk.pos hk.le
      rw [hk.value] at this
      cases this

/-- Each prefix consumes something. -/
theorem normalizePrefix_consumes (ho : inputOffset < input.length) {r : NormalizationResult}
    (h : normalizePrefix (userDefinedTokenMatcher userDefined) m input inputOffset = .ok r) :
    0 < r.consumedInput := by
  rcases Nat.eq_zero_or_pos
    ((userDefinedTokenMatcher userDefined).longestPrefix (input.drop inputOffset) 0) with h0 | h0
  · rcases normalizePrefix_other (m := m) ho h0 with ⟨-, e, he⟩ | ⟨-, r', hr, -, -, -, hpos, -⟩
    · rw [he] at h
      cases h
    · obtain rfl := Except.ok.inj (hr.symm.trans h)
      exact hpos
  · rw [normalizePrefix_userDefined ho h0] at h
    cases h
    exact h0

theorem normalizeLoop_returns (userDefined : List (List UInt8)) (m : UgmCharsmap)
    (o : NormalizeOptions) (input : List UInt8) (n : Nat) :
    ∀ (inputOffset : Nat) (s : NormalizeState), input.length - inputOffset ≤ n →
      ∃ out, ∀ fuel, n ≤ fuel →
        normalizeLoop (userDefinedTokenMatcher userDefined) m o input fuel inputOffset s =
          some out := by
  induction n with
  | zero =>
    intro inputOffset s hn
    refine ⟨.ok s, fun fuel _ => ?_⟩
    unfold normalizeLoop
    rw [if_neg (by omega)]
  | succ n ih =>
    intro inputOffset s hn
    by_cases ho : inputOffset < input.length
    · cases hr : normalizePrefix (userDefinedTokenMatcher userDefined) m input inputOffset with
      | error e =>
        refine ⟨.error e, fun fuel hfuel => ?_⟩
        obtain ⟨fuel, rfl⟩ := exists_eq_succ_of_ne_zero (show fuel ≠ 0 by omega)
        unfold normalizeLoop
        rw [if_pos ho, hr]
      | ok r =>
        have hpos := normalizePrefix_consumes ho hr
        obtain ⟨out, hout⟩ := ih (inputOffset + r.consumedInput)
          (r.normalized.foldl (NormalizeState.put o) s) (by omega)
        refine ⟨out, fun fuel hfuel => ?_⟩
        obtain ⟨fuel, rfl⟩ := exists_eq_succ_of_ne_zero (show fuel ≠ 0 by omega)
        unfold normalizeLoop
        rw [if_pos ho, hr]
        exact hout fuel (by omega)
    · refine ⟨.ok s, fun fuel _ => ?_⟩
      unfold normalizeLoop
      rw [if_neg ho]

/-- `normalize` ends after at most as many prefixes as the input has bytes. -/
theorem normalize_returns (userDefined : List (List UInt8)) (m : UgmCharsmap)
    (o : NormalizeOptions) (input : List UInt8) :
    ∃ out, ∀ fuel, input.length ≤ fuel →
      normalize (userDefinedTokenMatcher userDefined) m o fuel input = some out := by
  obtain ⟨out, hout⟩ := normalizeLoop_returns userDefined m o input input.length 0 {} (sub_le ..)
  refine ⟨out.map fun s => if o.treatWhitespaceAsSuffix && o.addSpacePrefix then
    s.normalized ++ o.space else s.normalized, fun fuel hfuel => ?_⟩
  unfold normalize
  rw [hout fuel hfuel]
  rfl

/-- `normalize_prefix` is right, always consumes something, and `normalize` ends, exactly if the
longest prefix of the input that some user-defined token begins with is such a token, and the
character map is not damaged where it is used. -/
theorem normalizePrefix_right_iff (hne : ∀ t ∈ userDefined, t ≠ []) (m : UgmCharsmap)
    {input : List UInt8} {inputOffset : Nat} (ho : inputOffset < input.length) :
    ((∃ r, normalizePrefix (userDefinedTokenMatcher userDefined) m input inputOffset = .ok r ∧
        NormalizedRight userDefined m (input.drop inputOffset) r) ∧
      (∀ r, normalizePrefix (userDefinedTokenMatcher userDefined) m input inputOffset = .ok r →
        0 < r.consumedInput) ∧
      ∀ o, ∃ out, ∀ fuel, input.length ≤ fuel →
        normalize (userDefinedTokenMatcher userDefined) m o fuel input = some out) ↔
      LongestIsToken userDefined (input.drop inputOffset) ∧
        (¬ BeginsToken userDefined ((input.drop inputOffset).take 1) →
          ¬ m.Damaged (input.drop inputOffset)) := by
  have hrest : 0 < (input.drop inputOffset).length := by
    rw [length_drop]
    omega
  rw [and_iff_left ⟨fun r => normalizePrefix_consumes ho, fun o => normalize_returns _ m o input⟩]
  rcases Nat.eq_zero_or_pos
    ((userDefinedTokenMatcher userDefined).longestPrefix (input.drop inputOffset) 0) with h0 | h0
  · -- no user-defined token begins like the input
    have hno : ∀ n, 0 < n → n ≤ (input.drop inputOffset).length →
        ¬ BeginsToken userDefined ((input.drop inputOffset).take n) := fun n hn hl hb => by
      have := (le_userDefined hl hn).mpr hb
      omega
    have hlongest : LongestIsToken userDefined (input.drop inputOffset) :=
      fun n hn hl hb => absurd hb (hno n hn hl)
    have hprefix : ¬ ∃ t ∈ userDefined, t <+: input.drop inputOffset := by
      rintro ⟨t, ht, hp⟩
      exact hno _ (length_pos_iff.mpr (hne t ht)) hp.length_le (beginsToken_of_isPrefix ht hp)
    rw [and_iff_right hlongest, imp_iff_right (hno 1 Nat.one_pos hrest)]
    rcases normalizePrefix_other (m := m) ho h0 with ⟨hd, e, he⟩ |
      ⟨hd, r, hr, hs, hrep, hcpt, hcons⟩
    · refine iff_of_false ?_ (not_not.mpr hd)
      rintro ⟨r, hr, -⟩
      rw [he] at hr
      cases hr
    · exact iff_of_true ⟨r, hr, ⟨iff_of_false hs hprefix, fun h => absurd h hs, fun _ => hrep,
        fun _ => hcpt, hcons⟩⟩ hd
  · have hbegins : BeginsToken userDefined ((input.drop inputOffset).take 1) :=
      (le_userDefined hrest Nat.one_pos).mp h0
    have hr := normalizePrefix_userDefined (m := m) ho h0
    have hright := right_of_userDefined (m := m) h0
    rw [and_iff_left fun h => absurd hbegins h, longestIsToken_iff h0]
    constructor
    · rintro ⟨r, hr', h⟩
      obtain rfl := Except.ok.inj (hr.symm.trans hr')
      exact hright.mp h
    · exact fun h => ⟨_, hr, hright.mpr h⟩

/-- The tokens `ab` and `abc`; the input goes on behind the second. -/
theorem normalizePrefix_right_abc :
    (∃ r, normalizePrefix (userDefinedTokenMatcher [[97, 98], [97, 98, 99]]) {}
        [97, 98, 99, 100] 0 = .ok r ∧
      NormalizedRight [[97, 98], [97, 98, 99]] {} [97, 98, 99, 100] r) ∧
    (∀ r, normalizePrefix (userDefinedTokenMatcher [[97, 98], [97, 98, 99]]) {}
        [97, 98, 99, 100] 0 = .ok r → 0 < r.consumedInput) ∧
    ∀ o, ∃ out, ∀ fuel, 4 ≤ fuel →
      normalize (userDefinedTokenMatcher [[97, 98], [97, 98, 99]]) {} o fuel
        [97, 98, 99, 100] = some out := by
  exact (normalizePrefix_right_iff (by simp) {} (by simp)).mpr
    ⟨(longestIsToken_iff (by decide)).mpr (by decide), fun _ hd => hd.1 rfl⟩

/-- The token `abc` and the input `abd`: the bytes `ab` pass as user-defined. -/
theorem normalizePrefix_not_right :
    ¬ ∀ (userDefined : List (List UInt8)) (m : UgmCharsmap) (input : List UInt8)
      (inputOffset : Nat), (∀ t ∈ userDefined, t ≠ []) → inputOffset < input.length →
      ∃ r, normalizePrefix (userDefinedTokenMatcher userDefined) m input inputOffset = .ok r ∧
        NormalizedRight userDefined m (input.drop inputOffset) r := by
  intro h
  obtain ⟨r, hr, h⟩ := h [[97, 98, 99]] {} [97, 98, 100] 0 (by simp) (by simp)
  have hrun : normalizePrefix (userDefinedTokenMatcher [[97, 98, 99]]) {} [97, 98, 100] 0 =
    .ok ⟨.userDefined, [97, 98], 2⟩ := rfl
  obtain rfl := Except.ok.inj (hrun.symm.trans hr)
  have := (h.longest rfl).2.1
  simp at this

end

end BeeLlama
