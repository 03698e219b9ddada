import BeeLlama.Gguf.ContextRun
import BeeLlama.Gguf.File

/-!
# Model files: a pair in the file

A pair that is written is read again, with 0 and 1 for the bytes of a `bool` (`reads_kv`), if its
strings and its array are not longer than a reader accepts (`KvFits`).
-/

namespace BeeLlama.Gguf

open ByteReader List

/-- The strings and the array of the pair are not too long for a reader. -/
structure KvFits (kv : GgufKv) : Prop where
  key : kv.key.length ≤ maxLength
  array : kv.isArray → ∀ ne ∈ kv.getNe, ne ≤ maxLength
  strings : ∀ s ∈ kv.dataString, s.length ≤ maxLength

instance (kv : GgufKv) : Decidable (KvFits kv) :=
  decidable_of_iff (kv.key.length ≤ maxLength ∧ (kv.isArray → ∀ ne ∈ kv.getNe, ne ≤ maxLength) ∧
    ∀ s ∈ kv.dataString, s.length ≤ maxLength)
    ⟨fun h => ⟨h.1, h.2.1, h.2.2⟩, fun h => ⟨h.key, h.array, h.strings⟩⟩

/-- What is written for a value that has a size. -/
def fixedBytes (type : GgufType) (data : List UInt8) : List UInt8 :=
  if type = .bool then data.map boolByte else data

/-- The pair that is read. -/
def GgufKv.reread (kv : GgufKv) : GgufKv := { kv with data := fixedBytes kv.type kv.data }

/-- The bytes of a pair. -/
def kvBytes (kv : GgufKv) : List UInt8 := (writeKv kv).getD []

theorem ofCode_code (type : GgufType) : GgufType.ofCode type.code = some type := by
  cases type <;> rfl

theorem code_lt (type : GgufType) : type.code < 256 ^ 4 := by
  cases type <;> decide

theorem boolByte_boolByte (b : UInt8) : boolByte (boolByte b) = boolByte b := by
  unfold boolByte
  split <;> simp

section Strings

variable {g : Prop}

theorem reads_string {s : Text} (h : s.length ≤ maxLength) :
    Reads g readString (writeString s) s := by
  have hlt : s.length < 256 ^ 8 := Nat.lt_of_le_of_lt h (by decide)
  have hbytes : Reads (s.length ≤ maxLength ∧ g) (do check (s.length ≤ maxLength); bytes s.length)
      s s := (Reads.bytes rfl).check_bind
  exact ((Reads.number hlt).bind hbytes).mono fun ho => ⟨ho, h, ho⟩

theorem reads_strings {l : List Text} (h : ∀ s ∈ l, s.length ≤ maxLength) :
    Reads g (readStrings l.length) (l.flatMap writeString) l := by
  have hloop := Reads.loop (p := fun _ => readString) (e := writeString) (f := id)
    (g := fun _ => g) (l := l) fun pre s post hl =>
      reads_string (h s (hl ▸ mem_append_right _ mem_cons_self))
  rw [map_id] at hloop
  exact hloop.mono fun ho _ _ => ho

theorem length_strings (l : List Text) : l.length * 8 ≤ (l.flatMap writeString).length := by
  induction l with
  | nil => exact Nat.le_refl 0
  | cons s l ih =>
    rw [flatMap_cons, length_append, length_cons, writeString, length_append, length_le]
    omega

end Strings

/-! ## Values -/

section Values

variable {g : Prop}

theorem length_fixedBytes (type : GgufType) (data : List UInt8) :
    (fixedBytes type data).length = data.length := by
  unfold fixedBytes
  split
  · exact length_map _
  · rfl

theorem fixedBytes_fixedBytes (type : GgufType) (data : List UInt8) :
    fixedBytes type (fixedBytes type data) = fixedBytes type data := by
  unfold fixedBytes
  split
  · rw [map_map]
    exact map_congr_left fun b _ => boolByte_boolByte b
  · rfl

variable {type : GgufType} {data : List UInt8}

theorem reads_data {n : Nat} (hlen : data.length = n * type.size) :
    Reads g (readData type n) (fixedBytes type data) (fixedBytes type data) := by
  have hbytes := (Reads.bytes (g := g) ((length_fixedBytes type data).trans hlen)).map
    (f := fixedBytes type)
  rw [fixedBytes_fixedBytes] at hbytes
  exact hbytes

theorem writePayload_fixed {kv : GgufKv} (hsize : kv.type.size ≠ 0) :
    writePayload kv = some (fixedBytes kv.type kv.data) := by
  obtain ⟨key, isArray, type, data, dataString⟩ := kv
  cases type <;> first | rfl | exact absurd rfl hsize

theorem readEmplace_fixed (key : Text) (isArray : Bool) (hsize : type.size ≠ 0) (n : Nat) :
    readEmplace key isArray type n =
      if isArray then do
        check (n ≤ maxLength)
        checkRemain (n * type.size)
        return { key, isArray, type, data := ← readData type n }
      else do return { key, isArray, type, data := ← readData type 1 } := by
  cases type <;> first | rfl | exact absurd rfl hsize

/-- A value that has a size, or an array of such values. -/
theorem reads_emplace_fixed {key : Text} {isArray : Bool} {n : Nat} (hsize : type.size ≠ 0)
    (hlen : data.length = n * type.size)
    (harr : isArray ∨ n = 1) (hn : isArray → n ≤ maxLength) :
    Reads g (readEmplace key isArray type n) (fixedBytes type data)
      { key, isArray, type, data := fixedBytes type data } := by
  rw [readEmplace_fixed key isArray hsize]
  cases isArray with
  | true =>
    have hdata := (reads_data (g := g) hlen).map
      (f := fun data => ({ key, isArray := true, type, data } : GgufKv))
    have hremain : n * type.size ≤ (fixedBytes type data).length := by
      rw [length_fixedBytes, hlen]
    exact (hdata.checkRemain_bind hremain).check_bind.mono fun ho => ⟨hn rfl, ho⟩
  | false =>
    obtain rfl := harr.resolve_left Bool.false_ne_true
    exact (reads_data hlen).map (f := fun data => ({ key, isArray := false, type, data } : GgufKv))

/-- A string, or an array of strings. -/
theorem reads_emplace_string {key : Text} {isArray : Bool} {l : List Text}
    (harr : isArray ∨ l.length = 1) (hn : isArray → l.length ≤ maxLength)
    (hl : ∀ s ∈ l, s.length ≤ maxLength) :
    Reads g (readEmplace key isArray .string l.length) (l.flatMap writeString)
      { key, isArray, type := .string, dataString := l } := by
  cases isArray with
  | true =>
    have hstrings := (reads_strings (g := g) hl).map (f := fun dataString =>
      ({ key, isArray := true, type := .string, dataString } : GgufKv))
    exact (hstrings.checkRemain_bind (length_strings l)).check_bind.mono fun ho => ⟨hn rfl, ho⟩
  | false =>
    obtain ⟨s, rfl⟩ := length_eq_one_iff.mp (harr.resolve_left Bool.false_ne_true)
    have hstring := (reads_string (g := g) (hl s mem_cons_self)).map (f := fun s =>
      ({ key, isArray := false, type := .string, dataString := [s] } : GgufKv))
    rw [flatMap_singleton]
    exact hstring

end Values

/-! ## Pairs -/

section Pairs

variable {g : Prop} {kv : GgufKv}

/-- The value of a pair, as it is written and read. -/
theorem reads_value (h : KvOk kv) (hfits : KvFits kv) :
    ∃ ne payload, kv.getNe = some ne ∧ writePayload kv = some payload ∧
      (kv.isArray ∨ ne = 1) ∧ (kv.isArray → ne ≤ maxLength) ∧
      Reads g (readEmplace kv.key kv.isArray kv.type ne) payload kv.reread := by
  obtain ⟨key, isArray, type, data, dataString⟩ := kv
  rcases h.value with ⟨rfl, rfl, harr⟩ | ⟨hsize, rfl, n, hlen, harr⟩
  · have hne : GgufKv.getNe ⟨key, isArray, .string, [], dataString⟩ = some dataString.length :=
      if_pos harr
    have hn : isArray → dataString.length ≤ maxLength := fun ha => hfits.array ha _ hne
    exact ⟨_, _, hne, rfl, harr, hn, reads_emplace_string harr hn hfits.strings⟩
  · have hne : GgufKv.getNe ⟨key, isArray, type, data, []⟩ = some n := by
      have hstring : type ≠ .string := fun ht => hsize (ht ▸ rfl)
      have hmod : ¬ (type.size = 0 ∨ data.length % type.size ≠ 0) :=
        not_or.mpr ⟨hsize, not_not.mpr (hlen ▸ Nat.mul_mod_left n type.size)⟩
      have hdiv : data.length / type.size = n := by
        rw [hlen, Nat.mul_div_cancel n (Nat.pos_of_ne_zero hsize)]
      rw [GgufKv.getNe, if_neg hstring, if_neg hmod, hdiv, if_pos harr]
    have hn : isArray → n ≤ maxLength := fun ha => hfits.array ha n hne
    exact ⟨n, _, hne, writePayload_fixed hsize, harr, hn, reads_emplace_fixed hsize hlen harr hn⟩

theorem readTyped_code (key : Text) (isArray : Bool) (type : GgufType) (n : Nat) :
    readTyped key isArray type.code n = readEmplace key isArray type n := by
  rw [readTyped, ofCode_code]

theorem code_ne_array (h : KvOk kv) : kv.type.code ≠ GgufType.array.code := by
  intro hcode
  have htype : kv.type = .array :=
    Option.some.inj ((ofCode_code kv.type).symm.trans ((congrArg _ hcode).trans (ofCode_code _)))
  rcases h.value with ⟨hs, -⟩ | ⟨hsize, -⟩
  · exact absurd (htype.symm.trans hs) (by decide)
  · exact hsize (htype ▸ rfl)

/-- The type of a pair and its value. -/
theorem reads_typed {key : Text} {isArray : Bool} {type : GgufType} {ne : Nat}
    {payload : List UInt8} {r : GgufKv} (hcode : type.code ≠ GgufType.array.code)
    (harr : isArray ∨ ne = 1) (hn : isArray → ne ≤ maxLength)
    (h : Reads g (readEmplace key isArray type ne) payload r) :
    Reads g
      (do
        let code ← number 4
        if code = GgufType.array.code then do
          let code ← number 4
          readTyped key true code (← number 8)
        else readTyped key false code 1)
      ((if isArray then le 4 GgufType.array.code ++ le 4 type.code ++ le 8 ne
        else le 4 type.code) ++ payload) r := by
  rw [← readTyped_code] at h
  cases isArray with
  | true =>
    have hne : ne < 256 ^ 8 := Nat.lt_of_le_of_lt (hn rfl) (by decide)
    have hcount := (Reads.number (g := g) hne).bind (f := readTyped key true type.code) h
    have htype := (Reads.number (g := g) (code_lt type)).bind
      (f := fun code => do readTyped key true code (← number 8)) hcount
    have hok : g → g ∧ g ∧ g ∧ g := fun ho => ⟨ho, ho, ho, ho⟩
    rw [if_pos rfl, append_assoc, append_assoc]
    refine ((Reads.number (code_lt .array)).bind ?_).mono hok
    rw [if_pos rfl]
    exact htype
  | false =>
    obtain rfl := harr.resolve_left Bool.false_ne_true
    rw [if_neg Bool.false_ne_true]
    have hok : g → g ∧ g := fun ho => ⟨ho, ho⟩
    refine ((Reads.number (code_lt type)).bind ?_).mono hok
    rw [if_neg hcode]
    exact h

/-- A pair is read again after pairs with other keys. -/
theorem reads_kv (h : KvOk kv) (hfits : KvFits kv) {acc : List GgufKv}
    (hacc : ∀ p ∈ acc, p.key ≠ kv.key) :
    writeKv kv = some (kvBytes kv) ∧ Reads g (readKv acc) (kvBytes kv) kv.reread := by
  obtain ⟨ne, payload, hne, hpayload, harr, hn, hvalue⟩ := reads_value (g := g) h hfits
  have hwrite : writeKv kv = some (writeString kv.key ++ ((if kv.isArray then
      le 4 GgufType.array.code ++ le 4 kv.type.code ++ le 8 ne else le 4 kv.type.code) ++
        payload)) := by
    rw [writeKv, hne, hpayload]
    rfl
  rw [kvBytes, hwrite, Option.getD_some]
  have htyped := reads_typed (code_ne_array h) harr hn hvalue
  exact ⟨rfl, ((reads_string hfits.key).bind htyped.check_bind).mono fun ho =>
    ⟨ho, ⟨h.key_ne, hacc⟩, ho⟩⟩

end Pairs

end BeeLlama.Gguf
