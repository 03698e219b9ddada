import BeeLlama.Gguf.Context

/-!
# Model files: writing and reading (`gguf_write_to_buf`, `gguf_init_from_reader`)

The writer returns `none` where the code aborts. The reader returns `none` where the code returns a
null pointer; it loads the data of the tensors, too, and the `ggml_context` that holds them is left
out. A reader gets the bytes that it asks for, as long as they are in the file.
-/

namespace BeeLlama.Gguf

/-! ## Writing -/

/-- A string with its length. -/
def writeString (s : Text) : List UInt8 := le 8 s.length ++ s

/-- `write` of a value or of an array of values. -/
def writePayload (kv : GgufKv) : Option (List UInt8) :=
  match kv.type with
  | .array => none
  | .string => some (kv.dataString.flatMap writeString)
  | .bool => some (kv.data.map boolByte)
  | _ => some kv.data

/-- `write` of a `gguf_kv`. -/
def writeKv (kv : GgufKv) : Option (List UInt8) := do
  let ne ← kv.getNe
  let type :=
    if kv.isArray then le 4 GgufType.array.code ++ le 4 kv.type.code ++ le 8 ne
    else le 4 kv.type.code
  return writeString kv.key ++ (type ++ (← writePayload kv))

/-- The numbers of a shape. -/
def Dims.toList (ne : Dims) : List Nat := [ne.d0, ne.d1, ne.d2, ne.d3]

/-- `write_tensor_meta`. -/
def writeTensorMeta (info : TensorInfo) : List UInt8 :=
  writeString info.t.name.val.val ++ (le 4 (nDims info.t.ne) ++
    ((info.t.ne.toList.take (nDims info.t.ne)).flatMap (le 8) ++
      (le 4 info.t.type ++ le 8 info.offset)))

/-- What `pad` writes. -/
def padding (writtenBytes alignment : Nat) : List UInt8 :=
  List.replicate (pad writtenBytes alignment - writtenBytes) 0

/-- `GGUF_MAGIC`. -/
def magic : List UInt8 := "GGUF".toByteArray.data.toList

section Write

variable (T : Traits)

/-- `write_tensor_data`. -/
def writeTensorData (offsetData alignment : Nat) (buf : List UInt8) (info : TensorInfo) :
    Option (List UInt8) :=
  if buf.length - offsetData = info.offset ∧ T.isContiguous info.t then
    match info.t.data with
    | none => none
    | some data =>
      let nbytes := T.nbytes info.t
      if nbytes ≤ data.length then
        let buf := buf ++ data.take nbytes
        some (buf ++ padding buf.length alignment)
      else none
  else none

/-- `gguf_write_to_buf` of everything to an empty buffer. -/
def writeToBuf (ctx : GgufContext) : Option (List UInt8) := do
  let kvs ← ctx.kv.mapM writeKv
  let buf := magic ++ (le 4 ctx.version ++ (le 8 ctx.info.length ++ (le 8 ctx.kv.length ++
    (kvs.flatten ++ ctx.info.flatMap writeTensorMeta))))
  let buf := buf ++ padding buf.length ctx.alignment
  ctx.info.foldlM (writeTensorData T buf.length ctx.alignment) buf

end Write

/-! ## Reading -/

open ByteReader

/-- `SIZE_MAX`. -/
abbrev sizeMax : Nat := 2 ^ 64 - 1

/-- `GGUF_MAX_STRING_LENGTH` and `GGUF_MAX_ARRAY_ELEMENTS`. -/
abbrev maxLength : Nat := 2 ^ 30

/-- `read` of a string. -/
def readString : ByteReader Text := do
  let size ← number 8
  check (size ≤ maxLength)
  bytes size

/-- `read` of the elements of an array, or of one value. -/
def readData (type : GgufType) (n : Nat) : ByteReader (List UInt8) := do
  let data ← bytes (n * type.size)
  return if type = .bool then data.map boolByte else data

/-- `read` of the strings of an array. -/
def readStrings (n : Nat) : ByteReader (List Text) := loop (fun _ => readString) n []

/-- `gguf_read_emplace_helper`. -/
def readEmplace (key : Text) (isArray : Bool) (type : GgufType) (n : Nat) : ByteReader GgufKv :=
  match type with
  | .array => failure
  | .string =>
    if isArray then do
      check (n ≤ maxLength)
      checkRemain (n * 8)
      return { key, isArray, type := .string, dataString := ← readStrings n }
    else do return { key, isArray, type := .string, dataString := [← readString] }
  | type =>
    if isArray then do
      check (n ≤ maxLength)
      checkRemain (n * type.size)
      return { key, isArray, type, data := ← readData type n }
    else do return { key, isArray, type, data := ← readData type 1 }

/-- The values of a type that is given by its number. -/
def readTyped (key : Text) (isArray : Bool) (code n : Nat) : ByteReader GgufKv :=
  match GgufType.ofCode code with
  | none => failure
  | some type => readEmplace key isArray type n

/-- A pair, after the pairs that were read. -/
def readKv (kv : List GgufKv) : ByteReader GgufKv := do
  let key ← readString
  check (key ≠ [] ∧ ∀ p ∈ kv, p.key ≠ key)
  let code ← number 4
  if code = GgufType.array.code then do
    let code ← number 4
    readTyped key true code (← number 8)
  else readTyped key false code 1

/-- The alignment that the keys give. -/
def readAlignment (kv : List GgufKv) : Option Nat :=
  match kv.find? fun p => cStr p.key = cStr alignmentKey with
  | none => some 32
  | some p =>
    if p.isArray ∨ p.type ≠ .uint32 then none
    else
      let alignment := ofLe p.data
      if alignment = 0 ∨ alignment &&& (alignment - 1) ≠ 0 then none else some alignment

/-- `ggml_set_name`. -/
def setName (name : Text) : TensorName :=
  ⟨⟨(cStr name).val.take 63, fun h => (cStr name).property (List.mem_of_mem_take h)⟩, by
    rw [List.length_take]
    omega⟩

/-- A number of a shape. -/
def readDim (nDims j : Nat) : ByteReader Nat := do
  let ne ← if j < nDims then number 8 else return 1
  check (ne < 2 ^ 63)
  return ne

/-- The number of elements can be represented. -/
def ElementsFit (ne : Dims) : Prop :=
  nelements ne > 0 → ¬ ((2 ^ 63 - 1) / ne.d1 ≤ ne.d0 ∨ (2 ^ 63 - 1) / ne.d2 ≤ ne.d0 * ne.d1 ∨
    (2 ^ 63 - 1) / ne.d3 ≤ ne.d0 * ne.d1 * ne.d2)

instance (ne : Dims) : Decidable (ElementsFit ne) := inferInstanceAs (Decidable (_ → _))

section Read

variable (T : Traits)

/-- The type is one of `ggml_type`, and the shape can have it. -/
def TypeFits (type : Nat) (ne : Dims) : Prop :=
  type < T.typeCount ∧ T.blckSize type ≠ 0 ∧ ne.d0 % T.blckSize type = 0 ∧
    nelements ne / T.blckSize type ≤ sizeMax / T.typeSize type

instance (type : Nat) (ne : Dims) : Decidable (TypeFits T type ne) :=
  inferInstanceAs (Decidable (_ ∧ _))

/-- The info of a tensor, after those that were read. -/
def readTensorInfo (info : List TensorInfo) : ByteReader TensorInfo := do
  let name ← readString
  check (name.length < 64)
  let name := setName name
  check (∀ ti ∈ info, ti.t.name ≠ name)
  let nDims ← number 4
  check (nDims ≤ 4)
  let d0 ← readDim nDims 0
  let d1 ← readDim nDims 1
  let d2 ← readDim nDims 2
  let d3 ← readDim nDims 3
  let ne : Dims := ⟨d0, d1, d2, d3⟩
  check (ElementsFit ne)
  let type ← number 4
  check (TypeFits T type ne)
  let offset ← number 8
  return { t := { name, type, ne, nb := T.strides type ne }, offset }

/-- The header, the pairs and the infos. -/
def readMeta : ByteReader GgufContext := do
  let magic' ← bytes 4
  check (magic' = magic)
  let version ← number 4
  check (version ≠ 0 ∧ version % 2 ^ 16 ≠ 0 ∧ version ≠ 1 ∧ version ≤ 3)
  let nTensors ← number 8
  check (nTensors < 2 ^ 63 ∧ nTensors ≤ sizeMax / T.sizeofInfo)
  let nKv ← number 8
  check (nKv < 2 ^ 63 ∧ nKv ≤ sizeMax / T.sizeofKv)
  let kv ← loop readKv nKv []
  match readAlignment kv with
  | none => failure
  | some alignment =>
    let info ← loop (readTensorInfo T) nTensors []
    return { version, kv, info, alignment }

/-- `seek`. -/
def seek (offset : Nat) : ByteReader Unit := fun s =>
  if offset ≤ s.offset + s.rest.length then
    some ((), ⟨offset, s.rest.drop (offset - s.offset)⟩)
  else none

/-- `tell`. -/
def tell : ByteReader Nat := fun s => some (s.offset, s)

/-- The size of the data section. -/
def dataSize (alignment : Nat) : List TensorInfo → Nat → Option Nat
  | [], size => some size
  | ti :: info, size =>
    if ti.offset ≠ size then none
    else
      let paddedSize := pad (T.nbytes ti.t) alignment
      if sizeMax - size < paddedSize then none else dataSize alignment info (size + paddedSize)

/-- The data section. -/
def readTensorData (ctx : GgufContext) : ByteReader GgufContext := do
  if ctx.info ≠ [] then seek (pad (← tell) ctx.alignment)
  let offset ← tell
  match dataSize T ctx.alignment ctx.info 0 with
  | none => failure
  | some size => return { ctx with offset, size, data := ← bytes size }

/-- `gguf_init_from_reader` on a file. -/
def initFromReader (file : List UInt8) : Option GgufContext :=
  ((readMeta T >>= readTensorData T).run ⟨0, file⟩).map Prod.fst

end Read

end BeeLlama.Gguf
