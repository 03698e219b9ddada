import BeeLlama.Lib.ByteReader
import BeeLlama.Lib.Run
import Mathlib.Data.List.TakeWhile

/-!
# Model files: the context (`gguf_context`)

The keys with their values, and what is known of the tensors. A call returns `none` where the code
aborts. Sizes and offsets are natural numbers; the strides and the size of a tensor are computed
modulo `2 ^ 64`, as `size_t`.

The bytes of a tensor are those that its pointer or its buffer has when the file is written.
-/

namespace BeeLlama.Gguf

/-- `std::string`. -/
abbrev Text := List UInt8

/-- `const char *`: the bytes before the zero. -/
abbrev CString := { s : Text // (0 : UInt8) ∉ s }

/-- `c_str`, as it is read by the functions that take a `const char *`. -/
def cStr (s : Text) : CString :=
  ⟨s.takeWhile (· ≠ 0), fun h => (by simpa using List.mem_takeWhile_imp h)⟩

/-- `gguf_type`. -/
inductive GgufType where
  | uint8
  | int8
  | uint16
  | int16
  | uint32
  | int32
  | float32
  | bool
  | string
  | array
  | uint64
  | int64
  | float64
  deriving DecidableEq, Repr

/-- The number of the type in a file. -/
def GgufType.code : GgufType → Nat
  | uint8 => 0
  | int8 => 1
  | uint16 => 2
  | int16 => 3
  | uint32 => 4
  | int32 => 5
  | float32 => 6
  | bool => 7
  | string => 8
  | array => 9
  | uint64 => 10
  | int64 => 11
  | float64 => 12

/-- The type of a number. -/
def GgufType.ofCode : Nat → Option GgufType
  | 0 => some uint8
  | 1 => some int8
  | 2 => some uint16
  | 3 => some int16
  | 4 => some uint32
  | 5 => some int32
  | 6 => some float32
  | 7 => some bool
  | 8 => some string
  | 9 => some array
  | 10 => some uint64
  | 11 => some int64
  | 12 => some float64
  | _ => none

/-- `gguf_type_size`. -/
def GgufType.size : GgufType → Nat
  | uint8 | int8 | bool => 1
  | uint16 | int16 => 2
  | uint32 | int32 | float32 => 4
  | uint64 | int64 | float64 => 8
  | string | array => 0

/-- `gguf_kv`. -/
structure GgufKv where
  key : Text
  isArray : Bool
  type : GgufType
  data : List UInt8 := []
  dataString : List Text := []
  deriving DecidableEq, Repr

/-- `get_ne`. -/
def GgufKv.getNe (kv : GgufKv) : Option Nat :=
  if kv.type = .string then
    if kv.isArray ∨ kv.dataString.length = 1 then some kv.dataString.length else none
  else if kv.type.size = 0 ∨ kv.data.length % kv.type.size ≠ 0 then none
  else if kv.isArray ∨ kv.data.length / kv.type.size = 1 then
    some (kv.data.length / kv.type.size)
  else none

/-- A `bool` has the bytes 0 and 1. -/
def boolByte (b : UInt8) : UInt8 := if b ≠ 0 then 1 else 0

/-! ## Tensors -/

/-- The types of tensors: `GGML_TYPE_COUNT`, `ggml_type_size`, `ggml_blck_size`; and the sizes of
`gguf_kv` and `gguf_tensor_info`. -/
structure Traits where
  typeCount : Nat
  typeSize : Nat → Nat
  blckSize : Nat → Nat
  sizeofKv : Nat
  sizeofInfo : Nat
  typeCount_le : typeCount ≤ 2 ^ 31
  two_le_sizeofKv : 2 ≤ sizeofKv
  two_le_sizeofInfo : 2 ≤ sizeofInfo

/-- The four numbers of a shape or of strides. -/
structure Dims where
  d0 : Nat
  d1 : Nat
  d2 : Nat
  d3 : Nat
  deriving DecidableEq, Repr

/-- The name of a tensor, in `char name[GGML_MAX_NAME]`. -/
abbrev TensorName := { s : CString // s.val.length < 64 }

/-- `ggml_tensor`, as far as it is read. -/
structure GgmlTensor where
  name : TensorName
  type : Nat
  ne : Dims
  nb : Dims
  data : Option (List UInt8) := none
  deriving DecidableEq

/-- `ggml_nelements`. -/
def nelements (ne : Dims) : Nat := ne.d0 * ne.d1 * ne.d2 * ne.d3

/-- `ggml_n_dims`. -/
def nDims (ne : Dims) : Nat :=
  if 1 < ne.d3 then 4 else if 1 < ne.d2 then 3 else if 1 < ne.d1 then 2 else 1

/-- `GGML_PAD`, where `n` is a power of two. -/
def pad (x n : Nat) : Nat := (x + n - 1) / n * n

namespace Traits

variable (T : Traits)

/-- `ggml_nbytes`. -/
def nbytes (t : GgmlTensor) : Nat :=
  if t.ne.d0 = 0 ∨ t.ne.d1 = 0 ∨ t.ne.d2 = 0 ∨ t.ne.d3 = 0 then 0
  else
    let rows := (t.ne.d1 - 1) * t.nb.d1 + (t.ne.d2 - 1) * t.nb.d2 + (t.ne.d3 - 1) * t.nb.d3
    if T.blckSize t.type = 1 then
      (T.typeSize t.type + (t.ne.d0 - 1) * t.nb.d0 + rows) % 2 ^ 64
    else (t.ne.d0 * t.nb.d0 % 2 ^ 64 / T.blckSize t.type + rows) % 2 ^ 64

/-- The strides of a tensor without gaps. -/
def strides (type : Nat) (ne : Dims) : Dims :=
  let nb1 := T.typeSize type * (ne.d0 / T.blckSize type) % 2 ^ 64
  let nb2 := nb1 * ne.d1 % 2 ^ 64
  ⟨T.typeSize type, nb1, nb2, nb2 * ne.d2 % 2 ^ 64⟩

/-- `ggml_is_contiguous`. -/
def isContiguous (t : GgmlTensor) : Bool :=
  let nb := T.strides t.type t.ne
  (t.ne.d0 = T.blckSize t.type || t.nb.d0 = nb.d0) && (t.ne.d1 = 1 || t.nb.d1 = nb.d1) &&
    (t.ne.d2 = 1 || t.nb.d2 = nb.d2) && (t.ne.d3 = 1 || t.nb.d3 = nb.d3)

end Traits

/-- `gguf_tensor_info`. -/
structure TensorInfo where
  t : GgmlTensor
  offset : Nat
  deriving DecidableEq

/-- The tensor with other data. -/
def TensorInfo.setData (ti : TensorInfo) (data : Option (List UInt8)) : TensorInfo :=
  { ti with t := { ti.t with data } }

/-- `gguf_context`. -/
structure GgufContext where
  version : Nat := 3
  kv : List GgufKv := []
  info : List TensorInfo := []
  alignment : Nat := 32
  offset : Nat := 0
  size : Nat := 0
  data : List UInt8 := []
  deriving DecidableEq

/-! ## Keys -/

/-- `GGUF_KEY_GENERAL_ALIGNMENT`. -/
def alignmentKey : Text := "general.alignment".toByteArray.data.toList

/-- `gguf_find_key`. -/
def findKey (kv : List GgufKv) (key : CString) : Option Nat :=
  kv.findIdx? fun p => cStr p.key = key

namespace GgufContext

/-- `gguf_remove_key`. -/
def removeKey (ctx : GgufContext) (key : CString) : GgufContext :=
  match findKey ctx.kv key with
  | some keyId => { ctx with kv := ctx.kv.eraseIdx keyId }
  | none => ctx

/-- `gguf_check_reserved_keys`; `val` is the value of type `uint32_t`. -/
def checkReservedKeys (key : Text) (val : Option Nat) : Bool :=
  key ≠ alignmentKey || match val with
    | some val => 0 < val && val &&& (val - 1) = 0
    | none => false

/-- The pair replaces the one with its key. -/
def emplace (ctx : GgufContext) (key : CString) (val : Option Nat) (kv : GgufKv) :
    Option GgufContext :=
  if checkReservedKeys key val ∧ kv.key ≠ [] then
    let ctx := ctx.removeKey key
    some { ctx with kv := ctx.kv ++ [kv] }
  else none

/-- A value that has a size. -/
def setBytes (ctx : GgufContext) (key : CString) (type : GgufType) (bytes : List UInt8) :
    Option GgufContext :=
  ctx.emplace key (if type = .uint32 then some (ofLe bytes) else none)
    { key := key.val, isArray := false, type, data := bytes }

/-- `gguf_set_val_str`. -/
def setValStr (ctx : GgufContext) (key val : CString) : Option GgufContext :=
  ctx.emplace key none
    { key := key.val, isArray := false, type := .string, dataString := [val.val] }

/-- `gguf_set_arr_data`. -/
def setArrData (ctx : GgufContext) (key : CString) (type : GgufType) (data : List UInt8) (n : Nat) :
    Option GgufContext :=
  let tmp := data.take (n * type.size)
  if type.size = 0 ∨ tmp.length ≠ n * type.size then none
  else ctx.emplace key none { key := key.val, isArray := true, type, data := tmp }

/-- `gguf_set_arr_str`. -/
def setArrStr (ctx : GgufContext) (key : CString) (data : List CString) : Option GgufContext :=
  ctx.emplace key none
    { key := key.val, isArray := true, type := .string, dataString := data.map Subtype.val }

/-- The pair of another context is set. -/
def setOne (ctx : GgufContext) (kv : GgufKv) : Option GgufContext :=
  let key := cStr kv.key
  if !kv.isArray then
    match kv.type with
    | .array => none
    | .string =>
      match kv.dataString with
      | [] => none
      | val :: _ => ctx.setValStr key (cStr val)
    | type =>
      if kv.data.length % type.size = 0 ∧ type.size ≤ kv.data.length then
        let val := kv.data.take type.size
        ctx.setBytes key type (if type = .bool then val.map boolByte else val)
      else none
  else
    match kv.getNe with
    | none => none
    | some ne =>
      match kv.type with
      | .array => none
      | .string => ctx.setArrStr key (kv.dataString.map cStr)
      | type => ctx.setArrData key type kv.data ne

/-- `gguf_set_kv`. -/
def setKv (ctx src : GgufContext) : Option GgufContext := src.kv.foldlM setOne ctx

/-! ## Tensors of the context -/

/-- `gguf_find_tensor`. -/
def findTensor (ctx : GgufContext) (name : CString) : Option Nat :=
  ctx.info.findIdx? fun ti => ti.t.name.val = name

variable (T : Traits)

/-- `gguf_add_tensor`. -/
def addTensor (ctx : GgufContext) (tensor : GgmlTensor) : Option GgufContext :=
  match ctx.findTensor tensor.name.val with
  | some _ => none
  | none =>
    let offset := match ctx.info.getLast? with
      | none => 0
      | some ti => ti.offset + pad (T.nbytes ti.t) ctx.alignment
    some { ctx with info := ctx.info ++ [{ t := tensor, offset }] }

/-- The offsets, from the first one on. -/
def updateOffsets (alignment : Nat) : Nat → List TensorInfo → List TensorInfo
  | _, [] => []
  | offset, ti :: info =>
    { ti with offset } :: updateOffsets alignment (offset + pad (T.nbytes ti.t) alignment) info

/-- The tensor of the type, without gaps. -/
def retype (t : GgmlTensor) (type : Nat) : GgmlTensor :=
  { t with type, nb := T.strides type t.ne }

/-- `gguf_set_tensor_type`. -/
def setTensorType (ctx : GgufContext) (name : CString) (type : Nat) : Option GgufContext :=
  match ctx.findTensor name with
  | none => none
  | some tensorId =>
    match ctx.info.drop tensorId with
    | [] => none
    | ti :: info =>
      if T.blckSize type = 0 ∨ ti.t.ne.d0 % T.blckSize type ≠ 0 then none
      else
        some { ctx with
          info := ctx.info.take tensorId ++
            updateOffsets T ctx.alignment ti.offset ({ ti with t := retype T ti.t type } :: info) }

/-- `gguf_set_tensor_data`. -/
def setTensorData (ctx : GgufContext) (name : CString) (data : Option (List UInt8)) :
    Option GgufContext :=
  match ctx.findTensor name with
  | none => none
  | some tensorId =>
    some { ctx with info := ctx.info.modify tensorId fun ti => ti.setData data }

end GgufContext

/-! ## Calls -/

/-- The calls that build a context. The bits of a floating-point number are given. -/
inductive GgufOp where
  | setValU8 (key : CString) (val : UInt8)
  | setValI8 (key : CString) (val : Int8)
  | setValU16 (key : CString) (val : UInt16)
  | setValI16 (key : CString) (val : Int16)
  | setValU32 (key : CString) (val : UInt32)
  | setValI32 (key : CString) (val : Int32)
  | setValF32 (key : CString) (val : UInt32)
  | setValU64 (key : CString) (val : UInt64)
  | setValI64 (key : CString) (val : Int64)
  | setValF64 (key : CString) (val : UInt64)
  | setValBool (key : CString) (val : Bool)
  | setValStr (key val : CString)
  | setArrData (key : CString) (type : GgufType) (data : List UInt8) (n : Nat)
  | setArrStr (key : CString) (data : List CString)
  | removeKey (key : CString)
  | setKv (src : GgufContext)
  | addTensor (tensor : GgmlTensor)
  | setTensorType (name : CString) (type : Nat)
  | setTensorData (name : CString) (data : Option (List UInt8))

/-- The context after a call. -/
def GgufContext.step (T : Traits) (ctx : GgufContext) : GgufOp → Option GgufContext
  | .setValU8 key val => ctx.setBytes key .uint8 (le 1 val.toNat)
  | .setValI8 key val => ctx.setBytes key .int8 (le 1 val.toUInt8.toNat)
  | .setValU16 key val => ctx.setBytes key .uint16 (le 2 val.toNat)
  | .setValI16 key val => ctx.setBytes key .int16 (le 2 val.toUInt16.toNat)
  | .setValU32 key val => ctx.setBytes key .uint32 (le 4 val.toNat)
  | .setValI32 key val => ctx.setBytes key .int32 (le 4 val.toUInt32.toNat)
  | .setValF32 key val => ctx.setBytes key .float32 (le 4 val.toNat)
  | .setValU64 key val => ctx.setBytes key .uint64 (le 8 val.toNat)
  | .setValI64 key val => ctx.setBytes key .int64 (le 8 val.toUInt64.toNat)
  | .setValF64 key val => ctx.setBytes key .float64 (le 8 val.toNat)
  | .setValBool key val => ctx.setBytes key .bool [if val then 1 else 0]
  | .setValStr key val => ctx.setValStr key val
  | .setArrData key type data n => ctx.setArrData key type data n
  | .setArrStr key data => ctx.setArrStr key data
  | .removeKey key => some (ctx.removeKey key)
  | .setKv src => ctx.setKv src
  | .addTensor tensor => ctx.addTensor T tensor
  | .setTensorType name type => ctx.setTensorType T name type
  | .setTensorData name data => ctx.setTensorData name data

/-- The runs from `gguf_init_empty`. The context that `gguf_set_kv` reads was built so, too. -/
def ggufSys (T : Traits) : Sys GgufContext GgufOp where
  init ctx := ctx = {}
  step ctx op ctx' := ctx.step T op = some ctx'
  sources
    | .setKv src => {src}
    | _ => ∅

end BeeLlama.Gguf
