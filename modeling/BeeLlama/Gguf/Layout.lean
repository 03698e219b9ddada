import BeeLlama.Gguf.InfoFile

/-!
# Model files: what is written

The file of a context is its infos, zeros up to the alignment of the context, and the data of the
tensors, each rounded up.

* `writeToBuf_eq`: the file.
* `drop_dataBytes`: the bytes of every tensor are where its info says.
-/

namespace BeeLlama.Gguf

open ByteReader List Option

/-! ## Padding -/

section Pad

variable {n : Nat}

theorem dvd_pad (x n : Nat) : n ∣ pad x n := Nat.dvd_mul_left n _

theorem le_pad (hn : 0 < n) (x : Nat) : x ≤ pad x n := by
  have hdiv := Nat.div_add_mod (x + n - 1) n
  have hmod := Nat.mod_lt (x + n - 1) hn
  rw [pad, Nat.mul_comm]
  omega

theorem pad_le (hn : 0 < n) {x m : Nat} (hx : x ≤ m) (hm : n ∣ m) : pad x n ≤ m := by
  obtain ⟨k, rfl⟩ := hm
  rw [pad, Nat.mul_comm n k]
  refine Nat.mul_le_mul_right n (Nat.le_of_lt_succ ?_)
  rw [Nat.div_lt_iff_lt_mul hn, Nat.succ_mul, Nat.mul_comm k n]
  omega

theorem pad_add (hn : 0 < n) {a : Nat} (ha : n ∣ a) (x : Nat) : pad (a + x) n = a + pad x n := by
  obtain ⟨k, rfl⟩ := ha
  have hadd : n * k + x + n - 1 = (x + n - 1) + n * k := by omega
  rw [pad, pad, hadd, Nat.add_mul_div_left _ _ hn, Nat.add_mul, Nat.mul_comm n k, Nat.add_comm]

end Pad

/-! ## The file -/

section File

variable (T : Traits)

/-- Every tensor is contiguous and has data. -/
def Writable (ctx : GgufContext) : Prop :=
  ∀ ti ∈ ctx.info, T.isContiguous ti.t ∧ ∃ data, ti.t.data = some data ∧ T.nbytes ti.t ≤ data.length

instance (ctx : GgufContext) : Decidable (Writable T ctx) :=
  decidable_of_iff (∀ ti ∈ ctx.info, T.isContiguous ti.t ∧ ∃ data ∈ ti.t.data,
    T.nbytes ti.t ≤ data.length) Iff.rfl

/-- The bytes of a tensor. -/
def tensorBytes (t : GgmlTensor) : List UInt8 := (t.data.getD []).take (T.nbytes t)

/-- The bytes of a tensor and the zeros after them. -/
def tensorBlock (t : GgmlTensor) : List UInt8 :=
  tensorBytes T t ++ List.replicate (pad (T.nbytes t) 32 - T.nbytes t) 0

/-- The header, the pairs and the infos. -/
def metaBytes (ctx : GgufContext) : List UInt8 :=
  magic ++ (le 4 3 ++ (le 8 ctx.info.length ++ (le 8 ctx.kv.length ++
    (ctx.kv.flatMap kvBytes ++ ctx.info.flatMap writeTensorMeta))))

/-- The data of the tensors. -/
def dataBytes (info : List TensorInfo) : List UInt8 := info.flatMap fun ti => tensorBlock T ti.t

/-- The file. -/
def fileBytes (ctx : GgufContext) : List UInt8 :=
  metaBytes ctx ++ (padding (metaBytes ctx).length 32 ++ dataBytes T ctx.info)

variable {T} {ctx : GgufContext}

variable {data : List UInt8} {buf : List UInt8} {ti : TensorInfo} {info : List TensorInfo}

theorem length_tensorBytes {t : GgmlTensor} (hdata : t.data = some data)
    (hlen : T.nbytes t ≤ data.length) : (tensorBytes T t).length = T.nbytes t := by
  rw [tensorBytes, hdata, getD_some, length_take, Nat.min_eq_left hlen]

theorem length_tensorBlock {t : GgmlTensor} (hdata : t.data = some data)
    (hlen : T.nbytes t ≤ data.length) : (tensorBlock T t).length = pad (T.nbytes t) 32 := by
  have := le_pad (n := 32) (by decide) (T.nbytes t)
  rw [tensorBlock, length_append, length_tensorBytes hdata hlen, length_replicate]
  omega

theorem length_padding {n : Nat} (hn : 0 < n) (x : Nat) : x + (padding x n).length = pad x n := by
  have := le_pad hn x
  rw [padding, length_replicate]
  omega

/-- A tensor is written where its info says. -/
theorem writeTensorData_eq {offsetData offset : Nat} (hbuf : buf.length = offsetData + offset)
    (hdvd : 32 ∣ offsetData + offset)
    (hoffset : ti.offset = offset) (hcont : T.isContiguous ti.t) (hdata : ti.t.data = some data)
    (hlen : T.nbytes ti.t ≤ data.length) :
    writeTensorData T offsetData 32 buf ti = some (buf ++ tensorBlock T ti.t) := by
  have hat : buf.length - offsetData = ti.offset ∧ T.isContiguous ti.t :=
    ⟨by omega, hcont⟩
  rw [writeTensorData, if_pos hat, hdata]
  dsimp only
  rw [if_pos hlen]
  have hpad : pad (buf ++ data.take (T.nbytes ti.t)).length 32 - (buf ++ data.take
      (T.nbytes ti.t)).length = pad (T.nbytes ti.t) 32 - T.nbytes ti.t := by
    rw [length_append, length_take, Nat.min_eq_left hlen, hbuf,
      pad_add (by decide) hdvd, Nat.add_sub_add_left]
  rw [padding, hpad, tensorBlock, tensorBytes, hdata, getD_some, append_assoc]

/-- The tensors are written one after the other. -/
theorem writeTensors_eq {offsetData offset : Nat}
    (hbuf : buf.length = offsetData + offset) (hdvd : 32 ∣ offsetData + offset)
    (hplaced : Placed T offset info)
    (hw : ∀ ti ∈ info, T.isContiguous ti.t ∧ ∃ data, ti.t.data = some data ∧
      T.nbytes ti.t ≤ data.length) :
    info.foldlM (writeTensorData T offsetData 32) buf = some (buf ++ dataBytes T info) := by
  induction info generalizing buf offset with
  | nil => exact congrArg some (append_nil buf).symm
  | cons ti info ih =>
    obtain ⟨hcont, data, hdata, hlen⟩ := hw ti mem_cons_self
    have hnext : offsetData + (offset + pad (T.nbytes ti.t) 32) =
        offsetData + offset + pad (T.nbytes ti.t) 32 := (Nat.add_assoc _ _ _).symm
    have hbuf' : (buf ++ tensorBlock T ti.t).length =
        offsetData + (offset + pad (T.nbytes ti.t) 32) := by
      rw [length_append, length_tensorBlock hdata hlen, hbuf, hnext]
    have ih := ih hbuf' (hnext ▸ Nat.dvd_add hdvd (dvd_pad _ _)) hplaced.2
      fun tj htj => hw tj (mem_cons_of_mem ti htj)
    rw [foldlM_cons, writeTensorData_eq hbuf hdvd hplaced.1 hcont hdata hlen]
    refine ih.trans (congrArg some ?_)
    rw [append_assoc]
    rfl

theorem length_dataBytes (hw : ∀ ti ∈ info, T.isContiguous ti.t ∧ ∃ data, ti.t.data = some data ∧
      T.nbytes ti.t ≤ data.length) : (dataBytes T info).length = endOffset T 0 info := by
  rw [endOffset, Nat.zero_add, dataBytes, length_flatMap]
  refine congrArg List.sum (map_congr_left fun ti hti => ?_)
  obtain ⟨-, data, hdata, hlen⟩ := hw ti hti
  exact length_tensorBlock hdata hlen

/-- The bytes of a tensor are where its info says. -/
theorem drop_dataBytes (hplaced : Placed T 0 info)
    (hw : ∀ ti ∈ info, T.isContiguous ti.t ∧ ∃ data, ti.t.data = some data ∧
      T.nbytes ti.t ≤ data.length) (hti : ti ∈ info) :
    ((dataBytes T info).drop ti.offset).take (T.nbytes ti.t) = tensorBytes T ti.t := by
  obtain ⟨-, data, hdata, hlen⟩ := hw ti hti
  obtain ⟨before, after, rfl⟩ := append_of_mem hti
  obtain ⟨-, hoffset, -⟩ := placed_append.mp hplaced
  have hbefore : (dataBytes T before).length = ti.offset :=
    (length_dataBytes fun tj htj => hw tj (mem_append_left _ htj)).trans hoffset.symm
  have hsplit : dataBytes T (before ++ ti :: after) =
      dataBytes T before ++ (tensorBytes T ti.t ++ (List.replicate (pad (T.nbytes ti.t) 32 -
        T.nbytes ti.t) 0 ++ dataBytes T after)) := by
    rw [dataBytes, flatMap_append, flatMap_cons, tensorBlock, append_assoc]
    rfl
  rw [hsplit, drop_left' hbefore, take_left' (length_tensorBytes hdata hlen)]

theorem mapM_writeKv {kv : List GgufKv} (h : ∀ p ∈ kv, writeKv p = some (kvBytes p)) :
    kv.mapM writeKv = some (kv.map kvBytes) := by
  induction kv with
  | nil => rfl
  | cons p kv ih =>
    rw [mapM_cons, h p mem_cons_self, ih fun q hq => h q (mem_cons_of_mem p hq)]
    rfl

/-- The file of a context. -/
theorem writeToBuf_eq (hinv : CtxInv T ctx) (hkv : ∀ p ∈ ctx.kv, KvFits p)
    (hw : Writable T ctx) : writeToBuf T ctx = some (fileBytes T ctx) := by
  have hkvs := mapM_writeKv fun p hp =>
    (reads_kv (g := True) (hinv.kv p hp) (hkv p hp) (forall_mem_nil _)).1
  have hlen : (metaBytes ctx ++ padding (metaBytes ctx).length 32).length =
      pad (metaBytes ctx).length 32 := by
    rw [length_append, length_padding (by decide)]
  have htensors : ∀ buf : List UInt8, 32 ∣ buf.length →
      ctx.info.foldlM (writeTensorData T buf.length 32) buf = some (buf ++ dataBytes T ctx.info) :=
    fun buf hdvd => writeTensors_eq (Nat.add_zero buf.length).symm hdvd hinv.placed hw
  have hdvd : 32 ∣ (metaBytes ctx ++ padding (metaBytes ctx).length 32).length := by
    rw [hlen]
    exact dvd_pad _ _
  rw [fileBytes, ← append_assoc, ← htensors _ hdvd]
  simp only [writeToBuf, hkvs, bind_eq_bind, bind_some, hinv.alignment, hinv.version,
    ← flatMap_def, metaBytes]

end File

end BeeLlama.Gguf
