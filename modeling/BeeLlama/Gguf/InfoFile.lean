import BeeLlama.Gguf.KvFile

/-!
# Model files: the infos of the tensors in the file

The info of a tensor is read again, but for the numbers of the shape after the last one that is
greater than 1: these are not written, and are 1 for the reader (`Dims.reread`).
-/

namespace BeeLlama.Gguf

open ByteReader List

/-- The shape that is read. -/
def Dims.reread (ne : Dims) : Dims where
  d0 := ne.d0
  d1 := if 1 < nDims ne then ne.d1 else 1
  d2 := if 2 < nDims ne then ne.d2 else 1
  d3 := if 3 < nDims ne then ne.d3 else 1

/-- The info that is read. -/
def TensorInfo.reread (T : Traits) (ti : TensorInfo) : TensorInfo where
  t := {
    name := ti.t.name
    type := ti.t.type
    ne := ti.t.ne.reread
    nb := T.strides ti.t.type ti.t.ne.reread }
  offset := ti.offset % 2 ^ 64

/-- After the first number, a 0 is followed by a number that is greater than 1. -/
def NoLateZero (ne : Dims) : Prop :=
  (ne.d1 = 0 → 1 < ne.d2 ∨ 1 < ne.d3) ∧ (ne.d2 = 0 → 1 < ne.d3) ∧ ne.d3 ≠ 0

instance (ne : Dims) : Decidable (NoLateZero ne) := inferInstanceAs (Decidable (_ ∧ _))

theorem Dims.reread_eq_iff (ne : Dims) : ne.reread = ne ↔ NoLateZero ne := by
  obtain ⟨d0, d1, d2, d3⟩ := ne
  by_cases h3 : 1 < d3
  · simp [Dims.reread, NoLateZero, nDims, h3]
    omega
  by_cases h2 : 1 < d2
  · simp [Dims.reread, NoLateZero, nDims, h3, h2]
    omega
  by_cases h1 : 1 < d1
  · simp [Dims.reread, NoLateZero, nDims, h3, h2, h1]
    omega
  · simp [Dims.reread, NoLateZero, nDims, h3, h2, h1]
    omega

theorem nDims_le (ne : Dims) : nDims ne ≤ 4 := by
  unfold nDims
  split_ifs <;> decide

theorem nDims_pos (ne : Dims) : 0 < nDims ne := by
  unfold nDims
  split_ifs <;> decide

theorem setName_eq (name : TensorName) : setName name.val.val = name := by
  refine Subtype.ext (Subtype.ext ?_)
  have hlen : (cStr name.val.val).val.length ≤ 63 := by
    rw [cStr_eq]
    exact Nat.le_of_lt_succ name.property
  exact (take_of_length_le hlen).trans (congrArg Subtype.val (cStr_eq name.val))

section Infos

variable {T : Traits} {g : Prop}

/-- The bytes of a number of the shape. -/
def dimBytes (n j d : Nat) : List UInt8 := if j < n then le 8 d else []

theorem flatMap_dims (ne : Dims) : (ne.toList.take (nDims ne)).flatMap (le 8) =
      dimBytes (nDims ne) 0 ne.d0 ++ (dimBytes (nDims ne) 1 ne.d1 ++
        (dimBytes (nDims ne) 2 ne.d2 ++ dimBytes (nDims ne) 3 ne.d3)) := by
  unfold nDims
  split_ifs <;> simp [Dims.toList, dimBytes]

theorem reads_dim {n j d : Nat} (hd : d < 2 ^ 63) :
    Reads g (readDim n j) (dimBytes n j d) (if j < n then d else 1) := by
  unfold readDim dimBytes
  split
  · have hlt : d < 256 ^ 8 := Nat.lt_trans hd (by decide)
    have hcheck : Reads (d < 2 ^ 63 ∧ g) (do check (d < 2 ^ 63); return d) [] d :=
      Reads.pure.check_bind
    rw [← append_nil (le 8 d)]
    exact ((Reads.number hlt).bind hcheck).mono fun ho => ⟨ho, hd, ho⟩
  · have hcheck : Reads (1 < 2 ^ 63 ∧ g) (do check (1 < 2 ^ 63); return 1) [] 1 :=
      Reads.pure.check_bind
    rw [← append_nil []]
    exact ((Reads.pure (g := g)).bind hcheck).mono fun ho => ⟨ho, by decide, ho⟩

/-- The numbers of the shape are `int64_t`, and the type is one of `ggml_type`. -/
structure InfoBounds (T : Traits) (t : GgmlTensor) : Prop where
  d0 : t.ne.d0 < 2 ^ 63
  d1 : t.ne.d1 < 2 ^ 63
  d2 : t.ne.d2 < 2 ^ 63
  d3 : t.ne.d3 < 2 ^ 63
  type : t.type < T.typeCount

instance (T : Traits) (t : GgmlTensor) : Decidable (InfoBounds T t) :=
  decidable_of_iff (t.ne.d0 < 2 ^ 63 ∧ t.ne.d1 < 2 ^ 63 ∧ t.ne.d2 < 2 ^ 63 ∧ t.ne.d3 < 2 ^ 63 ∧
    t.type < T.typeCount)
    ⟨fun h => ⟨h.1, h.2.1, h.2.2.1, h.2.2.2.1, h.2.2.2.2⟩,
      fun h => ⟨h.d0, h.d1, h.d2, h.d3, h.type⟩⟩

/-- An info is read after infos of tensors with other names, if its shape is one for a reader. -/
theorem reads_tensorInfo {ti : TensorInfo} (h : InfoBounds T ti.t) {acc : List TensorInfo}
    (hacc : ∀ tj ∈ acc, tj.t.name ≠ ti.t.name) :
    Reads (ElementsFit ti.t.ne.reread ∧ TypeFits T ti.t.type ti.t.ne.reread)
      (readTensorInfo T acc) (writeTensorMeta ti) (ti.reread T) := by
  have hname : ti.t.name.val.val.length ≤ maxLength :=
    Nat.le_trans (Nat.le_of_lt ti.t.name.property) (by decide)
  have hdims : nDims ti.t.ne < 256 ^ 4 := Nat.lt_of_le_of_lt (nDims_le _) (by decide)
  have htype : ti.t.type < 256 ^ 4 :=
    Nat.lt_of_lt_of_le h.type (Nat.le_trans T.typeCount_le (by decide))
  unfold readTensorInfo writeTensorMeta
  rw [flatMap_dims, append_assoc, append_assoc, append_assoc]
  have hd0 := reads_dim (g := True) (n := nDims ti.t.ne) (j := 0) h.d0
  rw [if_pos (nDims_pos ti.t.ne)] at hd0
  have hoffset := (Reads.number_mod (g := True) 8 ti.offset).map
    (f := fun offset => ({ (ti.reread T) with offset } : TensorInfo))
  refine Reads.mono ((reads_string (g := True) hname).bind <| Reads.check_bind <|
    Reads.check_bind <| (Reads.number (g := True) hdims).bind <| Reads.check_bind <|
    hd0.bind <| (reads_dim (g := True) h.d1).bind <| (reads_dim (g := True) h.d2).bind <|
    (reads_dim (g := True) h.d3).bind <| Reads.check_bind <|
    (Reads.number (g := True) htype).bind <| Reads.check_bind (g := True) ?_) ?_
  · rw [setName_eq]
    exact hoffset
  · rw [setName_eq]
    exact fun ⟨helems, htype⟩ => ⟨trivial, ti.t.name.property, hacc, trivial, nDims_le _, trivial,
      trivial, trivial, trivial, helems, trivial, htype, trivial⟩

end Infos

end BeeLlama.Gguf
