import BeeLlama.Gguf.Context
import Mathlib.Data.List.Nodup

/-!
# Model files: what the calls keep

In every context that the calls build, the keys and the names of the tensors differ, every value has
the size of its type, the key `general.alignment` has a power of two of the right type, and every
tensor begins where the one before it ends, rounded up. The alignment of the context stays 32.

* `KvOk`: what holds of a pair. `Placed`: where the tensors are.
* `CtxInv`, `ctxInv_inductive`: the invariant of the runs.
-/

namespace BeeLlama.Gguf

open List Option

/-- What holds of a pair. -/
structure KvOk (kv : GgufKv) : Prop where
  key_ne : kv.key ≠ []
  key_cStr : (0 : UInt8) ∉ kv.key
  reserved : kv.key = alignmentKey → kv.isArray = false ∧ kv.type = .uint32 ∧
    0 < ofLe kv.data ∧ ofLe kv.data &&& (ofLe kv.data - 1) = 0
  value : kv.type = .string ∧ kv.data = [] ∧ (kv.isArray ∨ kv.dataString.length = 1) ∨
    kv.type.size ≠ 0 ∧ kv.dataString = [] ∧
      ∃ n, kv.data.length = n * kv.type.size ∧ (kv.isArray ∨ n = 1)

theorem cStr_eq (s : CString) : cStr s.val = s := by
  refine Subtype.ext (takeWhile_eq_self_iff.mpr fun c hc => decide_eq_true fun h0 => ?_)
  exact s.property (h0 ▸ hc)

/-! ## Keys -/

section Keys

variable {ctx ctx' : GgufContext} {key : CString}

/-- The pairs are those before, without the one of the key. -/
theorem removeKey_eq (ctx : GgufContext) (key : CString) :
    ctx.removeKey key = { ctx with kv := ctx.kv.eraseP fun p => cStr p.key = key } := by
  rw [eraseP_eq_eraseIdx, GgufContext.removeKey, findKey]
  cases ctx.kv.findIdx? fun p => decide (cStr p.key = key) <;> rfl

theorem key_ne_of_mem_eraseP {kv : List GgufKv} (hnodup : (kv.map GgufKv.key).Nodup)
    (hcstr : ∀ p ∈ kv, (0 : UInt8) ∉ p.key) {p : GgufKv}
    (hp : p ∈ kv.eraseP fun p => cStr p.key = key) : p.key ≠ key.val := by
  have hkey : ∀ q ∈ kv, q.key = key.val ↔ cStr q.key = key := fun q hq => by
    have := cStr_eq ⟨q.key, hcstr q hq⟩
    exact ⟨fun h => h ▸ cStr_eq key, fun h => h ▸ (congrArg Subtype.val this).symm⟩
  induction kv with
  | nil => cases hp
  | cons q kv ih =>
    rw [map_cons, nodup_cons] at hnodup
    have htail := fun r hr => hcstr r (mem_cons_of_mem q hr)
    rw [eraseP_cons] at hp
    by_cases hq : cStr q.key = key
    · simp only [hq, decide_true, cond_true] at hp
      intro heq
      have hqkey := (hkey q mem_cons_self).mpr hq
      exact hnodup.1 (hqkey.trans heq.symm ▸ mem_map_of_mem hp)
    · simp only [hq, decide_false, cond_false] at hp
      rcases mem_cons.mp hp with rfl | hp
      · exact fun heq => hq ((hkey p mem_cons_self).mp heq)
      · exact ih hnodup.2 htail hp fun r hr => hkey r (mem_cons_of_mem q hr)

end Keys

/-! ## Offsets -/

section Offsets

variable (T : Traits)

/-- Every tensor begins where the one before it ends, rounded up. -/
def Placed : Nat → List TensorInfo → Prop
  | _, [] => True
  | offset, ti :: info => ti.offset = offset ∧ Placed (offset + pad (T.nbytes ti.t) 32) info

/-- Where the last tensor ends. -/
def endOffset (offset : Nat) (info : List TensorInfo) : Nat :=
  offset + (info.map fun ti => pad (T.nbytes ti.t) 32).sum

variable {T} {offset : Nat} {info info' : List TensorInfo}

theorem endOffset_cons (ti : TensorInfo) :
    endOffset T offset (ti :: info) = endOffset T (offset + pad (T.nbytes ti.t) 32) info := by
  rw [endOffset, endOffset, map_cons, sum_cons, Nat.add_assoc]

theorem placed_append : Placed T offset (info ++ info') ↔
      Placed T offset info ∧ Placed T (endOffset T offset info) info' := by
  induction info generalizing offset with
  | nil => exact ⟨fun h => ⟨trivial, h⟩, And.right⟩
  | cons ti info ih =>
    rw [cons_append, Placed, Placed, ih, endOffset_cons, and_assoc]

theorem placed_updateOffsets : Placed T offset (GgufContext.updateOffsets T 32 offset info) := by
  induction info generalizing offset with
  | nil => trivial
  | cons ti info ih => exact ⟨rfl, ih⟩

theorem updateOffsets_names :
    (GgufContext.updateOffsets T 32 offset info).map (fun ti => ti.t.name) =
      info.map fun ti => ti.t.name := by
  induction info generalizing offset with
  | nil => rfl
  | cons ti info ih => exact congrArg (ti.t.name :: ·) ih

/-- The place after the last tensor, as `gguf_add_tensor` finds it. -/
theorem endOffset_eq (h : Placed T offset info) : endOffset T offset info = match info.getLast? with
      | none => offset
      | some ti => ti.offset + pad (T.nbytes ti.t) 32 := by
  rcases eq_nil_or_concat' info with rfl | ⟨init, ti, rfl⟩
  · rfl
  · obtain ⟨-, hti, -⟩ := placed_append.mp h
    rw [getLast?_concat]
    change _ = ti.offset + _
    rw [hti, endOffset, endOffset, map_append, sum_append, map_singleton,
      sum_singleton, Nat.add_assoc]

/-- The data of a tensor does not move the others. -/
theorem Placed.modify {f : TensorInfo → TensorInfo} (h : Placed T offset info)
    (hoffset : ∀ ti, (f ti).offset = ti.offset) (hsize : ∀ ti, T.nbytes (f ti).t = T.nbytes ti.t)
    (i : Nat) : Placed T offset (info.modify i f) := by
  induction info generalizing offset i with
  | nil => cases i <;> trivial
  | cons ti info ih =>
    cases i with
    | zero => exact ⟨(hoffset ti).trans h.1, (hsize ti).symm ▸ h.2⟩
    | succ i => exact ⟨h.1, ih h.2 i⟩

theorem names_modify {f : TensorInfo → TensorInfo} (hname : ∀ ti, (f ti).t.name = ti.t.name)
    (i : Nat) :
    (info.modify i f).map (fun ti => ti.t.name) = info.map fun ti => ti.t.name := by
  induction info generalizing i with
  | nil => cases i <;> rfl
  | cons ti info ih =>
    cases i with
    | zero => exact congrArg (· :: _) (hname ti)
    | succ i => exact congrArg (ti.t.name :: ·) (ih i)

end Offsets

/-! ## The invariant -/

/-- What holds of a context. -/
structure CtxInv (T : Traits) (ctx : GgufContext) : Prop where
  version : ctx.version = 3
  alignment : ctx.alignment = 32
  kv : ∀ p ∈ ctx.kv, KvOk p
  keys : (ctx.kv.map GgufKv.key).Nodup
  names : (ctx.info.map fun ti => ti.t.name).Nodup
  placed : Placed T 0 ctx.info

section Inv

variable {T : Traits} {ctx ctx' : GgufContext} {key : CString}

theorem ctxInv_empty (T : Traits) : CtxInv T {} where
  version := rfl
  alignment := rfl
  kv := forall_mem_nil _
  keys := nodup_nil
  names := nodup_nil
  placed := trivial

theorem CtxInv.removeKey (h : CtxInv T ctx) (key : CString) : CtxInv T (ctx.removeKey key) := by
  have hsub := eraseP_sublist (p := fun p : GgufKv => decide (cStr p.key = key)) (l := ctx.kv)
  rw [removeKey_eq]
  exact ⟨h.version, h.alignment, fun p hp => h.kv p (hsub.subset hp),
    h.keys.sublist (hsub.map _), h.names, h.placed⟩

theorem CtxInv.emplace (h : CtxInv T ctx) {val : Option Nat} {kv : GgufKv} (hkey : kv.key = key.val)
    (hval : ∀ v ∈ val, kv.isArray = false ∧ kv.type = .uint32 ∧ ofLe kv.data = v)
    (hvalue : kv.type = .string ∧ kv.data = [] ∧ (kv.isArray ∨ kv.dataString.length = 1) ∨
      kv.type.size ≠ 0 ∧ kv.dataString = [] ∧
        ∃ n, kv.data.length = n * kv.type.size ∧ (kv.isArray ∨ n = 1))
    (hctx : ctx.emplace key val kv = some ctx') : CtxInv T ctx' := by
  unfold GgufContext.emplace at hctx
  split at hctx
  · next hcheck =>
    cases hctx
    have hrem := h.removeKey key
    have hcstr := fun p hp => (h.kv p hp).key_cStr
    have hnew : ∀ p ∈ (ctx.removeKey key).kv, p.key ≠ key.val := fun p hp => by
      rw [removeKey_eq] at hp
      exact key_ne_of_mem_eraseP h.keys hcstr hp
    have hok : KvOk kv := by
      refine ⟨hcheck.2, hkey ▸ key.property, fun hres => ?_, hvalue⟩
      have hreserved := hcheck.1
      unfold GgufContext.checkReservedKeys at hreserved
      cases val with
      | none => simp [← hkey, hres] at hreserved
      | some v =>
        obtain ⟨harr, htype, hv⟩ := hval v rfl
        simp only [← hkey, hres, ne_eq, not_true_eq_false, decide_false, Bool.false_or,
          Bool.and_eq_true, decide_eq_true_eq] at hreserved
        exact ⟨harr, htype, hv ▸ hreserved.1, hv ▸ hreserved.2⟩
    refine ⟨hrem.version, hrem.alignment, fun p hp => ?_, ?_, hrem.names, hrem.placed⟩
    · rcases mem_append.mp hp with hp | hp
      · exact hrem.kv p hp
      · exact mem_singleton.mp hp ▸ hok
    · rw [map_append, map_singleton]
      refine nodup_append'.mpr ⟨hrem.keys, nodup_singleton _, ?_⟩
      rw [disjoint_singleton, List.mem_map]
      rintro ⟨p, hp, heq⟩
      exact hnew p hp (heq.trans hkey)
  · cases hctx

variable {type : GgufType}

theorem CtxInv.setBytes (h : CtxInv T ctx) {bytes : List UInt8}
    (hsize : type.size ≠ 0) (hlen : bytes.length = type.size)
    (hctx : ctx.setBytes key type bytes = some ctx') : CtxInv T ctx' := by
  refine h.emplace rfl (fun v hv => ?_)
    (.inr ⟨hsize, rfl, 1, hlen.trans (Nat.one_mul _).symm, .inr rfl⟩) hctx
  split at hv
  · next htype => exact ⟨rfl, htype, Option.some.inj hv⟩
  · cases hv

theorem CtxInv.setValStr (h : CtxInv T ctx) {val : CString}
    (hctx : ctx.setValStr key val = some ctx') : CtxInv T ctx' :=
  h.emplace rfl (fun _ hv => absurd hv (not_mem_none _)) (.inl ⟨rfl, rfl, .inr rfl⟩) hctx

theorem CtxInv.setArrData (h : CtxInv T ctx) {data : List UInt8} {n : Nat}
    (hctx : ctx.setArrData key type data n = some ctx') : CtxInv T ctx' := by
  unfold GgufContext.setArrData at hctx
  dsimp only at hctx
  split at hctx
  · cases hctx
  · next hok =>
    obtain ⟨hsize, hlen⟩ := not_or.mp hok
    exact h.emplace rfl (fun _ hv => absurd hv (not_mem_none _))
      (.inr ⟨hsize, rfl, n, not_not.mp hlen, .inl rfl⟩) hctx

theorem CtxInv.setArrStr (h : CtxInv T ctx) {data : List CString}
    (hctx : ctx.setArrStr key data = some ctx') : CtxInv T ctx' :=
  h.emplace rfl (fun _ hv => absurd hv (not_mem_none _)) (.inl ⟨rfl, rfl, .inl rfl⟩) hctx

theorem size_ne_zero (harray : type ≠ .array) (hstring : type ≠ .string) : type.size ≠ 0 := by
  cases type <;> first | contradiction | exact Nat.succ_ne_zero _

theorem CtxInv.setOne (h : CtxInv T ctx) {kv : GgufKv} (hctx : ctx.setOne kv = some ctx') :
    CtxInv T ctx' := by
  have hfixed : ∀ type : GgufType, type.size ≠ 0 →
      (if kv.data.length % type.size = 0 ∧ type.size ≤ kv.data.length then
        ctx.setBytes (cStr kv.key) type (if type = .bool then (kv.data.take type.size).map boolByte
          else kv.data.take type.size)
      else none) = some ctx' → CtxInv T ctx' := fun type hsize hctx => by
    split at hctx
    · next hlen =>
      refine h.setBytes hsize ?_ hctx
      split
      · rw [length_map, length_take, Nat.min_eq_left hlen.2]
      · rw [length_take, Nat.min_eq_left hlen.2]
    · cases hctx
  unfold GgufContext.setOne at hctx
  dsimp only at hctx
  split at hctx
  · split at hctx
    · cases hctx
    · split at hctx
      · cases hctx
      · exact h.setValStr hctx
    · next harray hstring => exact hfixed kv.type (size_ne_zero harray hstring) hctx
  · split at hctx
    · cases hctx
    · split at hctx
      · cases hctx
      · exact h.setArrStr hctx
      · exact h.setArrData hctx

theorem CtxInv.setKv (h : CtxInv T ctx) {src : GgufContext} (hctx : ctx.setKv src = some ctx') :
    CtxInv T ctx' := by
  unfold GgufContext.setKv at hctx
  generalize src.kv = kvs at hctx
  induction kvs generalizing ctx with
  | nil => exact Option.some.inj hctx ▸ h
  | cons kv kvs ih =>
    rw [foldlM_cons] at hctx
    obtain ⟨ctx1, h1, hctx⟩ := bind_eq_some_iff.mp hctx
    exact ih (h.setOne h1) hctx

theorem CtxInv.addTensor (h : CtxInv T ctx) {tensor : GgmlTensor}
    (hctx : ctx.addTensor T tensor = some ctx') : CtxInv T ctx' := by
  unfold GgufContext.addTensor at hctx
  split at hctx
  · cases hctx
  · next hfind =>
    cases hctx
    refine ⟨h.version, h.alignment, h.kv, h.keys, ?_, ?_⟩
    · rw [map_append, map_singleton]
      refine nodup_append'.mpr ⟨h.names, nodup_singleton _, ?_⟩
      rw [disjoint_singleton, List.mem_map]
      rintro ⟨ti, hti, heq⟩
      have hne := findIdx?_eq_none_iff.mp hfind ti hti
      exact of_decide_eq_false hne (congrArg Subtype.val heq)
    · refine placed_append.mpr ⟨h.placed, ?_, trivial⟩
      rw [h.alignment]
      exact (endOffset_eq h.placed).symm

theorem CtxInv.setTensorType (h : CtxInv T ctx) {name : CString} {type : Nat}
    (hctx : ctx.setTensorType T name type = some ctx') : CtxInv T ctx' := by
  unfold GgufContext.setTensorType at hctx
  split at hctx
  · cases hctx
  next tensorId _ =>
  split at hctx
  · cases hctx
  next ti info hdrop =>
  split at hctx
  · cases hctx
  cases hctx
  have hinfo : ctx.info = ctx.info.take tensorId ++ ti :: info := by
    rw [← hdrop, take_append_drop]
  have hplaced := placed_append.mp (hinfo ▸ h.placed)
  refine ⟨h.version, h.alignment, h.kv, h.keys, ?_, ?_⟩
  · have hnames := h.names
    rw [hinfo, map_append] at hnames
    rw [map_append, h.alignment, updateOffsets_names]
    exact hnames
  · rw [h.alignment]
    exact placed_append.mpr ⟨hplaced.1, hplaced.2.1.symm ▸ placed_updateOffsets⟩

theorem CtxInv.setTensorData (h : CtxInv T ctx) {name : CString} {data : Option (List UInt8)}
    (hctx : ctx.setTensorData name data = some ctx') : CtxInv T ctx' := by
  unfold GgufContext.setTensorData at hctx
  split at hctx
  · cases hctx
  cases hctx
  refine ⟨h.version, h.alignment, h.kv, h.keys, ?_, ?_⟩
  · exact (names_modify (f := fun ti => ti.setData data) (fun _ => rfl) _).symm ▸ h.names
  · exact h.placed.modify (f := fun ti => ti.setData data) (fun _ => rfl) (fun _ => rfl) _

/-- Every call keeps the invariant. -/
theorem CtxInv.step (h : CtxInv T ctx) {op : GgufOp} (hctx : ctx.step T op = some ctx') :
    CtxInv T ctx' := by
  cases op with
  | setValStr key val => exact h.setValStr hctx
  | setArrData key type data n => exact h.setArrData hctx
  | setArrStr key data => exact h.setArrStr hctx
  | removeKey key => exact Option.some.inj hctx ▸ h.removeKey key
  | setKv src => exact h.setKv hctx
  | addTensor tensor => exact h.addTensor hctx
  | setTensorType name type => exact h.setTensorType hctx
  | setTensorData name data => exact h.setTensorData hctx
  | setValBool key val => exact h.setBytes (by decide) rfl hctx
  | _ => exact h.setBytes (by decide) (length_le _ _) hctx

theorem ctxInv_inductive : Sys.Inductive (ggufSys T) (fun _ _ => True) (CtxInv T) where
  init _ hctx := hctx ▸ ctxInv_empty T
  step _ _ _ h _ hstep _ := h.step hstep

end Inv

end BeeLlama.Gguf
