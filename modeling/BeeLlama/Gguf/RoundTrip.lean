import BeeLlama.Gguf.Layout
import Mathlib.Data.List.Find

/-!
# Model files: what is read of a file that was written

The writer rounds up to the alignment of the context, the reader to the one that the pairs give.

* `reads_meta`: what a reader has before the data of the tensors.
* `readTensorData_iff`: when it has the data, too.
* `gguf_roundTrip`: the contexts that are read as they were written (`Portable`).
-/

namespace BeeLlama.Gguf

open ByteReader List

section Meta

variable (T : Traits)

/-- The alignment that a reader takes. -/
def alignmentOf (kv : List GgufKv) : Nat :=
  match kv.find? fun p => p.key = alignmentKey with
  | none => 32
  | some p => ofLe p.data

/-- The limits of the reader. -/
structure Readable (ctx : GgufContext) : Prop where
  nTensors : ctx.info.length ≤ sizeMax / T.sizeofInfo
  nKv : ctx.kv.length ≤ sizeMax / T.sizeofKv
  kv : ∀ p ∈ ctx.kv, KvFits p
  bounds : ∀ ti ∈ ctx.info, InfoBounds T ti.t
  shapes : ∀ ti ∈ ctx.info, ElementsFit ti.t.ne ∧ TypeFits T ti.t.type ti.t.ne
  size : endOffset T 0 ctx.info ≤ sizeMax

/-- The context, as it is read. -/
def GgufContext.reread (ctx : GgufContext) : GgufContext where
  version := 3
  kv := ctx.kv.map GgufKv.reread
  info := ctx.info.map (TensorInfo.reread T)
  alignment := alignmentOf ctx.kv

variable {T} {ctx : GgufContext}

theorem KvOk.cStr_iff {p : GgufKv} (h : KvOk p) :
    cStr p.key = cStr alignmentKey ↔ p.key = alignmentKey := by
  have hp : (cStr p.key).val = p.key := congrArg Subtype.val (cStr_eq ⟨p.key, h.key_cStr⟩)
  have hkey : (cStr alignmentKey).val = alignmentKey := by decide +kernel
  rw [Subtype.ext_iff, hp, hkey]

/-- The alignment key of a context that was built gives a power of two. -/
theorem readAlignment_reread (hinv : CtxInv T ctx) :
    readAlignment (ctx.kv.map GgufKv.reread) = some (alignmentOf ctx.kv) := by
  have hfind : (ctx.kv.map GgufKv.reread).find? (fun p => cStr p.key = cStr alignmentKey) =
      (ctx.kv.find? fun p => p.key = alignmentKey).map GgufKv.reread := by
    rw [find?_map]
    refine congrArg (Option.map _) (find?_congr fun p hp => ?_)
    exact decide_eq_decide.mpr (hinv.kv p hp).cStr_iff
  rw [readAlignment, alignmentOf, hfind]
  cases hp : ctx.kv.find? fun p => p.key = alignmentKey with
  | none => rfl
  | some p =>
    have hkey : p.key = alignmentKey := by simpa using find?_some hp
    obtain ⟨harr, htype, hpos, hpow⟩ := (hinv.kv p (mem_of_find?_eq_some hp)).reserved hkey
    have hdata : p.reread.data = p.data := if_neg fun hbool => by
      rw [htype] at hbool
      cases hbool
    have hfixed : ¬ (p.reread.isArray ∨ p.reread.type ≠ .uint32) := by
      rw [GgufKv.reread, harr, htype]
      decide
    have hgood : ¬ (ofLe p.data = 0 ∨ ofLe p.data &&& (ofLe p.data - 1) ≠ 0) := by omega
    rw [Option.map_some]
    dsimp only
    rw [if_neg hfixed, hdata, if_neg hgood]

theorem ne_of_nodup_map {α β : Type} {f : α → β} {l before after : List α} {x : α}
    (h : (l.map f).Nodup) (hl : l = before ++ x :: after) {y : α} (hy : y ∈ before) :
    f y ≠ f x := by
  rw [hl, map_append, map_cons] at h
  exact (nodup_append.mp h).2.2 _ (mem_map_of_mem hy) _ mem_cons_self

theorem keys_before (hinv : CtxInv T ctx) {before after : List GgufKv} {p : GgufKv}
    (hl : ctx.kv = before ++ p :: after) : ∀ q ∈ before.map GgufKv.reread, q.key ≠ p.key :=
  forall_mem_map.mpr fun q hq => ne_of_nodup_map (y := q) hinv.keys hl hq

theorem names_before (hinv : CtxInv T ctx) {before after : List TensorInfo} {ti : TensorInfo}
    (hl : ctx.info = before ++ ti :: after) :
    ∀ tj ∈ before.map (TensorInfo.reread T), tj.t.name ≠ ti.t.name :=
  forall_mem_map.mpr fun tj htj =>
    ne_of_nodup_map (f := fun ti : TensorInfo => ti.t.name) (y := tj) hinv.names hl htj

theorem Readable.counts (hr : Readable T ctx) :
    ctx.info.length < 2 ^ 63 ∧ ctx.kv.length < 2 ^ 63 := by
  have hhalf : ∀ size, 2 ≤ size → sizeMax / size < 2 ^ 63 := fun size hsize =>
    Nat.lt_of_le_of_lt (Nat.div_le_div_left hsize (by decide)) (by decide)
  exact ⟨Nat.lt_of_le_of_lt hr.nTensors (hhalf _ T.two_le_sizeofInfo),
    Nat.lt_of_le_of_lt hr.nKv (hhalf _ T.two_le_sizeofKv)⟩

/-- What is read before the data. -/
theorem reads_meta (hinv : CtxInv T ctx) (hr : Readable T ctx) :
    Reads (∀ ti ∈ ctx.info, ElementsFit ti.t.ne.reread ∧ TypeFits T ti.t.type ti.t.ne.reread)
      (readMeta T) (metaBytes ctx) (ctx.reread T) := by
  have hinfo := (Reads.loop (p := readTensorInfo T) (e := writeTensorMeta)
    (f := TensorInfo.reread T) (l := ctx.info)
    fun before ti after hl => reads_tensorInfo
      (hr.bounds ti (hl ▸ mem_append_right _ mem_cons_self)) (names_before hinv hl)).map
    (f := fun info => ({ ctx.reread T with info } : GgufContext))
  have hkv := Reads.loop (p := readKv) (e := kvBytes) (f := GgufKv.reread) (g := fun _ => True)
    (l := ctx.kv) fun before p after hl =>
      have hp : p ∈ ctx.kv := hl ▸ mem_append_right _ mem_cons_self
      (reads_kv (hinv.kv p hp) (hr.kv p hp) (keys_before hinv hl)).2
  have hmagic : Reads True (bytes 4) magic magic := Reads.bytes (by decide +kernel)
  have hversion : Reads True (number 4) (le 4 3) 3 := Reads.number (by decide)
  have hcounts := hr.counts
  unfold readMeta metaBytes
  refine Reads.mono (hmagic.bind <| Reads.check_bind <| hversion.bind <| Reads.check_bind <|
    (Reads.number (g := True) (hcounts.1.trans (by decide))).bind <| Reads.check_bind <|
    (Reads.number (g := True) (hcounts.2.trans (by decide))).bind <| Reads.check_bind <|
    hkv.bind (o := ∀ ti ∈ ctx.info, ElementsFit ti.t.ne.reread ∧
      TypeFits T ti.t.type ti.t.ne.reread) ?_) ?_
  · rw [readAlignment_reread hinv]
    exact hinfo
  · exact fun hfits =>
      ⟨trivial, rfl, trivial, by decide, trivial, ⟨hcounts.1, hr.nTensors⟩, trivial,
      ⟨hcounts.2, hr.nKv⟩, fun _ _ => trivial, hfits⟩

end Meta

/-! ## Data -/

section Data

variable {T : Traits} {ctx r : GgufContext} {start size : Nat} {info : List TensorInfo}

theorem le_endOffset (start : Nat) (info : List TensorInfo) : start ≤ endOffset T start info :=
  Nat.le_add_right start _

/-- The size of the data, if every tensor follows the one before it. -/
theorem dataSize_iff (hstart : start ≤ sizeMax) : dataSize T 32 info start = some size ↔
      Placed T start info ∧ endOffset T start info = size ∧ size ≤ sizeMax := by
  induction info generalizing start with
  | nil =>
    rw [dataSize, Option.some_inj]
    exact ⟨fun h => ⟨trivial, h, h ▸ hstart⟩, fun h => h.2.1⟩
  | cons ti info ih =>
    have hle := le_endOffset (T := T) (start + pad (T.nbytes ti.t) 32) info
    rw [dataSize, Placed, endOffset_cons]
    dsimp only
    by_cases hoffset : ti.offset = start
    · rw [if_neg (not_not_intro hoffset)]
      by_cases hover : sizeMax - start < pad (T.nbytes ti.t) 32
      · rw [if_pos hover]
        refine ⟨fun h => (Option.some_ne_none _ h.symm).elim, fun h => ?_⟩
        obtain ⟨_, hend, hsize⟩ := h
        omega
      · rw [if_neg hover, ih (by omega)]
        exact ⟨fun h => ⟨⟨hoffset, h.1⟩, h.2⟩, fun h => ⟨h.1.2, h.2⟩⟩
    · rw [if_pos hoffset]
      exact ⟨fun h => (Option.some_ne_none _ h.symm).elim, fun h => absurd h.1.1 hoffset⟩

/-- Where the data starts. -/
def seekData (ctx : GgufContext) (s : ByteSource) : Option ByteSource :=
  if ctx.info = [] then some s else ((seek (pad s.offset ctx.alignment)).run s).map Prod.snd

/-- The data of a size. -/
def takeData (ctx : GgufContext) (s : ByteSource) (size : Nat) : Option GgufContext :=
  if size ≤ s.rest.length then
    some { ctx with offset := s.offset, size, data := s.rest.take size }
  else none

theorem afterSeek_eq (ctx : GgufContext) (s : ByteSource) : ((do
      let offset ← tell
      match dataSize T ctx.alignment ctx.info 0 with
      | none => failure
      | some size => return { ctx with offset, size, data := ← bytes size } :
        ByteReader GgufContext) s).map Prod.fst =
      (dataSize T ctx.alignment ctx.info 0).bind (takeData ctx s) := by
  change ((match dataSize T ctx.alignment ctx.info 0 with
    | none => failure
    | some size => do return { ctx with offset := s.offset, size, data := ← bytes size } :
      ByteReader GgufContext) s).map Prod.fst = _
  cases dataSize T ctx.alignment ctx.info 0 with
  | none => rfl
  | some size =>
    change ((bytes size s).bind fun r =>
      some (({ ctx with offset := s.offset, size, data := r.1 } : GgufContext), r.2)).map
        Prod.fst = takeData ctx s size
    unfold bytes takeData
    split <;> rfl

theorem readTensorData_eq (ctx : GgufContext) (s : ByteSource) :
    ((readTensorData T ctx).run s).map Prod.fst =
      (seekData ctx s).bind fun s =>
        (dataSize T ctx.alignment ctx.info 0).bind (takeData ctx s) := by
  simp only [← afterSeek_eq]
  unfold readTensorData seekData
  by_cases hinfo : ctx.info = []
  · rw [if_pos hinfo]
    simp only [hinfo, ne_eq, not_true_eq_false, if_false]
    rfl
  · rw [if_neg hinfo]
    simp only [hinfo, ne_eq, not_false_eq_true, if_true]
    simp only [StateT.run, bind, StateT.bind, tell, Option.bind_some]
    cases seek (pad s.offset ctx.alignment) s <;> rfl

/-- What a reader gives changes the data only. -/
theorem readTensorData_fields {s : ByteSource}
    (h : ((readTensorData T ctx).run s).map Prod.fst = some r) :
    r.kv = ctx.kv ∧ r.alignment = ctx.alignment ∧ r.info = ctx.info := by
  rw [readTensorData_eq] at h
  obtain ⟨s', -, h⟩ := Option.bind_eq_some_iff.mp h
  obtain ⟨size, -, h⟩ := Option.bind_eq_some_iff.mp h
  unfold takeData at h
  split at h
  · cases h
    exact ⟨rfl, rfl, rfl⟩
  · cases h

/-- The data is read if every tensor follows the one before it, and all of it is there. -/
theorem readTensorData_iff (halign : ctx.alignment = 32) {off : Nat} {data : List UInt8} :
    ((readTensorData T ctx).run ⟨off, padding off 32 ++ data⟩).map Prod.fst = some r ↔
      Placed T 0 ctx.info ∧ endOffset T 0 ctx.info ≤ sizeMax ∧
        endOffset T 0 ctx.info ≤ data.length ∧
        r = { ctx with
          offset := if ctx.info = [] then off else pad off 32
          size := endOffset T 0 ctx.info
          data := data.take (endOffset T 0 ctx.info) } := by
  have hseek : ∃ rest, seekData ctx ⟨off, padding off 32 ++ data⟩ =
      some ⟨if ctx.info = [] then off else pad off 32, rest⟩ ∧
      (endOffset T 0 ctx.info ≤ rest.length ↔ endOffset T 0 ctx.info ≤ data.length) ∧
      rest.take (endOffset T 0 ctx.info) = data.take (endOffset T 0 ctx.info) := by
    have hpad := length_padding (n := 32) (by decide) off
    unfold seekData
    by_cases hinfo : ctx.info = []
    · rw [if_pos hinfo, if_pos hinfo, hinfo]
      exact ⟨_, rfl, iff_of_true (Nat.zero_le _) (Nat.zero_le _), rfl⟩
    · have hle : pad off 32 ≤ off + (padding off 32 ++ data).length := by
        rw [length_append]
        omega
      have hdrop : pad off 32 - off = (padding off 32).length := by omega
      refine ⟨data, ?_, Iff.rfl, rfl⟩
      rw [if_neg hinfo, if_neg hinfo, halign]
      unfold seek
      simp only [StateT.run, if_pos hle, Option.map_some, hdrop, drop_left]
  obtain ⟨rest, hseek, hlen, htake⟩ := hseek
  rw [readTensorData_eq, hseek, Option.bind_some, halign, Option.bind_eq_some_iff]
  simp only [dataSize_iff (Nat.zero_le sizeMax), takeData, Option.ite_none_right_eq_some,
    Option.some_inj]
  constructor
  · rintro ⟨size, ⟨hplaced, rfl, hmax⟩, hle, rfl⟩
    exact ⟨hplaced, hmax, hlen.mp hle, by rw [htake, halign]⟩
  · rintro ⟨hplaced, hmax, hle, rfl⟩
    exact ⟨_, ⟨hplaced, rfl, hmax⟩, hlen.mpr hle, by rw [htake, halign]⟩

end Data

/-! ## Round trip -/

section RoundTrip

variable (T : Traits)

/-- What is known of a tensor besides its data. -/
def TensorInfo.desc (ti : TensorInfo) : TensorName × Nat × Dims × Nat :=
  (ti.t.name, ti.t.type, ti.t.ne, ti.offset)

/-- The context is written, and what is read of the file is what was written. -/
def RoundTrips (ctx : GgufContext) : Prop :=
  ∃ file r, writeToBuf T ctx = some file ∧ initFromReader T file = some r ∧ r.kv = ctx.kv ∧
    r.alignment = ctx.alignment ∧ r.info.map TensorInfo.desc = ctx.info.map TensorInfo.desc ∧
    ∀ ti ∈ ctx.info, (r.data.drop ti.offset).take (T.nbytes ti.t) = tensorBytes T ti.t

/-- No key asks for another alignment, the booleans are 0 and 1, no shape loses a 0, and without
gaps every tensor is as long as it was, rounded up. -/
structure Portable (ctx : GgufContext) : Prop where
  alignment : alignmentOf ctx.kv = 32
  bools : ∀ p ∈ ctx.kv, p.type = .bool → ∀ b ∈ p.data, b = 0 ∨ b = 1
  shapes : ∀ ti ∈ ctx.info, NoLateZero ti.t.ne
  sizes : ∀ ti ∈ ctx.info,
    pad (T.nbytes (GgufContext.retype T ti.t ti.t.type)) 32 = pad (T.nbytes ti.t) 32

variable {T} {ctx r : GgufContext}

theorem map_eq_self_iff {α : Type} {f : α → α} {l : List α} : l.map f = l ↔ ∀ a ∈ l, f a = a := by
  have := map_inj_left (l := l) (f := f) (g := id)
  rwa [map_id] at this

theorem reread_kv_eq_iff (p : GgufKv) :
    p.reread = p ↔ (p.type = .bool → ∀ b ∈ p.data, b = 0 ∨ b = 1) := by
  have hbyte : ∀ b, boolByte b = b ↔ b = 0 ∨ b = 1 := fun b => by
    unfold boolByte
    split
    · next h => exact ⟨fun hb => .inr hb.symm, fun hb => (hb.resolve_left h).symm⟩
    · next h => exact ⟨fun hb => .inl hb.symm, fun _ => (not_not.mp h).symm⟩
  have hdata : p.reread = p ↔ fixedBytes p.type p.data = p.data :=
    ⟨fun h => congrArg GgufKv.data h, fun h => by rw [GgufKv.reread, h]⟩
  rw [hdata, fixedBytes]
  split
  · next hbool =>
    rw [map_eq_self_iff]
    exact ⟨fun h _ b hb => (hbyte b).mp (h b hb), fun h b hb => (hbyte b).mpr (h hbool b hb)⟩
  · next hbool => exact ⟨fun _ h => absurd h hbool, fun _ => rfl⟩

theorem nbytes_reread {ti : TensorInfo} (h : NoLateZero ti.t.ne) :
    T.nbytes (ti.reread T).t = T.nbytes (GgufContext.retype T ti.t ti.t.type) := by
  rw [TensorInfo.reread, (Dims.reread_eq_iff _).mpr h]
  rfl

section Sizes

variable {start : Nat} {info : List TensorInfo} {f : TensorInfo → TensorInfo}

theorem Placed.offset_le (h : Placed T start info) {ti : TensorInfo} (hti : ti ∈ info) :
    ti.offset ≤ endOffset T start info := by
  obtain ⟨before, after, rfl⟩ := append_of_mem hti
  obtain ⟨-, hoffset, -⟩ := placed_append.mp h
  rw [hoffset, endOffset, endOffset, map_append, sum_append]
  omega

/-- Tensors of the same lengths are at the same places. -/
theorem Placed.map (h : Placed T start info) (hoffset : ∀ ti ∈ info, (f ti).offset = ti.offset)
    (hpad : ∀ ti ∈ info, pad (T.nbytes (f ti).t) 32 = pad (T.nbytes ti.t) 32) :
    Placed T start (info.map f) ∧ endOffset T start (info.map f) = endOffset T start info := by
  induction info generalizing start with
  | nil => exact ⟨trivial, rfl⟩
  | cons ti info ih =>
    obtain ⟨hplaced, hend⟩ := ih h.2 (fun tj htj => hoffset tj (mem_cons_of_mem ti htj))
      fun tj htj => hpad tj (mem_cons_of_mem ti htj)
    rw [map_cons, Placed, endOffset_cons, endOffset_cons, hpad ti mem_cons_self]
    exact ⟨⟨(hoffset ti mem_cons_self).trans h.1, hplaced⟩, hend⟩

/-- Tensors at the same places have the same lengths. For the last one, its end is compared. -/
theorem Placed.pads_eq (h : Placed T start info) (hf : Placed T start (info.map f))
    (hoffset : ∀ ti ∈ info, (f ti).offset = ti.offset)
    (hend : endOffset T start (info.map f) ≤ endOffset T start info)
    (hin : ∀ ti ∈ info, ti.offset + T.nbytes ti.t ≤ endOffset T start (info.map f)) :
    ∀ ti ∈ info, pad (T.nbytes (f ti).t) 32 = pad (T.nbytes ti.t) 32 := by
  induction info generalizing start with
  | nil => exact forall_mem_nil _
  | cons ti info ih =>
    have hhead : pad (T.nbytes (f ti).t) 32 = pad (T.nbytes ti.t) 32 := by
      cases info with
      | nil =>
        have hle : T.nbytes ti.t ≤ pad (T.nbytes (f ti).t) 32 := by
          have hin := hin ti mem_cons_self
          rw [h.1] at hin
          exact Nat.le_of_add_le_add_left hin
        exact Nat.le_antisymm (Nat.le_of_add_le_add_left hend)
          (pad_le (by decide) hle (dvd_pad _ _))
      | cons tj info =>
        have hnext := hoffset tj (mem_cons_of_mem ti mem_cons_self)
        rw [hf.2.1, h.2.1] at hnext
        exact Nat.add_left_cancel hnext
    rw [map_cons, endOffset_cons, endOffset_cons, hhead] at hend
    rw [map_cons, endOffset_cons, hhead] at hin
    have htail := hf.2
    rw [hhead] at htail
    exact forall_mem_cons.mpr ⟨hhead, ih h.2 htail
      (fun tj htj => hoffset tj (mem_cons_of_mem ti htj)) hend
      fun tj htj => hin tj (mem_cons_of_mem ti htj)⟩

end Sizes

section Init

variable {g : Prop} {bs tail : List UInt8}

theorem initFromReader_eq (hmeta : Reads g (readMeta T) bs ctx) (hg : g) :
    initFromReader T (bs ++ tail) =
      ((readTensorData T ctx).run ⟨bs.length, tail⟩).map Prod.fst := by
  have hrun := hmeta.run hg 0 tail
  rw [Nat.zero_add] at hrun
  change ((readMeta T ⟨0, bs ++ tail⟩).bind fun r => readTensorData T r.1 r.2).map Prod.fst = _
  rw [hrun]
  rfl

theorem initFromReader_of_some (hmeta : Reads g (readMeta T) bs ctx)
    (h : initFromReader T (bs ++ tail) = some r) :
    ((readTensorData T ctx).run ⟨bs.length, tail⟩).map Prod.fst = some r := by
  obtain ⟨_, hrun, rfl⟩ := Option.map_eq_some_iff.mp h
  obtain ⟨s, hs, hdata⟩ := Option.bind_eq_some_iff.mp hrun
  obtain rfl := hmeta.only 0 tail s hs
  rw [Nat.zero_add] at hdata
  exact Option.map_eq_some_iff.mpr ⟨_, hdata, rfl⟩

end Init

theorem reread_offset (hinv : CtxInv T ctx) (hr : Readable T ctx) {ti : TensorInfo}
    (hti : ti ∈ ctx.info) : (ti.reread T).offset = ti.offset :=
  Nat.mod_eq_of_lt (Nat.lt_of_le_of_lt ((hinv.placed.offset_le hti).trans hr.size) (by decide))

/-- A portable context is read as it was written. -/
theorem Portable.roundTrips (hinv : CtxInv T ctx) (hw : Writable T ctx) (hr : Readable T ctx)
    (h : Portable T ctx) : RoundTrips T ctx := by
  have hne : ∀ ti ∈ ctx.info, ti.t.ne.reread = ti.t.ne := fun ti hti =>
    (Dims.reread_eq_iff _).mpr (h.shapes ti hti)
  have hfits : ∀ ti ∈ ctx.info,
      ElementsFit ti.t.ne.reread ∧ TypeFits T ti.t.type ti.t.ne.reread := fun ti hti => by
    rw [hne ti hti]
    exact hr.shapes ti hti
  have hoffset : ∀ ti ∈ ctx.info, (ti.reread T).offset = ti.offset := fun ti =>
    reread_offset hinv hr
  obtain ⟨hplaced, hend⟩ := hinv.placed.map hoffset fun ti hti => by
    rw [nbytes_reread (h.shapes ti hti)]
    exact h.sizes ti hti
  have hlen : (dataBytes T ctx.info).length = endOffset T 0 ctx.info := length_dataBytes hw
  have hread : initFromReader T (fileBytes T ctx) = _ :=
    initFromReader_eq (reads_meta hinv hr) hfits
  have halign : (ctx.reread T).alignment = 32 := h.alignment
  have hdata : ((readTensorData T (ctx.reread T)).run ⟨(metaBytes ctx).length,
      padding (metaBytes ctx).length 32 ++ dataBytes T ctx.info⟩).map Prod.fst = some _ :=
    (readTensorData_iff halign).mpr ⟨hplaced, hend ▸ hr.size, hend ▸ hlen.ge, rfl⟩
  refine ⟨_, _, writeToBuf_eq hinv hr.kv hw, hread.trans hdata, ?_, ?_, ?_, fun ti hti => ?_⟩
  · exact map_eq_self_iff.mpr fun p hp => (reread_kv_eq_iff p).mpr (h.bools p hp)
  · exact h.alignment.trans hinv.alignment.symm
  · change (ctx.info.map _).map _ = _
    rw [map_map]
    refine map_congr_left fun ti hti => ?_
    change (ti.t.name, ti.t.type, ti.t.ne.reread, (ti.reread T).offset) = ti.desc
    rw [hne ti hti, hoffset ti hti, TensorInfo.desc]
  · change (((dataBytes T ctx.info).take (endOffset T 0 (ctx.info.map _))).drop _).take _ = _
    rw [hend, take_of_length_le hlen.le]
    exact drop_dataBytes hinv.placed hw hti

/-- A context that is read as it was written is portable. -/
theorem RoundTrips.portable (hinv : CtxInv T ctx) (hw : Writable T ctx) (hr : Readable T ctx)
    (h : RoundTrips T ctx) : Portable T ctx := by
  obtain ⟨file, r, hfile, hread, hkv, halign, hdesc, hbytes⟩ := h
  obtain rfl := Option.some.inj ((writeToBuf_eq hinv hr.kv hw).symm.trans hfile)
  have hdata := initFromReader_of_some (reads_meta hinv hr) hread
  obtain ⟨hkv', halign', hinfo⟩ := readTensorData_fields hdata
  have halignment : (ctx.reread T).alignment = 32 :=
    halign'.symm.trans (halign.trans hinv.alignment)
  have hdesc : ∀ ti ∈ ctx.info, (ti.reread T).desc = ti.desc := by
    rw [hinfo] at hdesc
    change (ctx.info.map (TensorInfo.reread T)).map _ = _ at hdesc
    rw [map_map] at hdesc
    exact map_inj_left.mp hdesc
  have hshapes : ∀ ti ∈ ctx.info, NoLateZero ti.t.ne := fun ti hti =>
    (Dims.reread_eq_iff _).mp (congrArg (fun d => d.2.2.1) (hdesc ti hti))
  have hoffset : ∀ ti ∈ ctx.info, (ti.reread T).offset = ti.offset := fun ti =>
    reread_offset hinv hr
  have hlen : (dataBytes T ctx.info).length = endOffset T 0 ctx.info := length_dataBytes hw
  obtain ⟨hplaced, -, hend, rfl⟩ := (readTensorData_iff halignment).mp hdata
  have hbools : ∀ p ∈ ctx.kv, p.reread = p := map_eq_self_iff.mp (hkv'.symm.trans hkv)
  refine ⟨halignment, fun p hp => (reread_kv_eq_iff p).mp (hbools p hp), hshapes, fun ti hti => ?_⟩
  rw [← nbytes_reread (hshapes ti hti)]
  -- the bytes that are read of a tensor do not go beyond what the reader takes as the data
  refine hinv.placed.pads_eq hplaced hoffset (hlen ▸ hend) (fun tj htj => ?_) ti hti
  obtain ⟨-, data, hdata, hle⟩ := hw tj htj
  have hbytes := congrArg List.length (hbytes tj htj)
  have hat : tj.offset ≤ endOffset T 0 (ctx.info.map (TensorInfo.reread T)) :=
    hoffset tj htj ▸ hplaced.offset_le (mem_map_of_mem htj)
  rw [length_tensorBytes hdata hle, length_take, length_drop, length_take] at hbytes
  change min _ (min (endOffset T 0 (ctx.info.map _)) _ - _) = _ at hbytes
  omega

/-- A context is always written, and it is read as it was written if and only if it is portable. -/
theorem gguf_roundTrip (h : (ggufSys T).Reach (fun _ _ => True) ctx) (hw : Writable T ctx)
    (hr : Readable T ctx) :
    (∃ file, writeToBuf T ctx = some file) ∧ (RoundTrips T ctx ↔ Portable T ctx) := by
  have hinv : CtxInv T ctx := h.inv ctxInv_inductive
  exact ⟨⟨_, writeToBuf_eq hinv hr.kv hw⟩, RoundTrips.portable hinv hw hr,
    Portable.roundTrips hinv hw hr⟩

theorem reach_foldlM {ops : List GgufOp} {ctx' : GgufContext}
    (hops : ∀ op ∈ ops, (ggufSys T).sources op = ∅) (h : (ggufSys T).Reach (fun _ _ => True) ctx)
    (hctx : ops.foldlM (GgufContext.step T) ctx = some ctx') :
    (ggufSys T).Reach (fun _ _ => True) ctx' := by
  induction ops generalizing ctx with
  | nil => exact Option.some.inj hctx ▸ h
  | cons op ops ih =>
    rw [foldlM_cons] at hctx
    obtain ⟨ctx1, h1, hctx⟩ := Option.bind_eq_some_iff.mp hctx
    refine ih (fun op' hop' => hops op' (mem_cons_of_mem op hop')) (.step h ?_ h1 trivial) hctx
    rw [hops op mem_cons_self]
    exact fun _ ho => ho.elim

end RoundTrip

/-! ## A sample -/

section Sample

/-- The traits of `GGML_TYPE_F32`. -/
def sampleTraits : Traits where
  typeCount := 49
  typeSize _ := 4
  blckSize _ := 1
  sizeofKv := 88
  sizeofInfo := 344
  typeCount_le := by decide
  two_le_sizeofKv := by decide
  two_le_sizeofInfo := by decide

/-- A vector of zeros. -/
def sampleTensor (name : Text) (n : Nat) : GgmlTensor where
  name := setName name
  type := 0
  ne := ⟨n, 1, 1, 1⟩
  nb := sampleTraits.strides 0 ⟨n, 1, 1, 1⟩
  data := some (List.replicate (4 * n) 0)

/-- Two tensors, an empty array, a boolean and the alignment. -/
def sampleOps (alignment : UInt32) : List GgufOp :=
  [.addTensor (sampleTensor [116] 2), .addTensor (sampleTensor [117] 1),
    .setArrStr (cStr [115]) [], .setValBool (cStr [98]) true,
    .setValU32 (cStr alignmentKey) alignment]

/-- The context of the calls. -/
def sampleContext (alignment : UInt32) : GgufContext :=
  ((sampleOps alignment).foldlM (GgufContext.step sampleTraits) {}).getD {}

theorem reach_sample {alignment : UInt32}
    (h : ((sampleOps alignment).foldlM (GgufContext.step sampleTraits) {}).isSome) :
    (ggufSys sampleTraits).Reach (fun _ _ => True) (sampleContext alignment) := by
  have hops : ∀ op ∈ sampleOps alignment, (ggufSys sampleTraits).sources op = ∅ := by
    intro op hop
    unfold sampleOps at hop
    simp only [mem_cons, not_mem_nil, or_false] at hop
    rcases hop with rfl | rfl | rfl | rfl | rfl <;> rfl
  obtain ⟨ctx, hctx⟩ := Option.isSome_iff_exists.mp h
  refine reach_foldlM hops (.init rfl) ?_
  rw [sampleContext, hctx, Option.getD_some]

theorem writable_sample : Writable sampleTraits (sampleContext 32) ∧
    Writable sampleTraits (sampleContext 64) := by decide +kernel

theorem readable_sample {alignment : UInt32} (h : alignment = 32 ∨ alignment = 64) :
    Readable sampleTraits (sampleContext alignment) := by
  rcases h with rfl | rfl
  all_goals exact ⟨by decide +kernel, by decide +kernel, by decide +kernel, by decide +kernel,
    by decide +kernel, by decide +kernel⟩

theorem portable_sample : Portable sampleTraits (sampleContext 32) :=
  ⟨by decide +kernel, by decide +kernel, by decide +kernel, by decide +kernel⟩

theorem gguf_roundTrip_sample : RoundTrips sampleTraits (sampleContext 32) :=
  (gguf_roundTrip (reach_sample (by decide +kernel)) writable_sample.1
    (readable_sample (.inl rfl))).2.mpr portable_sample

/-- The offsets are not those that a reader computes for an alignment of 64. -/
theorem not_gguf_roundTrip : ∃ (T : Traits) (ctx : GgufContext),
    (ggufSys T).Reach (fun _ _ => True) ctx ∧ Writable T ctx ∧ Readable T ctx ∧
      ¬ RoundTrips T ctx := by
  refine ⟨sampleTraits, sampleContext 64, reach_sample (by decide +kernel), writable_sample.2,
    readable_sample (.inr rfl), ?_⟩
  rintro ⟨file, r, hfile, hread, -⟩
  have hnone : (writeToBuf sampleTraits (sampleContext 64)).bind (initFromReader sampleTraits) =
      none := by decide +kernel
  rw [hfile, Option.bind_some, hread] at hnone
  cases hnone

end Sample

end BeeLlama.Gguf
