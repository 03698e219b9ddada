import BeeLlama.Kv.TailInv
import BeeLlama.Lib.Fallible

/-!
# The arenas and the storage plan of the exact tail

* `tailLayoutFor`, `tailCompactLayoutFor`: the sizes of the arenas, or an error where one of them
  does not fit `int32_t`.
* `tailStoragePlanFor`: which payload a cache group allocates, and how many bytes.

The byte counts are products and sums of `uint64_t`. They are taken modulo `2 ^ 64` here too;
`tailStoragePlanFor_exact` says that they never wrap.
-/

namespace BeeLlama

open List

/-- The largest `uint64_t`. -/
def UINT64_MAX : Nat := 2 ^ 64 - 1

/-- A sum or a product of `uint64_t`. -/
def wrap64 (n : Nat) : Nat := n % (UINT64_MAX + 1)

theorem wrap64_eq {n : Nat} (h : n ≤ UINT64_MAX) : wrap64 n = n :=
  Nat.mod_eq_of_lt (Nat.lt_succ_of_le h)

/-- `ggml_type`. -/
inductive GgmlType where
  | f32 | f16 | q4_0 | q4_1 | q5_0 | q5_1 | q8_0 | q8_1
  | q2_K | q3_K | q4_K | q5_K | q6_K | q8_K
  | iq2_xxs | iq2_xs | iq3_xxs | iq1_s | iq4_nl | iq3_s | iq2_s | iq4_xs
  | i8 | i16 | i32 | i64 | f64 | iq1_m | bf16 | tq1_0 | tq2_0 | mxfp4 | nvfp4 | q1_0 | q2_0
  | q6_0 | q6_1 | q3_0 | q3_1 | q2_0s | q2_1
  | count
  deriving DecidableEq, Repr

/-- `ggml_is_quantized`, of `type_traits`. -/
def GgmlType.isQuantized : GgmlType → Bool
  | f32 | f16 | bf16 | f64 | i8 | i16 | i32 | i64 | count => false
  | _ => true

/-- `llama_kv_tail_layout`. -/
structure TailLayout where
  arenaStride : Nat
  sinkSlots : Nat
  totalSlots : Nat
  deriving DecidableEq, Repr

/-- `llama_kv_tail_compact_layout`. -/
structure TailCompactLayout where
  historyStride : Nat
  historySlots : Nat
  rollbackTokens : Nat
  attentionStride : Nat
  deriving DecidableEq, Repr

/-- `checked_tail_slot_count`, with the text of its exception. -/
def tailSlotCount (arenaStride nSeqMax sinkSlots : Nat) : Except String Nat :=
  (TailStore.checkedTailSlotCount arenaStride nSeqMax sinkSlots).mapError TailError.what

/-- `tail_fa_stride`. -/
def tailFaStride : Nat := 256

/-- `llama_kv_tail_layout_for`. -/
def tailLayoutFor (nTokens nSeqMax nUbatch : Nat) : Except String TailLayout := do
  let arenaNeed := nTokens + nUbatch
  let arenaRounded := (arenaNeed + tailFaStride - 1) / tailFaStride * tailFaStride
  if arenaRounded > INT32_MAX then throw "standard KV tail arena stride overflows int32_t"
  let sinkSlots := if nSeqMax > 1 then nUbatch else 0
  return ⟨arenaRounded, sinkSlots, ← tailSlotCount arenaRounded nSeqMax sinkSlots⟩

/-- `llama_kv_tail_compact_layout_for`. -/
def tailCompactLayoutFor (nTokens rollbackTokens nSeqMax nUbatch : Nat) :
    Except String TailCompactLayout := do
  let historyStride := nTokens + rollbackTokens
  let attentionStride := nTokens + nUbatch
  if historyStride > INT32_MAX then throw "compact KV tail history stride overflows int32_t"
  if attentionStride > INT32_MAX then throw "compact KV tail attention stride overflows int32_t"
  let historySlots ← tailSlotCount historyStride nSeqMax 0
  return ⟨historyStride, historySlots, rollbackTokens, attentionStride⟩

/-- `checked_tail_bytes`. -/
def checkedTailBytes (rows bytesPerRow : Nat) : Except String Nat :=
  if bytesPerRow ≠ 0 ∧ rows > UINT64_MAX / bytesPerRow then
    .error "standard KV tail byte count overflows uint64_t"
  else .ok (wrap64 (rows * bytesPerRow))

/-- `llama_kv_tail_storage_kind`. -/
inductive TailStorageKind where
  | disabled
  | overlay
  | nativeExact
  | compactOverlay
  | compactNativeExact
  deriving DecidableEq, Repr

/-- `llama_kv_tail_storage_request`. -/
structure TailStorageRequest where
  requestedBodyTypeK : GgmlType
  requestedBodyTypeV : GgmlType
  exactType : GgmlType
  requestedTokens : Nat
  effectiveTokens : Nat
  nSeqMax : Nat
  nUbatch : Nat
  visibilityWindow : Nat
  physicalBodyRows : Nat
  requestedBodyBytesPerRow : Nat
  promotionBytesPerRow : Nat
  overlayBytesPerRow : Nat
  nativeCapable : Bool
  alreadyExact : Bool
  hasOwnedBody : Bool
  hasSharedBody : Bool
  shadowKCapable : Bool
  shadowVCapable : Bool
  graphConsumesExactTail : Bool := true
  overlayPlacementSupported : Bool := true
  architecture : Option String := none
  groupId : Option String := none
  rollbackTokens : Nat := 0
  compactHistoryCapable : Bool := false
  compactCurrentSourceCapable : Bool := false
  compactOrderedCommitCapable : Bool := false
  fullWindowBodyCanBeOmitted : Bool := false

/-- `llama_kv_tail_storage_plan`; its `layer_routes` are filled in by its caller. -/
structure TailStoragePlan where
  kind : TailStorageKind
  requestedTokens : Nat
  effectiveTokens : Nat
  visibilityWindow : Nat
  requestedBodyTypeK : GgmlType
  requestedBodyTypeV : GgmlType
  actualBodyTypeK : GgmlType
  actualBodyTypeV : GgmlType
  shadowK : Bool
  shadowV : Bool
  shadowTypeK : GgmlType
  shadowTypeV : GgmlType
  physicalBodyRows : Nat
  layout : TailLayout
  requestedBodyBytes : Nat
  actualBodyBytes : Nat
  shadowBytes : Nat
  promotionIncrement : Nat
  overlayIncrement : Nat
  hasOwnedBody : Bool
  hasSharedBody : Bool
  bodyPromoted : Bool
  graphConsumesExactTail : Bool
  compactLayout : TailCompactLayout := ⟨0, 0, 0, 0⟩
  compactHistoryBytes : Nat := 0
  compactRollbackBytes : Nat := 0
  deriving DecidableEq, Repr

namespace TailStorageRequest

variable (request : TailStorageRequest)

/-- `promoted_k`, `promoted_v`: the exact type for a quantized one. -/
def promoted (type : GgmlType) : GgmlType := if type.isQuantized then request.exactType else type

/-- `full_visibility`. -/
def fullVisibility : Bool :=
  decide (request.visibilityWindow > 0 ∧ request.effectiveTokens ≥ request.visibilityWindow)

/-- `use_compact`. -/
def useCompact : Bool :=
  request.compactHistoryCapable && request.compactCurrentSourceCapable &&
    request.compactOrderedCommitCapable

/-- `"architecture " + architecture + " group " + group`. -/
def place : String :=
  "architecture " ++ request.architecture.getD "unknown" ++ " group " ++
    request.groupId.getD "unknown"

/-- The plan without exact storage. -/
def bodyOnly (requestedBodyBytes : Nat) : TailStoragePlan where
  kind := .disabled
  requestedTokens := request.requestedTokens
  effectiveTokens := request.effectiveTokens
  visibilityWindow := request.visibilityWindow
  requestedBodyTypeK := request.requestedBodyTypeK
  requestedBodyTypeV := request.requestedBodyTypeV
  actualBodyTypeK := request.requestedBodyTypeK
  actualBodyTypeV := request.requestedBodyTypeV
  shadowK := false
  shadowV := false
  shadowTypeK := .count
  shadowTypeV := .count
  physicalBodyRows := request.physicalBodyRows
  layout := ⟨0, 0, 0⟩
  requestedBodyBytes := requestedBodyBytes
  actualBodyBytes := requestedBodyBytes
  shadowBytes := 0
  promotionIncrement := 0
  overlayIncrement := 0
  hasOwnedBody := request.hasOwnedBody
  hasSharedBody := request.hasSharedBody
  bodyPromoted := false
  graphConsumesExactTail := request.graphConsumesExactTail

/-- The body gets the promoted types. -/
def promoteBody (result : TailStoragePlan) : TailStoragePlan :=
  let promotedK := request.promoted request.requestedBodyTypeK
  let promotedV := request.promoted request.requestedBodyTypeV
  { result with
    actualBodyTypeK := promotedK
    actualBodyTypeV := promotedV
    bodyPromoted := promotedK != request.requestedBodyTypeK ||
      promotedV != request.requestedBodyTypeV }

/-- The exact rows get the promoted types. -/
def shadowBody (shadowBytes : Nat) (result : TailStoragePlan) : TailStoragePlan :=
  { result with
    shadowK := request.shadowKCapable
    shadowV := request.shadowVCapable
    shadowTypeK :=
      if request.shadowKCapable then request.promoted request.requestedBodyTypeK else .count
    shadowTypeV :=
      if request.shadowVCapable then request.promoted request.requestedBodyTypeV else .count
    shadowBytes := shadowBytes }

/-- `select_native_exact`. -/
def selectNativeExact (result : TailStoragePlan) : Except String TailStoragePlan :=
  if result.promotionIncrement > UINT64_MAX - result.requestedBodyBytes then
    .error "standard KV tail promoted body byte count overflows uint64_t"
  else
    .ok { request.promoteBody result with
      kind := .nativeExact
      actualBodyBytes := wrap64 (result.requestedBodyBytes + result.promotionIncrement) }

/-- The branch with `use_compact`. -/
def selectCompact (result : TailStoragePlan) : Except String TailStoragePlan :=
  if request.fullVisibility && request.fullWindowBodyCanBeOmitted then
    .ok { request.shadowBody result.compactHistoryBytes (request.promoteBody result) with
      kind := .compactNativeExact
      actualBodyBytes := 0
      hasOwnedBody := false
      hasSharedBody := false }
  else if !request.graphConsumesExactTail then
    .error ("compact standard KV tail is not consumed by " ++ request.place ++
      " for requested N=" ++ toString request.requestedTokens)
  else if !request.overlayPlacementSupported then
    .error ("compact standard KV tail for " ++ request.place ++
      " is unsupported with --split-mode tensor")
  else
    .ok { request.shadowBody result.compactHistoryBytes result with kind := .compactOverlay }

/-- The branch of the overlay. -/
def selectOverlay (result : TailStoragePlan) : Except String TailStoragePlan :=
  if !request.graphConsumesExactTail then
    .error ("standard KV tail overlay is not consumed by " ++ request.place ++
      " for requested N=" ++ toString request.requestedTokens ++
      " (unsupported K-only MLA/DSA composition); use --kv-tail-tokens 0 or a " ++
      "full-window native-exact cache")
  else if !request.overlayPlacementSupported then
    .error ("standard KV tail overlay for " ++ request.place ++
      " is unsupported with --split-mode tensor; use --split-mode layer, " ++
      "--kv-tail-tokens 0, or a full-window native-exact cache")
  else .ok { request.shadowBody result.overlayIncrement result with kind := .overlay }

/-- The layouts and the byte counts of the plan. -/
def measure (result : TailStoragePlan) : Except String TailStoragePlan := do
  let layout ← tailLayoutFor request.effectiveTokens request.nSeqMax request.nUbatch
  let compactLayout ← tailCompactLayoutFor request.effectiveTokens request.rollbackTokens
    request.nSeqMax request.nUbatch
  let promotionIncrement ← checkedTailBytes request.physicalBodyRows request.promotionBytesPerRow
  let overlayIncrement ← checkedTailBytes layout.totalSlots request.overlayBytesPerRow
  let compactHistoryBytes ← checkedTailBytes compactLayout.historySlots request.overlayBytesPerRow
  let compactRollbackBytes ←
    checkedTailBytes (wrap64 (request.rollbackTokens * request.nSeqMax)) request.overlayBytesPerRow
  return { result with
    layout := layout
    compactLayout := compactLayout
    promotionIncrement := promotionIncrement
    overlayIncrement := overlayIncrement
    compactHistoryBytes := compactHistoryBytes
    compactRollbackBytes := compactRollbackBytes }

end TailStorageRequest

/-- `llama_kv_tail_storage_plan_for`. -/
def tailStoragePlanFor (request : TailStorageRequest) : Except String TailStoragePlan := do
  let requestedBodyBytes ←
    checkedTailBytes request.physicalBodyRows request.requestedBodyBytesPerRow
  let result := request.bodyOnly requestedBodyBytes
  if request.effectiveTokens = 0 ∨ request.physicalBodyRows = 0 ∨
      (!request.hasOwnedBody && !request.hasSharedBody) = true then
    return { result with effectiveTokens := 0 }
  if request.exactType ≠ .f16 ∧ request.exactType ≠ .bf16 then
    throw "standard KV tail type must be F16 or BF16"
  let result ← request.measure result
  -- an exact body is the authority for every suffix, so no compact overlay is made for it
  if request.alreadyExact then request.selectNativeExact result
  else if request.useCompact then request.selectCompact result
  else if request.fullVisibility && request.nativeCapable &&
      decide (result.promotionIncrement ≤ result.overlayIncrement) then
    request.selectNativeExact result
  else request.selectOverlay result

/-! ## What the layouts say -/

section Layout

variable {nTokens rollbackTokens nSeqMax nUbatch : Nat}

theorem tailSlotCount_ok {arenaStride sinkSlots n : Nat}
    (e : tailSlotCount arenaStride nSeqMax sinkSlots = .ok n) :
    n = arenaStride * nSeqMax + sinkSlots ∧ n ≤ INT32_MAX ∧
      TailStore.checkedTailSlotCount arenaStride nSeqMax sinkSlots = .ok n := by
  unfold tailSlotCount at e
  cases hc : TailStore.checkedTailSlotCount arenaStride nSeqMax sinkSlots with
  | error er =>
    rw [hc] at e
    cases e
  | ok m =>
    rw [hc] at e
    cases e
    obtain ⟨hm, hle⟩ := TailStore.checkedTailSlotCount_ok hc
    exact ⟨hm, hle, rfl⟩

/-- The sizes of a layout: no sum has wrapped. -/
structure TailLayout.Spec (nTokens nSeqMax nUbatch : Nat) (l : TailLayout) : Prop where
  stride : l.arenaStride = (nTokens + nUbatch + tailFaStride - 1) / tailFaStride * tailFaStride
  room : nTokens + nUbatch ≤ l.arenaStride
  total : l.totalSlots = l.arenaStride * nSeqMax + l.sinkSlots
  int32 : l.totalSlots ≤ INT32_MAX
  create : TailStore.checkedTailSlotCount l.arenaStride nSeqMax l.sinkSlots = .ok l.totalSlots

theorem tailLayoutFor_ok {l : TailLayout} (e : tailLayoutFor nTokens nSeqMax nUbatch = .ok l) :
    l.Spec nTokens nSeqMax nUbatch := by
  unfold tailLayoutFor at e
  dsimp only at e
  split at e
  · cases e
  · obtain ⟨n, hn, e⟩ := bind_ok e
    cases e
    obtain ⟨htotal, hle, hc⟩ := tailSlotCount_ok hn
    refine ⟨rfl, ?_, htotal, hle, hc⟩
    show nTokens + nUbatch ≤ (nTokens + nUbatch + 256 - 1) / 256 * 256
    omega

/-- The sizes of a compact layout. -/
structure TailCompactLayout.Spec (nTokens rollbackTokens nSeqMax nUbatch : Nat)
    (l : TailCompactLayout) : Prop where
  stride : l.historyStride = nTokens + rollbackTokens
  slots : l.historySlots = l.historyStride * nSeqMax
  rollback : l.rollbackTokens = rollbackTokens
  attention : l.attentionStride = nTokens + nUbatch
  int32 : l.historyStride ≤ INT32_MAX ∧ l.historySlots ≤ INT32_MAX ∧ l.attentionStride ≤ INT32_MAX
  create : TailStore.checkedTailSlotCount l.historyStride nSeqMax 0 = .ok l.historySlots

theorem tailCompactLayoutFor_ok {l : TailCompactLayout}
    (e : tailCompactLayoutFor nTokens rollbackTokens nSeqMax nUbatch = .ok l) :
    l.Spec nTokens rollbackTokens nSeqMax nUbatch := by
  unfold tailCompactLayoutFor at e
  dsimp only at e
  split at e
  · cases e
  · next hstride =>
    split at e
    · cases e
    · next hattention =>
      obtain ⟨n, hn, e⟩ := bind_ok e
      cases e
      obtain ⟨hslots, hle, hc⟩ := tailSlotCount_ok hn
      exact ⟨rfl, hslots, rfl, rfl,
        ⟨Nat.le_of_not_lt hstride, hle, Nat.le_of_not_lt hattention⟩, hc⟩

end Layout

/-! ## The byte counts -/

theorem checkedTailBytes_ok {rows bytesPerRow n : Nat}
    (e : checkedTailBytes rows bytesPerRow = .ok n) : n = rows * bytesPerRow ∧ n ≤ UINT64_MAX := by
  unfold checkedTailBytes at e
  split at e
  · cases e
  · next h =>
    have hle : rows * bytesPerRow ≤ UINT64_MAX := by
      by_cases h0 : bytesPerRow = 0
      · rw [h0, Nat.mul_zero]
        exact Nat.zero_le _
      · refine (Nat.le_div_iff_mul_le (Nat.pos_of_ne_zero h0)).mp ?_
        exact Nat.le_of_not_lt fun hgt => h ⟨h0, hgt⟩
    rw [wrap64_eq hle] at e
    cases e
    exact ⟨rfl, hle⟩

/-- The byte counts of a plan with exact storage are those of the layouts. -/
structure TailStoragePlan.Measured (request : TailStorageRequest) (plan : TailStoragePlan) :
    Prop where
  layout : tailLayoutFor request.effectiveTokens request.nSeqMax request.nUbatch = .ok plan.layout
  compactLayout : tailCompactLayoutFor request.effectiveTokens request.rollbackTokens
    request.nSeqMax request.nUbatch = .ok plan.compactLayout
  promotion : plan.promotionIncrement = request.physicalBodyRows * request.promotionBytesPerRow
  overlay : plan.overlayIncrement = plan.layout.totalSlots * request.overlayBytesPerRow
  history : plan.compactHistoryBytes = plan.compactLayout.historySlots * request.overlayBytesPerRow
  rollback : plan.compactRollbackBytes =
    request.rollbackTokens * request.nSeqMax * request.overlayBytesPerRow

/-- The byte counts that follow from the kind of the plan. -/
structure TailStoragePlan.Selected (plan : TailStoragePlan) : Prop where
  actual : plan.actualBodyBytes =
    match plan.kind with
    | .nativeExact => plan.requestedBodyBytes + plan.promotionIncrement
    | .compactNativeExact => 0
    | _ => plan.requestedBodyBytes
  shadow : plan.shadowBytes =
    match plan.kind with
    | .overlay => plan.overlayIncrement
    | .compactOverlay | .compactNativeExact => plan.compactHistoryBytes
    | _ => 0

/-- All byte counts of the plan. -/
def TailStoragePlan.byteCounts (plan : TailStoragePlan) : List Nat :=
  [plan.requestedBodyBytes, plan.actualBodyBytes, plan.shadowBytes, plan.promotionIncrement,
    plan.overlayIncrement, plan.compactHistoryBytes, plan.compactRollbackBytes]

/-- The byte counts are exact and fit `uint64_t`. -/
structure TailStoragePlan.Exact (request : TailStorageRequest) (plan : TailStoragePlan) :
    Prop where
  requested : plan.requestedBodyBytes = request.physicalBodyRows * request.requestedBodyBytesPerRow
  selected : plan.Selected
  measured : plan.kind ≠ .disabled → plan.Measured request
  disabled : plan.kind = .disabled → plan.promotionIncrement = 0 ∧ plan.overlayIncrement = 0 ∧
    plan.compactHistoryBytes = 0 ∧ plan.compactRollbackBytes = 0
  fits : ∀ n ∈ plan.byteCounts, n ≤ UINT64_MAX

section Plan

variable {request : TailStorageRequest} {result plan : TailStoragePlan}

/-- The rollback part of the history fits too, so its number of rows does not wrap. -/
theorem measure_ok (e : request.measure result = .ok plan) :
    plan.Measured request ∧ (∀ n ∈ [plan.promotionIncrement, plan.overlayIncrement,
      plan.compactHistoryBytes, plan.compactRollbackBytes], n ≤ UINT64_MAX) ∧
    plan.requestedBodyBytes = result.requestedBodyBytes ∧
    plan.actualBodyBytes = result.actualBodyBytes ∧ plan.shadowBytes = result.shadowBytes := by
  unfold TailStorageRequest.measure at e
  obtain ⟨layout, hl, e⟩ := bind_ok e
  obtain ⟨compact, hc, e⟩ := bind_ok e
  obtain ⟨promotion, hp, e⟩ := bind_ok e
  obtain ⟨overlay, ho, e⟩ := bind_ok e
  obtain ⟨history, hh, e⟩ := bind_ok e
  obtain ⟨rollback, hr, e⟩ := bind_ok e
  cases e
  obtain ⟨hp, hp64⟩ := checkedTailBytes_ok hp
  obtain ⟨ho, ho64⟩ := checkedTailBytes_ok ho
  obtain ⟨hh, hh64⟩ := checkedTailBytes_ok hh
  obtain ⟨hr, hr64⟩ := checkedTailBytes_ok hr
  have hrows : request.rollbackTokens * request.nSeqMax ≤ UINT64_MAX := by
    have hs := tailCompactLayoutFor_ok hc
    have hle : request.rollbackTokens * request.nSeqMax ≤ compact.historySlots := by
      rw [hs.slots, hs.stride]
      exact Nat.mul_le_mul_right _ (Nat.le_add_left _ _)
    exact Nat.le_trans (Nat.le_trans hle hs.int32.2.1) (by decide)
  rw [wrap64_eq hrows] at hr
  refine ⟨⟨hl, hc, hp, ho, hh, hr⟩, fun n hn => ?_, rfl, rfl, rfl⟩
  simp only [mem_cons, not_mem_nil, or_false] at hn
  rcases hn with rfl | rfl | rfl | rfl <;> assumption

/-- The plan has the measures of `result`. -/
def SameMeasures (result plan : TailStoragePlan) : Prop :=
  plan.layout = result.layout ∧ plan.compactLayout = result.compactLayout ∧
    plan.requestedBodyBytes = result.requestedBodyBytes ∧
    plan.promotionIncrement = result.promotionIncrement ∧
    plan.overlayIncrement = result.overlayIncrement ∧
    plan.compactHistoryBytes = result.compactHistoryBytes ∧
    plan.compactRollbackBytes = result.compactRollbackBytes

theorem selectNativeExact_ok (hs : result.shadowBytes = 0)
    (hq : result.requestedBodyBytes ≤ UINT64_MAX)
    (e : request.selectNativeExact result = .ok plan) :
    SameMeasures result plan ∧ plan.kind ≠ .disabled ∧ plan.Selected ∧
      plan.actualBodyBytes ≤ UINT64_MAX := by
  unfold TailStorageRequest.selectNativeExact at e
  split at e
  · cases e
  · next h =>
    have hsum : result.requestedBodyBytes + result.promotionIncrement ≤ UINT64_MAX := by omega
    rw [wrap64_eq hsum] at e
    cases e
    exact ⟨⟨rfl, rfl, rfl, rfl, rfl, rfl, rfl⟩, nofun, ⟨rfl, hs⟩, hsum⟩

theorem selectCompact_ok (ha : result.actualBodyBytes = result.requestedBodyBytes)
    (hq : result.requestedBodyBytes ≤ UINT64_MAX) (e : request.selectCompact result = .ok plan) :
    SameMeasures result plan ∧ plan.kind ≠ .disabled ∧ plan.Selected ∧
      plan.actualBodyBytes ≤ UINT64_MAX := by
  unfold TailStorageRequest.selectCompact at e
  split at e
  · cases e
    exact ⟨⟨rfl, rfl, rfl, rfl, rfl, rfl, rfl⟩, nofun, ⟨rfl, rfl⟩, Nat.zero_le _⟩
  · split at e
    · cases e
    · split at e
      · cases e
      · cases e
        exact ⟨⟨rfl, rfl, rfl, rfl, rfl, rfl, rfl⟩, nofun, ⟨ha, rfl⟩, ha ▸ hq⟩

theorem selectOverlay_ok (ha : result.actualBodyBytes = result.requestedBodyBytes)
    (hq : result.requestedBodyBytes ≤ UINT64_MAX) (e : request.selectOverlay result = .ok plan) :
    SameMeasures result plan ∧ plan.kind ≠ .disabled ∧ plan.Selected ∧
      plan.actualBodyBytes ≤ UINT64_MAX := by
  unfold TailStorageRequest.selectOverlay at e
  split at e
  · cases e
  · split at e
    · cases e
    · cases e
      exact ⟨⟨rfl, rfl, rfl, rfl, rfl, rfl, rfl⟩, nofun, ⟨ha, rfl⟩, ha ▸ hq⟩

/-- The byte counts of every plan are exact. -/
theorem tailStoragePlanFor_exact (e : tailStoragePlanFor request = .ok plan) :
    plan.Exact request := by
  unfold tailStoragePlanFor at e
  obtain ⟨bytes, hb, e⟩ := bind_ok e
  obtain ⟨hb, hb64⟩ := checkedTailBytes_ok hb
  dsimp only at e
  split at e
  · cases e
    refine ⟨hb, ⟨rfl, rfl⟩, fun h => absurd rfl h, fun _ => ⟨rfl, rfl, rfl, rfl⟩, fun n hn => ?_⟩
    simp only [TailStoragePlan.byteCounts, TailStorageRequest.bodyOnly, mem_cons,
      not_mem_nil, or_false] at hn
    rcases hn with rfl | rfl | rfl | rfl | rfl | rfl | rfl
    · exact hb64
    · exact hb64
    all_goals exact Nat.zero_le _
  · split at e
    · cases e
    · obtain ⟨result, hr, e⟩ := bind_ok e
      obtain ⟨hm, hfits, hreq, hact, hshadow⟩ := measure_ok hr
      have hq : result.requestedBodyBytes ≤ UINT64_MAX := hreq ▸ hb64
      have ha : result.actualBodyBytes = result.requestedBodyBytes := hact.trans hreq.symm
      obtain ⟨⟨hl, hc, hr', hp, ho, hh, hrb⟩, hk, hsel, ha64⟩ : SameMeasures result plan ∧
          plan.kind ≠ .disabled ∧ plan.Selected ∧ plan.actualBodyBytes ≤ UINT64_MAX := by
        split at e
        · exact selectNativeExact_ok hshadow hq e
        · split at e
          · exact selectCompact_ok ha hq e
          · split at e
            · exact selectNativeExact_ok hshadow hq e
            · exact selectOverlay_ok ha hq e
      have hmeasured : plan.Measured request := by
        refine ⟨hl ▸ hm.layout, hc ▸ hm.compactLayout, hp.trans hm.promotion, ?_, ?_,
          hrb.trans hm.rollback⟩
        · rw [ho, hl, hm.overlay]
        · rw [hh, hc, hm.history]
      rw [← hp, ← ho, ← hh, ← hrb] at hfits
      refine ⟨by rw [hr', hreq]; exact hb, hsel, fun _ => hmeasured, fun h => absurd h hk,
        fun n hn => ?_⟩
      simp only [TailStoragePlan.byteCounts, mem_cons, not_mem_nil, or_false] at hn
      simp only [mem_cons, not_mem_nil, or_false, forall_eq_or_imp, forall_eq] at hfits
      have hs64 : plan.shadowBytes ≤ UINT64_MAX := by
        rw [hsel.shadow]
        split
        · exact hfits.2.1
        · exact hfits.2.2.1
        · exact hfits.2.2.1
        · exact Nat.zero_le _
      rcases hn with rfl | rfl | rfl | rfl | rfl | rfl | rfl
      · rw [hr']
        exact hq
      · exact ha64
      · exact hs64
      · exact hfits.1
      · exact hfits.2.1
      · exact hfits.2.2.1
      · exact hfits.2.2.2

end Plan

end BeeLlama
