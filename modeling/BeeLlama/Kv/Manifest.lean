import BeeLlama.Kv.CacheRun
import BeeLlama.Kv.TailProvenance

/-!
# The manifest of a saved KV state (`state_v2_manifest`)

The manifest names the saved cells of each stream, the records of the exact tail, the provenance of
its sequences and the layout of the tensors.
-/

namespace BeeLlama

/-- `LLAMA_KV_TAIL_STATE_VERSION_V4`. -/
def LLAMA_KV_TAIL_STATE_VERSION_V4 : Nat := 4
/-- `LLAMA_KV_TAIL_STATE_VERSION`. -/
def LLAMA_KV_TAIL_STATE_VERSION : Nat := 5

/-- `state_v2_manifest::cell`. -/
structure SavedCell where
  sourceCell : Nat
  generation : Nat := 0
  pos : Int
  ext : CellExt := {}
  seqIds : List Int := []
  deriving DecidableEq, Repr

/-- `state_v2_manifest::stream`. -/
structure SavedStream where
  cells : List SavedCell := []
  payloadRuns : List Nat := []
  deriving DecidableEq, Repr

/-- `state_v2_manifest::body_layer`. -/
structure BodyLayer where
  il : Nat
  kType : Int
  kRow : Nat
  hasV : Nat
  vType : Int
  vUnit : Nat
  vEmbd : Nat
  deriving DecidableEq, Repr

/-- `state_v2_manifest::tail_record`. -/
structure TailRecord where
  seqId : Int
  stream : Nat
  bodyOrdinal : Nat
  generation : Nat
  position : Int
  insertionOrdinal : Nat
  payload : Nat
  localSlot : Nat
  deriving DecidableEq, Repr

/-- `state_v2_manifest::tail_layer`. -/
structure TailLayer where
  il : Nat
  hasK : Nat
  hasV : Nat
  kRow : Nat
  vRow : Nat
  deriving DecidableEq, Repr

/-- `state_v2_manifest`. -/
structure Manifest where
  vTrans : Nat := 0
  nPosPerEmbd : Nat := 1
  savedNSeqMax : Nat := 0
  bodyOnly : Bool := false
  streams : List SavedStream := []
  bodyLayers : List BodyLayer := []
  tailOrdinal : Nat := 0
  tailPayloadCount : Nat := 0
  tailRecords : List TailRecord := []
  tailLayers : List TailLayer := []
  provenance : List TailStore.Provenance := []
  tailWriteCursors : List Nat := []
  deriving DecidableEq, Repr

end BeeLlama
