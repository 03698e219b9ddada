import BeeLlama.Lib.Json
import BeeLlama.Peg.Parser

/-!
# The arena as JSON (`common_peg_arena::to_json`, `common_peg_arena::from_json`)

The parsers are written with all their fields, and those that no parse reads (the text of a
character class, the schema, the grammar) are read again, too. A schema is an `ordered_json`, which
keeps the order of the members; it is written to a `json`, which sorts them by their keys.

A string is its bytes, and a map is the list of its pairs in the order of the keys.

* `deserialize_serialize`: what one parser becomes.
* `fromJson_toJson`: which arenas are read as they were written.
* `fromJson_toJson_parse`: an arena that is read parses as the one that was written.
-/

namespace BeeLlama.Peg

open List

instance byteOrder : LinearOrder UInt8 where
  le_refl := UInt8.le_refl
  le_trans _ _ _ := UInt8.le_trans
  le_antisymm _ _ := UInt8.le_antisymm
  le_total := UInt8.le_total
  lt_iff_le_not_ge a b := by
    rw [UInt8.not_le]
    exact ⟨fun h => ⟨UInt8.le_of_lt h, h⟩, And.right⟩
  toDecidableLE := inferInstance

/-- `std::string`, which is compared byte by byte. -/
abbrev Text := List UInt8

/-- The text of a literal. -/
def text (s : String) : Text := s.toByteArray.data.toList

@[simp] theorem text_inj {s t : String} : text s = text t ↔ s = t := by
  refine ⟨fun h => String.toByteArray_inj.mp ?_, fun h => h ▸ rfl⟩
  exact ByteArray.ext (Array.toList_inj.mp h)

/-- The values of `nlohmann::basic_json` that are not arrays or objects; `F` are the numbers with a
fraction. -/
inductive JsonScalar (F : Type) where
  | null
  | discarded
  | boolean (b : Bool)
  | unsigned (n : UInt64)
  | integer (n : Int64)
  | float (x : F)
  | string (s : Text)
  | binary (bytes : List UInt8) (subtype : Option UInt64)

/-- `nlohmann::json`, and `nlohmann::ordered_json`. -/
abbrev JsonValue (F : Type) := Json Text (JsonScalar F)

/-- `common_peg_parser_id`. -/
abbrev ParserId := UInt64

/-- `COMMON_PEG_INVALID_PARSER_ID`. -/
def invalidParserId : ParserId := -1

/-- `common_peg_parser_variant`, with all fields. -/
inductive ParserVariant (F : Type) where
  | epsilon
  | start
  | end_
  | literal (literal : Text)
  | sequence (children : List ParserId)
  | choice (children : List ParserId)
  | repetition (child : ParserId) (minCount maxCount : Int32)
  | and_ (child : ParserId)
  | not_ (child : ParserId)
  | any
  | space
  | chars (pattern : Text) (ranges : List (UInt32 × UInt32)) (negated : Bool)
      (minCount maxCount : Int32)
  | string (delimiter : UInt8)
  | until_ (delimiters : List Text)
  | schema (child : ParserId) (name : Text) (schema : Option (JsonValue F)) (raw : Bool)
  | rule (name : Text) (child : ParserId) (trigger : Bool)
  | ref (name : Text)
  | atomic (child : ParserId)
  | tag (child : ParserId) (tag : Text)
  | gbnf (child : ParserId) (grammar : Text)
  | ac (child : ParserId) (delimiters : List Text)

/-- `common_peg_arena`, with all fields. -/
@[ext] structure ArenaData (F : Type) where
  parsers : List (ParserVariant F) := []
  rules : List (Text × ParserId) := []
  rules_sorted : SortedKeys rules := by exact .nil
  root : ParserId := invalidParserId

/-! ## Writing -/

section Write

variable {F : Type}

def jsonString (s : Text) : JsonValue F := .scalar (.string s)

def jsonBool (b : Bool) : JsonValue F := .scalar (.boolean b)

def jsonInt (n : Int32) : JsonValue F := .scalar (.integer n.toInt64)

def jsonId (id : ParserId) : JsonValue F := .scalar (.unsigned id)

def jsonCodepoint (c : UInt32) : JsonValue F := .scalar (.unsigned c.toUInt64)

/-- `json{{key, value}, ...}`. -/
def jsonObject (members : List (String × JsonValue F)) : JsonValue F :=
  .object (mapOf (members.map fun p => (text p.1, p.2)))

/-- `serialize_parser_variant`. -/
def serializeParserVariant : ParserVariant F → JsonValue F
  | .epsilon => jsonObject [("type", jsonString (text "epsilon"))]
  | .start => jsonObject [("type", jsonString (text "start"))]
  | .end_ => jsonObject [("type", jsonString (text "end"))]
  | .literal literal =>
    jsonObject [("type", jsonString (text "literal")), ("literal", jsonString literal)]
  | .sequence children =>
    jsonObject [("type", jsonString (text "sequence")), ("children", .array (children.map jsonId))]
  | .choice children =>
    jsonObject [("type", jsonString (text "choice")), ("children", .array (children.map jsonId))]
  | .repetition child minCount maxCount =>
    jsonObject [
      ("type", jsonString (text "repetition")),
      ("child", jsonId child),
      ("min_count", jsonInt minCount),
      ("max_count", jsonInt maxCount)]
  | .and_ child => jsonObject [("type", jsonString (text "and")), ("child", jsonId child)]
  | .not_ child => jsonObject [("type", jsonString (text "not")), ("child", jsonId child)]
  | .any => jsonObject [("type", jsonString (text "any"))]
  | .space => jsonObject [("type", jsonString (text "space"))]
  | .chars pattern ranges negated minCount maxCount =>
    jsonObject [
      ("type", jsonString (text "chars")),
      ("pattern", jsonString pattern),
      ("ranges", .array (ranges.map fun r =>
        jsonObject [("start", jsonCodepoint r.1), ("end", jsonCodepoint r.2)])),
      ("negated", jsonBool negated),
      ("min_count", jsonInt minCount),
      ("max_count", jsonInt maxCount)]
  | .string delimiter =>
    jsonObject [("type", jsonString (text "string")), ("delimiter", jsonString [delimiter])]
  | .until_ delimiters =>
    jsonObject [
      ("type", jsonString (text "until")), ("delimiters", .array (delimiters.map jsonString))]
  | .schema child name schema raw =>
    jsonObject [
      ("type", jsonString (text "schema")),
      ("child", jsonId child),
      ("name", jsonString name),
      -- an `ordered_json` is converted to a `json`
      ("schema", (schema.getD (.scalar .null)).sorted),
      ("raw", jsonBool raw)]
  | .rule name child trigger =>
    jsonObject [
      ("type", jsonString (text "rule")),
      ("name", jsonString name),
      ("child", jsonId child),
      ("trigger", jsonBool trigger)]
  | .ref name => jsonObject [("type", jsonString (text "ref")), ("name", jsonString name)]
  | .atomic child => jsonObject [("type", jsonString (text "atomic")), ("child", jsonId child)]
  | .tag child tag =>
    jsonObject [("type", jsonString (text "tag")), ("child", jsonId child), ("tag", jsonString tag)]
  | .gbnf child grammar =>
    jsonObject [
      ("type", jsonString (text "gbnf")), ("child", jsonId child), ("grammar", jsonString grammar)]
  | .ac child delimiters =>
    jsonObject [
      ("type", jsonString (text "ac")),
      ("child", jsonId child),
      ("delimiters", .array (delimiters.map jsonString))]

/-- `to_json`. -/
def ArenaData.toJson (arena : ArenaData F) : JsonValue F :=
  jsonObject [
    ("parsers", .array (arena.parsers.map serializeParserVariant)),
    ("rules", .object (mapOf (arena.rules.map fun p => (p.1, jsonId p.2)))),
    ("root", jsonId arena.root)]

end Write

/-! ## Reading -/

/-- What is thrown. -/
inductive JsonError where
  /-- `std::runtime_error`. -/
  | runtime (what : Text)
  /-- `nlohmann::json::type_error`: the type that is needed and the one that is there. -/
  | type (needed there : String)

/-- The conversions of a number with a fraction. -/
structure FloatCasts (F : Type) where
  toUInt64 : F → UInt64
  toUInt32 : F → UInt32
  toInt32 : F → Int32

section Read

variable {F : Type} (casts : FloatCasts F)

/-- `type_name`. -/
def typeName : JsonValue F → String
  | .array _ => "array"
  | .object _ => "object"
  | .scalar .null => "null"
  | .scalar .discarded => "discarded"
  | .scalar (.boolean _) => "boolean"
  | .scalar (.unsigned _) | .scalar (.integer _) | .scalar (.float _) => "number"
  | .scalar (.string _) => "string"
  | .scalar (.binary _ _) => "binary"

/-- `get<std::string>`. -/
def getString : JsonValue F → Except JsonError Text
  | .scalar (.string s) => .ok s
  | j => .error (.type "string" (typeName j))

/-- `get<bool>`. -/
def getBool : JsonValue F → Except JsonError Bool
  | .scalar (.boolean b) => .ok b
  | j => .error (.type "boolean" (typeName j))

/-- `get<common_peg_parser_id>`. -/
def getId : JsonValue F → Except JsonError ParserId
  | .scalar (.unsigned n) => .ok n
  | .scalar (.integer n) => .ok n.toUInt64
  | .scalar (.float x) => .ok (casts.toUInt64 x)
  | j => .error (.type "number" (typeName j))

/-- `get<uint32_t>`. -/
def getCodepoint : JsonValue F → Except JsonError UInt32
  | .scalar (.unsigned n) => .ok n.toUInt32
  | .scalar (.integer n) => .ok n.toUInt64.toUInt32
  | .scalar (.float x) => .ok (casts.toUInt32 x)
  | .scalar (.boolean b) => .ok b.toUInt32
  | j => .error (.type "number" (typeName j))

/-- `get<int>`. -/
def getInt : JsonValue F → Except JsonError Int32
  | .scalar (.unsigned n) => .ok n.toUInt32.toInt32
  | .scalar (.integer n) => .ok n.toInt32
  | .scalar (.float x) => .ok (casts.toInt32 x)
  | .scalar (.boolean b) => .ok b.toUInt32.toInt32
  | j => .error (.type "number" (typeName j))

/-- `j[key]`, if `j.contains(key)`. -/
def field (j : JsonValue F) (key : String) : Option (JsonValue F) :=
  match j with
  | .object members => members.lookup (text key)
  | _ => none

/-- What a loop over a value visits. -/
def elements : JsonValue F → List (JsonValue F)
  | .array elems => elems
  | .object members => members.map Prod.snd
  | .scalar .null => []
  | j => [j]

/-- The schema that is made from `j["schema"]`. -/
def getSchema : JsonValue F → Option (JsonValue F)
  | .scalar .null => none
  | schema => some schema

/-- A range of a character class. -/
def deserializeRange (j : JsonValue F) : Except JsonError (UInt32 × UInt32) :=
  match field j "start", field j "end" with
  | some start, some end_ => do .ok (← getCodepoint casts start, ← getCodepoint casts end_)
  | _, _ => .error (.runtime (text "char_range missing 'start' or 'end' field"))

/-- `deserialize_parser_variant`. -/
def deserializeParserVariant (j : JsonValue F) : Except JsonError (ParserVariant F) :=
  match field j "type" with
  | some (.scalar (.string type)) =>
    if type = text "epsilon" then .ok .epsilon
    else if type = text "start" then .ok .start
    else if type = text "end" then .ok .end_
    else if type = text "literal" then
      match field j "literal" with
      | some (.scalar (.string literal)) => .ok (.literal literal)
      | _ => .error (.runtime (text "literal parser missing or invalid 'literal' field"))
    else if type = text "sequence" then
      match field j "children" with
      | some (.array children) => do .ok (.sequence (← children.mapM (getId casts)))
      | _ => .error (.runtime (text "sequence parser missing or invalid 'children' field"))
    else if type = text "choice" then
      match field j "children" with
      | some (.array children) => do .ok (.choice (← children.mapM (getId casts)))
      | _ => .error (.runtime (text "choice parser missing or invalid 'children' field"))
    else if type = text "repetition" then
      match field j "child", field j "min_count", field j "max_count" with
      | some child, some minCount, some maxCount => do
        .ok (.repetition (← getId casts child) (← getInt casts minCount) (← getInt casts maxCount))
      | _, _, _ => .error (.runtime (text "repetition parser missing required fields"))
    else if type = text "and" then
      match field j "child" with
      | some child => do .ok (.and_ (← getId casts child))
      | none => .error (.runtime (text "and parser missing 'child' field"))
    else if type = text "not" then
      match field j "child" with
      | some child => do .ok (.not_ (← getId casts child))
      | none => .error (.runtime (text "not parser missing 'child' field"))
    else if type = text "any" then .ok .any
    else if type = text "space" then .ok .space
    else if type = text "chars" then
      match field j "pattern", field j "ranges", field j "negated", field j "min_count",
        field j "max_count" with
      | some pattern, some ranges, some negated, some minCount, some maxCount => do
        let pattern ← getString pattern
        let negated ← getBool negated
        let minCount ← getInt casts minCount
        let maxCount ← getInt casts maxCount
        .ok (.chars pattern (← (elements ranges).mapM (deserializeRange casts)) negated minCount
          maxCount)
      | _, _, _, _, _ => .error (.runtime (text "chars parser missing required fields"))
    else if type = text "string" then
      match field j "delimiter" with
      | some delimiter => do
        match ← getString delimiter with
        | [] => .error (.runtime (text "string parser delimiter is empty."))
        | c :: _ => .ok (.string c)
      | none => .error (.runtime (text "string parser missing delimiter field."))
    else if type = text "until" then
      match field j "delimiters" with
      | some (.array delimiters) => do .ok (.until_ (← delimiters.mapM getString))
      | _ => .error (.runtime (text "until parser missing or invalid 'delimiters' field"))
    else if type = text "schema" then
      match field j "child", field j "name", field j "schema", field j "raw" with
      | some child, some name, some schema, some raw => do
        let child ← getId casts child
        let name ← getString name
        let schema := getSchema schema
        .ok (.schema child name schema (← getBool raw))
      | _, _, _, _ => .error (.runtime (text "schema parser missing required fields"))
    else if type = text "rule" then
      match field j "name", field j "child", field j "trigger" with
      | some name, some child, some trigger => do
        .ok (.rule (← getString name) (← getId casts child) (← getBool trigger))
      | _, _, _ => .error (.runtime (text "rule parser missing required fields"))
    else if type = text "ref" then
      match field j "name" with
      | some (.scalar (.string name)) => .ok (.ref name)
      | _ => .error (.runtime (text "ref parser missing or invalid 'name' field"))
    else if type = text "atomic" then
      match field j "child" with
      | some child => do .ok (.atomic (← getId casts child))
      | none => .error (.runtime (text "tag parser missing required fields"))
    else if type = text "tag" then
      match field j "child", field j "tag" with
      | some child, some tag => do .ok (.tag (← getId casts child) (← getString tag))
      | _, _ => .error (.runtime (text "tag parser missing required fields"))
    else if type = text "gbnf" then
      match field j "child", field j "grammar" with
      | some child, some grammar => do .ok (.gbnf (← getId casts child) (← getString grammar))
      | _, _ => .error (.runtime (text "gbnf parser missing required fields"))
    else if type = text "ac" then
      match field j "child", field j "delimiters" with
      | some child, some (.array (d :: ds)) => do
        .ok (.ac (← getId casts child) (← (d :: ds).mapM getString))
      | _, _ =>
        .error (.runtime (text "ac parser requires 'child' and a non-empty 'delimiters' array"))
    else .error (.runtime (text "Unknown parser type: " ++ type))
  | _ => .error (.runtime (text "Parser variant JSON missing or invalid 'type' field"))

/-- `from_json`. The rules are looked through in the order of their names. -/
def ArenaData.fromJson (j : JsonValue F) : Except JsonError (ArenaData F) :=
  match field j "parsers", field j "rules", field j "root" with
  | some (.array parsers), some (.object rules), some root => do
    let parsers ← parsers.mapM (deserializeParserVariant casts)
    let rules ← rules.mapM fun p => do .ok (p.1, ← getId casts p.2)
    match (mapOf rules).find? fun p => parsers.length ≤ p.2.toNat with
    | some p =>
      .error (.runtime (text "Rule '" ++ p.1 ++ text "' references invalid parser ID: " ++
        text (toString p.2)))
    | none =>
      let root ← getId casts root
      if root ≠ invalidParserId ∧ parsers.length ≤ root.toNat then
        .error (.runtime (text "Root references invalid parser ID: " ++ text (toString root)))
      else .ok { parsers, rules := mapOf rules, rules_sorted := sortedKeys_mapOf rules, root }
  | some (.array _), some (.object _), none => .error (.runtime (text "JSON missing 'root' field"))
  | some (.array _), _, _ =>
    .error (.runtime (text "JSON missing or invalid 'rules' object"))
  | _, _, _ => .error (.runtime (text "JSON missing or invalid 'parsers' array"))

end Read

/-! ## What is read again -/

section RoundTrip

variable {F : Type} {casts : FloatCasts F}

/-- A list of values is read one by one. -/
theorem mapM_map_ok {α β γ ε : Type} {f : α → β} {g : β → Except ε γ} {h : α → γ} {l : List α}
    (hg : ∀ a ∈ l, g (f a) = .ok (h a)) : (l.map f).mapM g = .ok (l.map h) := by
  induction l with
  | nil => rfl
  | cons a l ih =>
    rw [map_cons, mapM_cons, hg a mem_cons_self, ih fun b hb => hg b (mem_cons_of_mem a hb)]
    rfl

@[simp] theorem field_jsonObject (members : List (String × JsonValue F)) (key : String) :
    field (jsonObject members) key = members.lookup key := by
  rw [jsonObject, field, lookup_mapOf]
  induction members with
  | nil => rfl
  | cons p members ih =>
    rw [map_cons, lookup_cons_ite, lookup_cons_ite, ih]
    simp only [text_inj]

@[simp] theorem getString_jsonString (s : Text) : getString (jsonString s : JsonValue F) = .ok s :=
  rfl

@[simp] theorem getBool_jsonBool (b : Bool) : getBool (jsonBool b : JsonValue F) = .ok b := rfl

@[simp] theorem getId_jsonId (id : ParserId) : getId casts (jsonId id) = .ok id := rfl

@[simp] theorem getInt_jsonInt (n : Int32) : getInt casts (jsonInt n) = .ok n :=
  congrArg Except.ok (Int32.toInt32_toInt64 n)

@[simp] theorem getCodepoint_jsonCodepoint (c : UInt32) :
    getCodepoint casts (jsonCodepoint c) = .ok c :=
  congrArg Except.ok (UInt32.toUInt32_toUInt64 c)

@[simp] theorem mapM_jsonId (ids : List ParserId) :
    (ids.map jsonId).mapM (getId casts) = .ok ids := by
  rw [mapM_map_ok (h := id) fun id _ => getId_jsonId id, map_id]

@[simp] theorem mapM_jsonString (l : List Text) :
    (l.map (jsonString (F := F))).mapM getString = .ok l := by
  rw [mapM_map_ok (h := id) fun s _ => getString_jsonString s, map_id]

/-- The parser that is read: the keys of a schema are sorted, and a `null` is no schema. -/
def ParserVariant.reread : ParserVariant F → ParserVariant F
  | .schema child name s raw => .schema child name (s.bind fun j => getSchema j.sorted) raw
  | p => p

/-- The parser can be read. -/
def ParserVariant.Reads : ParserVariant F → Prop
  | .ac _ delimiters => delimiters ≠ []
  | _ => True

@[simp] theorem ok_bind {ε α β : Type} (a : α) (f : α → Except ε β) :
    (Except.ok a >>= f : Except ε β) = f a := rfl

theorem getSchema_sorted (s : Option (JsonValue F)) :
    getSchema (s.getD (.scalar .null)).sorted = s.bind fun j => getSchema j.sorted := by
  cases s <;> rfl

theorem match_string {β : Type} (s : Text) (f : Text → β) (b : β) :
    (match some (jsonString s : JsonValue F) with
      | some (.scalar (.string s)) => f s
      | _ => b) = f s := rfl

/-- What is read of a parser that was written. -/
theorem deserialize_serialize (p : ParserVariant F) (h : p.Reads) :
    deserializeParserVariant casts (serializeParserVariant p) = .ok p.reread := by
  unfold serializeParserVariant deserializeParserVariant
  cases p with
  | chars pattern ranges negated minCount maxCount =>
    have hranges : (ranges.map fun r : UInt32 × UInt32 => jsonObject
        [("start", jsonCodepoint r.1), ("end", jsonCodepoint r.2)]).mapM (deserializeRange casts) =
          .ok (ranges.map id) :=
      mapM_map_ok fun r _ => by simp [deserializeRange, lookup_cons_ite]
    simp [match_string, lookup_cons_ite, ParserVariant.reread, elements, hranges, -mapM_map]
  | schema child name s raw =>
    simp [match_string, lookup_cons_ite, ParserVariant.reread, getSchema_sorted]
  | ac child delimiters =>
    obtain ⟨d, ds, rfl⟩ := exists_cons_of_ne_nil h
    simp [match_string, lookup_cons_ite, ParserVariant.reread, -mapM_map]
  | _ => simp [match_string, lookup_cons_ite, ParserVariant.reread, -mapM_map]

/-- The schema of the parser is no `null`, and its keys are sorted. -/
def ParserVariant.Ordered : ParserVariant F → Prop
  | .schema _ _ (some s) _ => s ≠ .scalar .null ∧ s.IsSorted
  | _ => True

theorem getSchema_sorted_eq_iff (s : JsonValue F) :
    getSchema s.sorted = some s ↔ s ≠ .scalar .null ∧ s.IsSorted := by
  rw [← Json.sorted_eq_iff]
  by_cases hs : s = .scalar .null
  · subst hs
    exact ⟨nofun, fun h => absurd rfl h.1⟩
  · have hsome : getSchema s.sorted = some s.sorted := by
      match s with
      | .scalar .null => exact absurd rfl hs
      | .scalar .discarded | .scalar (.boolean _) | .scalar (.unsigned _) => rfl
      | .scalar (.integer _) | .scalar (.float _) | .scalar (.string _) => rfl
      | .scalar (.binary _ _) => rfl
      | .array _ | .object _ => rfl
    rw [hsome, Option.some.injEq, and_iff_right hs]

/-- A parser is read as it was written, if its schema is ordered. -/
theorem ParserVariant.reread_eq_iff (p : ParserVariant F) : p.reread = p ↔ p.Ordered := by
  match p with
  | .schema child name (some s) raw =>
    rw [reread, Option.bind_some, ParserVariant.schema.injEq, Ordered, ← getSchema_sorted_eq_iff]
    exact ⟨fun h => h.2.2.1, fun h => ⟨rfl, rfl, h, rfl⟩⟩
  | .schema _ _ none _ => exact ⟨fun _ => trivial, fun _ => rfl⟩
  | .epsilon | .start | .end_ | .any | .space => exact ⟨fun _ => trivial, fun _ => rfl⟩
  | .literal _ | .sequence _ | .choice _ | .and_ _ | .not_ _ | .string _ | .until_ _ | .ref _ =>
    exact ⟨fun _ => trivial, fun _ => rfl⟩
  | .repetition .. | .chars .. | .rule .. | .atomic .. | .tag .. | .gbnf .. | .ac .. =>
    exact ⟨fun _ => trivial, fun _ => rfl⟩

/-- An AC parser without delimiters is refused. -/
theorem deserialize_serialize_ac (casts : FloatCasts F) (child : ParserId) :
    deserializeParserVariant casts (serializeParserVariant (.ac child [])) =
      .error (.runtime (text "ac parser requires 'child' and a non-empty 'delimiters' array")) := by
  unfold serializeParserVariant deserializeParserVariant
  simp [match_string, lookup_cons_ite]

/-- The ids of the rules and of the root are in the arena. -/
structure ArenaData.Valid (arena : ArenaData F) : Prop where
  rules : ∀ p ∈ arena.rules, p.2.toNat < arena.parsers.length
  root : arena.root = invalidParserId ∨ arena.root.toNat < arena.parsers.length

/-- The arena that is read. -/
def ArenaData.reread (arena : ArenaData F) : ArenaData F :=
  { arena with parsers := arena.parsers.map ParserVariant.reread }

variable {arena : ArenaData F}

theorem sortedKeys_map {α β : Type} {l : List (Text × α)} (h : SortedKeys l) (f : α → β) :
    SortedKeys (l.map fun p => (p.1, f p.2)) := by
  rw [sortedKeys_iff, map_map]
  exact sortedKeys_iff.mp h

/-- An arena is read, if its parsers are. -/
theorem fromJson_toJson_of_reads (hvalid : arena.Valid) (hreads : ∀ p ∈ arena.parsers, p.Reads) :
    ArenaData.fromJson casts arena.toJson = .ok arena.reread := by
  have hparsers : (arena.parsers.map serializeParserVariant).mapM (deserializeParserVariant casts) =
      .ok (arena.parsers.map ParserVariant.reread) :=
    mapM_map_ok fun p hp => deserialize_serialize p (hreads p hp)
  have hrules : (arena.rules.map fun p => (p.1, (jsonId p.2 : JsonValue F))).mapM
      (fun p => do .ok (p.1, ← getId casts p.2)) = .ok (arena.rules.map id) :=
    mapM_map_ok fun p _ => rfl
  have hrule : arena.rules.find? (fun p => arena.parsers.length ≤ p.2.toNat) = none :=
    find?_eq_none.mpr fun p hp h =>
      absurd (of_decide_eq_true h) (Nat.not_le.mpr (hvalid.rules p hp))
  have hroot : ¬ (arena.root ≠ invalidParserId ∧ arena.parsers.length ≤ arena.root.toNat) :=
    fun h => hvalid.root.elim h.1 fun hlt => absurd h.2 (Nat.not_le.mpr hlt)
  unfold ArenaData.toJson ArenaData.fromJson
  rw [mapOf_eq_self (sortedKeys_map arena.rules_sorted _)]
  simp [lookup_cons_ite, hparsers, hrules, mapOf_eq_self arena.rules_sorted, hrule, hroot,
    ArenaData.reread, -mapM_map]

/-- A list that has a value that cannot be read cannot be read. -/
theorem mapM_error {α β ε : Type} {g : α → Except ε β} {l : List α} {a : α} (ha : a ∈ l) {e : ε}
    (he : g a = .error e) (r : List β) : l.mapM g ≠ .ok r := by
  induction l generalizing r with
  | nil => cases ha
  | cons b l ih =>
    rw [mapM_cons]
    rcases mem_cons.mp ha with rfl | ha
    · rw [he]
      exact nofun
    · cases hb : g b with
      | error e => exact nofun
      | ok c =>
        cases hl : l.mapM g with
        | error e => exact nofun
        | ok cs => exact absurd hl (ih ha cs)

/-- An arena that is read has parsers that are. -/
theorem reads_of_fromJson {b : ArenaData F} (h : ArenaData.fromJson casts arena.toJson = .ok b) :
    ∀ p ∈ arena.parsers, p.Reads := by
  intro p hp
  by_contra hnot
  obtain ⟨child, rfl⟩ : ∃ child, p = .ac child [] := by
    cases p with
    | ac child delimiters => exact ⟨child, by rw [not_not.mp hnot]⟩
    | _ => exact absurd trivial hnot
  have herr := mapM_error (mem_map_of_mem (f := serializeParserVariant) hp)
    (deserialize_serialize_ac casts child)
  unfold ArenaData.toJson ArenaData.fromJson at h
  simp only [field_jsonObject, lookup_cons_ite] at h
  cases hl : (arena.parsers.map serializeParserVariant).mapM (deserializeParserVariant casts) with
  | error e =>
    simp only [if_true, String.reduceEq, if_false, hl] at h
    cases h
  | ok l => exact herr l hl

/-- The arena that is read is the one that was written, if the schemas are ordered. -/
theorem ArenaData.reread_eq_iff (arena : ArenaData F) :
    arena.reread = arena ↔ ∀ p ∈ arena.parsers, p.Ordered := by
  have hmap := map_inj_left (f := ParserVariant.reread) (g := id) (l := arena.parsers)
  rw [map_id] at hmap
  rw [ArenaData.reread, ArenaData.ext_iff, and_iff_left ⟨rfl, rfl⟩, hmap]
  exact forall₂_congr fun p _ => p.reread_eq_iff

/-- An arena is read as it was written if and only if every schema is ordered and no `null`, and no
AC parser is without delimiters. -/
theorem fromJson_toJson (hvalid : arena.Valid) : ArenaData.fromJson casts arena.toJson = .ok arena ↔
      ∀ p ∈ arena.parsers, p.Ordered ∧ p.Reads := by
  refine ⟨fun h p hp => ?_, fun h => ?_⟩
  · have hreads := reads_of_fromJson h
    rw [fromJson_toJson_of_reads hvalid hreads, Except.ok.injEq, arena.reread_eq_iff] at h
    exact ⟨h p hp, hreads p hp⟩
  · rw [fromJson_toJson_of_reads hvalid fun p hp => (h p hp).2, Except.ok.injEq,
      arena.reread_eq_iff]
    exact fun p hp => (h p hp).1

/-- No numbers with a fraction. -/
def noFloats : FloatCasts Empty := ⟨nofun, nofun, nofun⟩

/-- An arena with one schema. -/
def schemaArena (schema : JsonValue Empty) : ArenaData Empty where
  parsers := [.schema 0 (text "s") (some schema) false]
  rules := [(text "r", 0)]
  rules_sorted := List.pairwise_singleton _ _

theorem schemaArena_valid (schema : JsonValue Empty) : (schemaArena schema).Valid :=
  ⟨forall_mem_singleton.mpr Nat.zero_lt_one, .inl rfl⟩

/-- `{"a": null, "b": null}` is read as it was written. -/
theorem fromJson_toJson_sorted : ArenaData.fromJson noFloats
        (schemaArena (.object [(text "a", .scalar .null), (text "b", .scalar .null)])).toJson =
      .ok (schemaArena (.object [(text "a", .scalar .null), (text "b", .scalar .null)])) := by
  refine (fromJson_toJson (schemaArena_valid _)).mpr (forall_mem_singleton.mpr ⟨?_, trivial⟩)
  refine ⟨nofun, .object (sortedKeys_iff.mpr (by decide +kernel)) fun p hp => ?_⟩
  rcases mem_cons.mp hp with rfl | hp
  · exact .scalar
  · exact mem_singleton.mp hp ▸ .scalar

/-- `{"b": null, "a": null}` is not. -/
theorem not_fromJson_toJson :
    let arena := schemaArena (.object [(text "b", .scalar .null), (text "a", .scalar .null)])
    arena.Valid ∧ ArenaData.fromJson noFloats arena.toJson ≠ .ok arena := by
  refine ⟨schemaArena_valid _, fun h => ?_⟩
  rw [fromJson_toJson_of_reads (schemaArena_valid _) (forall_mem_singleton.mpr trivial),
    Except.ok.injEq, ArenaData.reread_eq_iff] at h
  have hsorted := (h _ mem_cons_self).2
  have hkeys := (pairwise_cons.mp (Json.isSorted_object.mp hsorted).1).1 _ mem_cons_self
  exact absurd hkeys (by decide +kernel)

end RoundTrip

/-! ## Parsing with what is read -/

section Parsing

variable {F : Type} {casts : FloatCasts F} (name : Text → String)

/-- What a parse reads of a parser; the names are given as strings. -/
def ParserVariant.toPegParser : ParserVariant F → PegParser
  | .epsilon => .epsilon
  | .start => .start
  | .end_ => .end_
  | .literal s => .literal s
  | .sequence children => .sequence (children.map UInt64.toNat)
  | .choice children => .choice (children.map UInt64.toNat)
  | .repetition child minCount maxCount =>
    .repetition child.toNat minCount.toInt maxCount.toInt
  | .and_ child => .and_ child.toNat
  | .not_ child => .not_ child.toNat
  | .any => .any
  | .space => .space
  | .chars _ ranges negated minCount maxCount =>
    .chars (ranges.map fun r => (r.1.toNat, r.2.toNat)) negated minCount.toInt maxCount.toInt
  | .string delimiter => .string delimiter
  | .until_ delimiters => .until_ delimiters
  | .schema child _ _ _ => .schema child.toNat
  | .rule n child _ => .rule (name n) child.toNat
  | .ref n => .ref (name n)
  | .atomic child => .atomic child.toNat
  | .tag child t => .tag child.toNat (name t)
  | .gbnf child _ => .gbnf child.toNat
  | .ac child _ => .ac child.toNat

/-- What a parse reads of an arena. -/
def ArenaData.toArena (arena : ArenaData F) : Arena where
  parsers := arena.parsers.map (ParserVariant.toPegParser name)
  rules := arena.rules.map fun p => (name p.1, p.2.toNat)
  root := arena.root.toNat

theorem toPegParser_reread (p : ParserVariant F) :
    p.reread.toPegParser name = p.toPegParser name := by
  cases p <;> rfl

/-- An arena that is read parses as the one that was written, whatever its schemas are. -/
theorem fromJson_toJson_parse {arena b : ArenaData F} (hvalid : arena.Valid)
    (h : ArenaData.fromJson casts arena.toJson = .ok b) (ctx : ParseContext) (fuel id start : Nat) :
    parse (b.toArena name) ctx fuel id start = parse (arena.toArena name) ctx fuel id start := by
  rw [fromJson_toJson_of_reads hvalid (reads_of_fromJson h), Except.ok.injEq] at h
  have heq : b.toArena name = arena.toArena name := by
    rw [← h, ArenaData.toArena, ArenaData.reread, map_map]
    exact congrArg (Arena.mk · _ _) (map_congr_left fun p _ => toPegParser_reread name p)
  rw [heq]

/-- A schema that is `null` is read as none. -/
theorem fromJson_toJson_parse_null :
    parse ((schemaArena (.scalar .null)).reread.toArena fun _ => "") ⟨[], true⟩ 1 0 0 =
      parse ((schemaArena (.scalar .null)).toArena fun _ => "") ⟨[], true⟩ 1 0 0 :=
  fromJson_toJson_parse _ (schemaArena_valid _) (show ArenaData.fromJson noFloats _ = .ok _ from
    fromJson_toJson_of_reads (schemaArena_valid _) (forall_mem_singleton.mpr trivial)) ..

end Parsing

end BeeLlama.Peg
