import ConfigTree.Message.Basic
import ConfigTree.Message.Model
import ConfigTree.Text.Utf8

/-!
# Messages as documents

Each message has a document, `toJson`, and is read from a term by `ofTerm?`, which takes how deep
the term may still go. A field that has a default may be left out. The document of a subtree inside
a message is a string.
-/

namespace ConfigTree

open Json

/-! ### Paths -/

namespace Path

def Elem.toJson (e : Elem) : Json :=
  .obj ([("name", .str e.name)]
    ++ if e.isKeyed then [("keys", .obj (e.keys.map fun k => (k.1, .str k.2)))] else [])

def Elem.ofTerm? (room : Nat) (t : Term) : Option Elem := do
  let (room, fs) ← Term.record? ["name", "keys"] room t
  let name ← Term.required? fs "name" Term.asString?
  let keys ← Term.defaulted? fs "keys" [] (Term.map? (fun _ => Term.asString?) room)
  return Elem.ofKeys name keys

def toJson (p : Path) : Json :=
  .obj ((match p.origin with
      | some o => [("origin", .str o)]
      | none => [])
    ++ [("elem", .arr (p.elems.map Elem.toJson))])

def ofTerm? (room : Nat) (t : Term) : Option Path := do
  let (room, fs) ← Term.record? ["origin", "elem"] room t
  return {
    origin := ← Term.optional? fs "origin" Term.asString?
    elems := ← Term.defaulted? fs "elem" [] (Term.list? Elem.ofTerm? room) }

/-- The member for the base of a message's paths, if there is one. -/
def baseMember (base : Option Path) : List (String × Json) :=
  match base with
  | some p => [("prefix", p.toJson)]
  | none => []

/-- The document of a path that may be missing. -/
def orNull (base : Option Path) : Json :=
  match base with
  | some p => p.toJson
  | none => .null

end Path

/-! ### Values -/

namespace TypedValue

mutual

def toJson : TypedValue → Json
  | .string s => .obj [("string_val", .str s)]
  | .int n => .obj [("int_val", .num (.ofInt64 n))]
  | .uint n => .obj [("uint_val", .num (.ofUInt64 n))]
  | .bool b => .obj [("bool_val", .bool b)]
  | .bytes b =>
    .obj [("bytes_val", .arr (b.data.toList.map fun x => .num (.ofUInt64 x.toUInt64)))]
  | .float (.finite x) => .obj [("float_val", .num (.float x))]
  | .float _ => .obj [("float_val", .null)]
  | .json d => .obj [("json_val", .str (Text.decodeLossy d))]
  | .jsonIetf d => .obj [("json_ietf_val", .str (Text.decodeLossy d))]
  | .leafList items => .obj [("leaf_list_val", .arr (itemsToJson items))]

def itemsToJson : List TypedValue → List Json
  | [] => []
  | v :: vs => toJson v :: itemsToJson vs

end

def ofTerm? (r : Reader) : Nat → Term → Option TypedValue
  | room + 1, .object [(some name, t)] =>
    match name with
    | "string_val" => t.asString?.map .string
    | "int_val" => t.asInt64?.map .int
    | "uint_val" => t.asUInt64?.map .uint
    | "bool_val" => t.asBool?.map .bool
    | "bytes_val" =>
      (Term.list? (fun _ => Term.asUInt8?) room t).map fun bs => .bytes ⟨bs.toArray⟩
    | "float_val" => (t.asBinary64? r).map fun x => .float (.finite x)
    | "json_val" => t.asString?.map fun s => .json s.toByteArray
    | "json_ietf_val" => t.asString?.map fun s => .jsonIetf s.toByteArray
    | "leaf_list_val" =>
      match room, t with
      | inner + 1, .array xs => (xs.mapM (ofTerm? r inner)).map .leafList
      | _, _ => none
    | _ => none
  | _, _ => none

end TypedValue

namespace Encoding

def toJson (e : Encoding) : Json := .str e.name

def ofTerm? (room : Nat) (t : Term) : Option Encoding := (t.unitChoice? room).bind ofName?

end Encoding

namespace Update

def toJson (u : Update) : Json := .obj [("path", u.path.toJson), ("val", u.value.toJson)]

def ofTerm? (r : Reader) (room : Nat) (t : Term) : Option Update := do
  let (room, fs) ← Term.record? ["path", "val"] room t
  return {
    path := ← Term.required? fs "path" (Path.ofTerm? room)
    value := ← Term.required? fs "val" (TypedValue.ofTerm? r room) }

end Update

namespace Notification

def toJson (n : Notification) : Json :=
  .obj ([("timestamp", .num (.ofInt64 n.timestamp))] ++ Path.baseMember n.base
    ++ [("update", .arr (n.updates.map Update.toJson))]
    ++ if n.deletes.isEmpty then [] else [("delete", .arr (n.deletes.map Path.toJson))])

def ofTerm? (r : Reader) (room : Nat) (t : Term) : Option Notification := do
  let (room, fs) ← Term.record? ["timestamp", "prefix", "update", "delete"] room t
  return {
    timestamp := ← Term.required? fs "timestamp" Term.asInt64?
    base := ← Term.optional? fs "prefix" (Path.ofTerm? room)
    updates := ← Term.defaulted? fs "update" [] (Term.list? (Update.ofTerm? r) room)
    deletes := ← Term.defaulted? fs "delete" [] (Term.list? Path.ofTerm? room) }

end Notification

/-! ### Capabilities -/

namespace Capabilities

def toJson (c : Capabilities) : Json :=
  .obj [("supported_models", .arr (c.models.map Model.toJson)),
    ("supported_encodings", .arr (c.encodings.map Encoding.toJson)),
    ("gnmi_version", .str c.protocolVersion)]

def ofTerm? (room : Nat) (t : Term) : Option Capabilities := do
  let (room, fs) ←
    Term.record? ["supported_models", "supported_encodings", "gnmi_version"] room t
  return {
    models := ← Term.required? fs "supported_models" (Term.list? Model.ofTerm? room)
    encodings := ← Term.required? fs "supported_encodings" (Term.list? Encoding.ofTerm? room)
    protocolVersion := ← Term.required? fs "gnmi_version" Term.asString? }

end Capabilities

/-- Reads a message without fields. -/
def emptyOfTerm? (room : Nat) (t : Term) : Option Unit := (Term.record? [] room t).map fun _ => ()

/-! ### Get -/

namespace DataType

def toJson (d : DataType) : Json := .str d.name

def ofTerm? (room : Nat) (t : Term) : Option DataType := (t.unitChoice? room).bind ofName?

end DataType

namespace GetRequest

def toJson (q : GetRequest) : Json :=
  .obj [("prefix", Path.orNull q.base), ("path", .arr (q.paths.map Path.toJson)),
    ("type", q.dataType.toJson), ("encoding", q.encoding.toJson),
    ("use_models", .arr (q.models.map Model.toJson))]

def ofTerm? (room : Nat) (t : Term) : Option GetRequest := do
  let (room, fs) ← Term.record? ["prefix", "path", "type", "encoding", "use_models"] room t
  return {
    base := ← Term.optional? fs "prefix" (Path.ofTerm? room)
    paths := ← Term.defaulted? fs "path" [] (Term.list? Path.ofTerm? room)
    dataType := ← Term.defaulted? fs "type" .all (DataType.ofTerm? room)
    encoding := ← Term.defaulted? fs "encoding" .json (Encoding.ofTerm? room)
    models := ← Term.defaulted? fs "use_models" [] (Term.list? Model.ofTerm? room) }

end GetRequest

namespace GetResponse

def toJson (a : GetResponse) : Json :=
  .obj [("notification", .arr (a.notifications.map Notification.toJson))]

def ofTerm? (r : Reader) (room : Nat) (t : Term) : Option GetResponse := do
  let (room, fs) ← Term.record? ["notification"] room t
  return ⟨← Term.required? fs "notification" (Term.list? (Notification.ofTerm? r) room)⟩

end GetResponse

/-! ### Set -/

namespace SetRequest

def toJson (q : SetRequest) : Json :=
  .obj [("prefix", Path.orNull q.base), ("delete", .arr (q.deletes.map Path.toJson)),
    ("replace", .arr (q.replaces.map Update.toJson)),
    ("update", .arr (q.updates.map Update.toJson))]

def ofTerm? (r : Reader) (room : Nat) (t : Term) : Option SetRequest := do
  let (room, fs) ← Term.record? ["prefix", "delete", "replace", "update"] room t
  return {
    base := ← Term.optional? fs "prefix" (Path.ofTerm? room)
    deletes := ← Term.defaulted? fs "delete" [] (Term.list? Path.ofTerm? room)
    replaces := ← Term.defaulted? fs "replace" [] (Term.list? (Update.ofTerm? r) room)
    updates := ← Term.defaulted? fs "update" [] (Term.list? (Update.ofTerm? r) room) }

end SetRequest

namespace Operation

def toJson (o : Operation) : Json := .str o.name

def ofTerm? (room : Nat) (t : Term) : Option Operation := (t.unitChoice? room).bind ofName?

end Operation

namespace UpdateResult

def toJson (u : UpdateResult) : Json :=
  .obj [("path", u.path.toJson), ("op", u.operation.toJson)]

def ofTerm? (room : Nat) (t : Term) : Option UpdateResult := do
  let (room, fs) ← Term.record? ["path", "op"] room t
  return {
    path := ← Term.required? fs "path" (Path.ofTerm? room)
    operation := ← Term.required? fs "op" (Operation.ofTerm? room) }

end UpdateResult

namespace SetResponse

def toJson (a : SetResponse) : Json :=
  .obj (Path.baseMember a.base
    ++ [("response", .arr (a.results.map UpdateResult.toJson)),
      ("timestamp", .num (.ofInt64 a.timestamp))])

def ofTerm? (room : Nat) (t : Term) : Option SetResponse := do
  let (room, fs) ← Term.record? ["prefix", "response", "timestamp"] room t
  return {
    base := ← Term.optional? fs "prefix" (Path.ofTerm? room)
    results := ← Term.required? fs "response" (Term.list? UpdateResult.ofTerm? room)
    timestamp := ← Term.required? fs "timestamp" Term.asInt64? }

end SetResponse

/-! ### Subscribe -/

namespace ListMode

def toJson (m : ListMode) : Json := .str m.name

def ofTerm? (room : Nat) (t : Term) : Option ListMode := (t.unitChoice? room).bind ofName?

end ListMode

namespace SendMode

def toJson (m : SendMode) : Json := .str m.name

def ofTerm? (room : Nat) (t : Term) : Option SendMode := (t.unitChoice? room).bind ofName?

end SendMode

namespace Subscription

def toJson (s : Subscription) : Json :=
  .obj [("path", s.path.toJson), ("mode", s.mode.toJson),
    ("sample_interval", .num (.ofUInt64 s.interval))]

def ofTerm? (room : Nat) (t : Term) : Option Subscription := do
  let (room, fs) ← Term.record? ["path", "mode", "sample_interval"] room t
  return {
    path := ← Term.required? fs "path" (Path.ofTerm? room)
    mode := ← Term.defaulted? fs "mode" .targetDefined (SendMode.ofTerm? room)
    interval := ← Term.defaulted? fs "sample_interval" 0 Term.asUInt64? }

end Subscription

namespace SubscriptionList

def toJson (l : SubscriptionList) : Json :=
  .obj [("prefix", Path.orNull l.base),
    ("subscription", .arr (l.subscriptions.map Subscription.toJson)), ("mode", l.mode.toJson),
    ("allow_aggregation", .bool l.allowAggregation),
    ("use_models", .arr (l.models.map Model.toJson)), ("encoding", l.encoding.toJson),
    ("updates_only", .bool l.updatesOnly)]

def ofTerm? (room : Nat) (t : Term) : Option SubscriptionList := do
  let (room, fs) ← Term.record? ["prefix", "subscription", "mode", "allow_aggregation",
    "use_models", "encoding", "updates_only"] room t
  return {
    base := ← Term.optional? fs "prefix" (Path.ofTerm? room)
    subscriptions := ← Term.defaulted? fs "subscription" [] (Term.list? Subscription.ofTerm? room)
    mode := ← Term.defaulted? fs "mode" .stream (ListMode.ofTerm? room)
    allowAggregation := ← Term.defaulted? fs "allow_aggregation" false Term.asBool?
    models := ← Term.defaulted? fs "use_models" [] (Term.list? Model.ofTerm? room)
    encoding := ← Term.defaulted? fs "encoding" .json (Encoding.ofTerm? room)
    updatesOnly := ← Term.defaulted? fs "updates_only" false Term.asBool? }

end SubscriptionList

namespace SubscribeRequest

def toJson : SubscribeRequest → Json
  | .subscribe list => .obj [("subscribe", list.toJson)]
  | .poll => .obj [("poll", .obj [])]

def ofTerm? (room : Nat) (t : Term) : Option SubscribeRequest := do
  let (name, t, room) ← t.choice? room
  match name with
  | "subscribe" => (SubscriptionList.ofTerm? room t).map .subscribe
  | "poll" => (emptyOfTerm? room t).map fun _ => .poll
  | _ => none

end SubscribeRequest

namespace Code

def toJson (c : Code) : Json := .str c.name

def ofTerm? (room : Nat) (t : Term) : Option Code := (t.unitChoice? room).bind ofName?

end Code

namespace Status

def toJson (s : Status) : Json := .obj [("code", s.code.toJson), ("message", .str s.message)]

def ofTerm? (room : Nat) (t : Term) : Option Status := do
  let (room, fs) ← Term.record? ["code", "message"] room t
  return {
    code := ← Term.required? fs "code" (Code.ofTerm? room)
    message := ← Term.defaulted? fs "message" "" Term.asString? }

end Status

namespace SubscribeResponse

def toJson : SubscribeResponse → Json
  | .update n => .obj [("update", n.toJson)]
  | .sync done => .obj [("sync_response", .bool done)]
  | .error status => .obj [("error", status.toJson)]

def ofTerm? (r : Reader) (room : Nat) (t : Term) : Option SubscribeResponse := do
  let (name, t, room) ← t.choice? room
  match name with
  | "update" => (Notification.ofTerm? r room t).map .update
  | "sync_response" => t.asBool?.map .sync
  | "error" => (Status.ofTerm? room t).map .error
  | _ => none

end SubscribeResponse

end ConfigTree
