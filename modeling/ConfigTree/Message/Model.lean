import ConfigTree.Json.Record
import ConfigTree.Schema.Basic

/-!
# Schemas as documents

The forms of models, scalar kinds and schema nodes in documents. The kind of a scalar is tagged by
`base`, that of a node by `kind`. The tag of a record inside another tagged record may also be the
kind's number in the order of the declarations.
-/

namespace ConfigTree

open Json

namespace Model

def toJson (m : Model) : Json :=
  .obj [("name", .str m.name), ("organization", .str m.organization), ("version", .str m.version)]

def ofTerm? (room : Nat) (t : Term) : Option Model := do
  let (_, fs) ← Term.record? ["name", "organization", "version"] room t
  return {
    name := ← Term.required? fs "name" Term.asString?
    organization := ← Term.defaulted? fs "organization" "" Term.asString?
    version := ← Term.defaulted? fs "version" "" Term.asString? }

end Model

/-- The kind that a tag names: by name, or inside another tagged record by number. -/
def tagName? (names : List String) (nested : Bool) (tag : Term) : Option String :=
  match tag with
  | .string (some name) => if names.contains name then some name else none
  | .number _ => if nested then tag.asUInt64?.bind fun n => names[n.toNat]? else none
  | _ => none

namespace ScalarKind

def toJson : ScalarKind → Json
  | .string => .obj [("base", .str "string")]
  | .int bits => .obj [("base", .str "int"), ("bits", .num (.ofUInt64 bits.toUInt64))]
  | .uint bits => .obj [("base", .str "uint"), ("bits", .num (.ofUInt64 bits.toUInt64))]
  | .bool => .obj [("base", .str "bool")]
  | .decimal => .obj [("base", .str "decimal")]
  | .enumeration values => .obj [("base", .str "enumeration"), ("values", .arr (values.map .str))]
  | .binary => .obj [("base", .str "binary")]

/-- The names of the kinds. -/
def bases : List String := ["string", "int", "uint", "bool", "decimal", "enumeration", "binary"]

/-- The fields of a kind without its tag. -/
def ofFields? (base : String) (room : Nat) (rest : Term) : Option ScalarKind :=
  match base with
  | "string" => (rest.fields? []).map fun _ => .string
  | "int" => do return .int (← Term.required? (← rest.fields? ["bits"]) "bits" Term.asUInt8?)
  | "uint" => do return .uint (← Term.required? (← rest.fields? ["bits"]) "bits" Term.asUInt8?)
  | "bool" => (rest.fields? []).map fun _ => .bool
  | "decimal" => (rest.fields? []).map fun _ => .decimal
  | "enumeration" => do
    let values := Term.list? (fun _ => Term.asString?) room
    return .enumeration (← Term.required? (← rest.fields? ["values"]) "values" values)
  | "binary" => (rest.fields? []).map fun _ => .binary
  | _ => none

/-- Reads a kind whose parts are known to have values. -/
def ofReadable? (nested : Bool) (room : Nat) (t : Term) : Option ScalarKind := do
  let (tag, rest) ← t.tagged? "base"
  ofFields? (← tagName? bases nested tag) room rest

def ofTerm? (r : Reader) (room : Nat) (t : Term) : Option ScalarKind :=
  (t.read? r room).bind fun _ => ofReadable? false room t

end ScalarKind

namespace Schema.Node

/-- The member for the module of a node, if it names one. -/
def homeMember : Option String → List (String × Json)
  | none => []
  | some m => [("module", .str m)]

mutual

def toJson : Node → Json
  | .container home children =>
    .obj ([("kind", .str "container")] ++ homeMember home
      ++ [("children", .obj (childrenToJson children))])
  | .list home keys children =>
    .obj ([("kind", .str "list")] ++ homeMember home
      ++ [("keys", .arr (keys.map .str)), ("children", .obj (childrenToJson children))])
  | .leaf home kind =>
    .obj ([("kind", .str "leaf")] ++ homeMember home ++ [("type", kind.toJson)])
  | .leafList home kind =>
    .obj ([("kind", .str "leaf-list")] ++ homeMember home ++ [("type", kind.toJson)])

def childrenToJson : List (String × Node) → List (String × Json)
  | [] => []
  | (name, n) :: rest => (name, toJson n) :: childrenToJson rest

end

/-- The names of the kinds. -/
def kinds : List String := ["container", "list", "leaf", "leaf-list"]

/-- Reads a node whose parts are known to have values and to be no deeper than `room`. -/
def ofReadable? : Nat → Bool → Term → Option Node
  | 0, _, _ => none
  | room + 1, nested, t => do
    let (tag, rest) ← t.tagged? "kind"
    let home (fs : List (String × Term)) := Term.optional? fs "module" Term.asString?
    let children (fs : List (String × Term)) :=
      Term.defaulted? fs "children" [] (Term.map? (fun _ => ofReadable? room true) (room + 1))
    let kind (fs : List (String × Term)) :=
      Term.required? fs "type" (ScalarKind.ofReadable? true (room + 1))
    match ← tagName? kinds nested tag with
    | "container" =>
      let fs ← rest.fields? ["module", "children"]
      return .container (← home fs) (← children fs)
    | "list" =>
      let fs ← rest.fields? ["module", "keys", "children"]
      let keys ← Term.required? fs "keys" (Term.list? (fun _ => Term.asString?) (room + 1))
      return .list (← home fs) keys (← children fs)
    | "leaf" =>
      let fs ← rest.fields? ["module", "type"]
      return .leaf (← home fs) (← kind fs)
    | "leaf-list" =>
      let fs ← rest.fields? ["module", "type"]
      return .leafList (← home fs) (← kind fs)
    | _ => none

def ofTerm? (r : Reader) (room : Nat) (t : Term) : Option Node :=
  (t.read? r room).bind fun _ => ofReadable? room false t

end Schema.Node

end ConfigTree
