import ConfigTree.Error
import ConfigTree.Message.Model

/-!
# Loading schemas

A schema is read from a document of its models and its root. The root has to be a container, and the
keys of each list have to be leaves of it. `Schema.load` is the whole of it; `Node.check` is the
part about lists.
-/

namespace ConfigTree.Schema

open Json

/-- Whether a child of that name is a leaf. A leaf-list is none: it has no single value whose text
could be the key. -/
def Node.isLeafChild (children : List (String × Node)) (name : String) : Bool :=
  match Members.get? children name with
  | some (.leaf _ _) => true
  | _ => false

/-- Refuses a list without keys, or with a key that is not a leaf of it. The first such key is
named, in the order of the schema. -/
def Node.checkKeys (path : String) (keys : List String) (children : List (String × Node)) :
    Except TreeError Unit :=
  if keys.isEmpty then .error (.invalidData path .listWithoutKeys)
  else
    match keys.find? fun key => !Node.isLeafChild children key with
    | some key => .error (.invalidData path (.keyNotLeaf key))
    | none => .ok ()

mutual

/-- Checks the lists of a node and of all nodes below, those above before those below them. Nothing
is asked of names, or of the kinds of leaves. -/
def Node.check (path : String) : Node → Except TreeError Unit
  | .container _ children => Node.checkChildren path children
  | .list _ keys children => do
    Node.checkKeys path keys children
    Node.checkChildren path children
  | .leaf _ _ | .leafList _ _ => .ok ()

def Node.checkChildren (path : String) : List (String × Node) → Except TreeError Unit
  | [] => .ok ()
  | (name, n) :: rest => do
    Node.check (memberPath path name) n
    Node.checkChildren path rest

end

/-- The document of a schema. -/
def toJson (s : Schema) : Json :=
  .obj [("models", .arr (s.models.map Model.toJson)), ("root", s.root.toJson)]

/-- The models and the root of a document. -/
def ofTerm? (r : Reader) (room : Nat) (t : Term) : Option Schema := do
  let (room, fs) ← Term.record? ["models", "root"] room t
  return {
    models := ← Term.defaulted? fs "models" [] (Term.list? Model.ofTerm? room)
    root := ← Term.required? fs "root" (Node.ofTerm? r room) }

/-- Reads a schema from the text of its document. The root has to be a container, so that the tree
is an object. -/
def load (r : Reader) (text : String) : Except TreeError Schema :=
  match (Term.parse? text).bind (ofTerm? r Term.maxDepth) with
  | none => .error .schemaMalformed
  | some s =>
    if s.root.isContainer then (s.root.check "/").map fun _ => s
    else .error .schemaRoot

end ConfigTree.Schema
