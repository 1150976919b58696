import ConfigTree.Json.Term
import ConfigTree.Scalar.Convert
import ConfigTree.Schema.Basic

/-!
# Payloads

A payload is a document written at a place. `Node.conform` brings it into the form in which the tree
holds it: member names without modules, scalars in the form of their kind. What the schema does not
describe is refused, and so are nulls. Ranges, enumerations and keys are checked afterwards, by
`Schema.validate`.
-/

namespace ConfigTree

/-- Data together with the place it belongs to. If the last element of the place has keys, the data
is one entry of a list; a list without keys has an array of entries. So the place decides how the
data is read, printed and checked. -/
structure Subtree where
  location : List Path.Elem
  data : Json

namespace Subtree

/-- The data of the whole tree. -/
def root (data : Json) : Subtree := ⟨[], data⟩

def isRoot (c : Subtree) : Bool := c.location.isEmpty

/-- Whether a place is that of one entry of a list. -/
def isEntryPlace (location : List Path.Elem) : Bool :=
  (location.getLast?.map (·.isKeyed)).getD false

end Subtree

namespace Schema

mutual

/-- The held form of a payload at a node. `entry` says that a list node stands for one entry. The
payload is normal already; members may still come together here, when their names differ in the
module alone. -/
def Node.conform (path : String) (entry : Bool) (n : Node) : Json → Except TreeError Json
  | .obj ms =>
    match n with
    | .container _ children =>
      (Node.conformMembers path children ms).map fun out => .obj (Members.ofList out)
    | .list _ _ children =>
      if entry then (Node.conformMembers path children ms).map fun out => .obj (Members.ofList out)
      else .error (.invalidValue path (.notList (.obj ms)))
    | .leaf _ k => canonicalScalar path k (.obj ms)
    | .leafList _ _ => .error (.invalidValue path (.notLeafList (.obj ms)))
  | .arr xs =>
    match n with
    | .container _ _ => .error (.invalidValue path (.notObject (.arr xs)))
    | .list _ _ children =>
      if entry then .error (.invalidValue path (.notObject (.arr xs)))
      else (Node.conformEntries path children xs).map .arr
    | .leaf _ k => canonicalScalar path k (.arr xs)
    | .leafList _ k => (xs.mapM (canonicalScalar path k)).map .arr
  | j =>
    match n with
    | .container _ _ => .error (.invalidValue path (.notObject j))
    | .list _ _ _ =>
      .error (.invalidValue path (if entry then .notObject j else .notList j))
    | .leaf _ k => canonicalScalar path k j
    | .leafList _ _ => .error (.invalidValue path (.notLeafList j))

/-- The entries of a list, each an object of its children. The first item that is no object or does
not conform decides; whether the entries have their keys is asked later. -/
def Node.conformEntries (path : String) (children : List (String × Node)) :
    List Json → Except TreeError (List Json)
  | [] => .ok []
  | .obj ms :: rest => do
    let out ← Node.conformMembers path children ms
    return .obj (Members.ofList out) :: (← Node.conformEntries path children rest)
  | j :: _ => .error (.invalidValue path (.notObject j))

/-- The members of an object under their plain names, in the order of the payload. They are not
sorted here: if two have one plain name, the caller lets the later one count. -/
def Node.conformMembers (path : String) (children : List (String × Node)) :
    List (String × Json) → Except TreeError (List (String × Json))
  | [] => .ok []
  | (name, j) :: rest =>
    let plain := localName name
    match Members.get? children plain with
    | none => .error (.unknownMember path name)
    | some child => do
      -- a null is refused where it stands for a member; elsewhere the kind of a leaf refuses it
      if j.isNull then throw (.invalidValue (memberPath path plain) .null)
      let held ← Node.conform (memberPath path plain) false child j
      return (plain, held) :: (← Node.conformMembers path children rest)

end

/-- The node for a place and the module it comes from. Other than a look-up in the tree it refuses
keys that are not those of the list. -/
def nodeAt (s : Schema) (location : List Path.Elem) : Except TreeError (Node × Option String) :=
  match s.root.walk? s.root.home location with
  | some found => .ok found
  | none => .error (.noSchemaNode (Path.textOf location))

/-- Reads a payload for a place. The place is looked up before the text is, so an unknown place is
reported whatever the text is. -/
def unmarshal (s : Schema) (r : Json.Reader) (location : List Path.Elem) (payload : ByteArray) :
    Except TreeError Subtree := do
  let (n, _) ← s.nodeAt location
  match Json.parseBytes? r payload with
  | none => throw .payloadMalformed
  | some raw =>
    let data ← n.conform (Path.textOf location) (Subtree.isEntryPlace location) raw
    return ⟨location, data⟩

end Schema

end ConfigTree
