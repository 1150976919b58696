import ConfigTree.Scalar.Convert
import ConfigTree.Schema.Basic

/-!
# Stepping into a tree

A tree is held as the members of its root, an object. Containers are objects, lists are arrays of
entries, which are objects again. An entry is found by the texts of its keys, the first one of the
array counting.

`descend` takes one step from a node's members to a child, on request adding a container or an entry
that is missing. `modifyAt` changes the members of the node at the end of a path and puts the result
back in its place.
-/

namespace ConfigTree.Tree

open Schema (Node)
open ConfigTree.Path (Elem)

/-- The members of an object. -/
abbrev Object := List (String × Json)

/-! ### Entries of lists -/

/-- Whether the members of an entry have the texts of all given keys. It is texts that are compared,
so a number and a string that are written alike select the same entry; a key that is not asked for
may be anything. -/
def hasKeys (members : Object) (keys : List (String × String)) : Bool :=
  keys.all fun key =>
    match Members.get? members key.1 with
    | some held => keyString held == key.2
    | none => false

/-- Whether an item of a list is an entry with the texts of all given keys. -/
def isEntryWith (keys : List (String × String)) (j : Json) : Bool :=
  match j.obj? with
  | some members => hasKeys members keys
  | none => false

/-- The first entry with the texts of the keys and its number, every item before it being an object.
Items behind it are not looked at. -/
def findKeyed? (e : Elem) : List Json → Except TreeError (Option (Nat × Json))
  | [] => .ok none
  | .obj members :: rest =>
    if hasKeys members e.keys then .ok (some (0, .obj members))
    else (findKeyed? e rest).map fun found => found.map fun (i, j) => (i + 1, j)
  | _ :: _ => .error (.wrongNode e.text .entryNotObject)

/-- The keys of an element in the form in which an entry of a list holds them. A text that is no
number of a numeric key stays a text; it is the check of the whole tree that refuses it. -/
def keyMembers (list : Node) (e : Elem) : Object :=
  e.keys.map fun key => (key.1, keyValue key.2 ((list.child? key.1).bind Node.scalar?))

/-- A new entry of a list, with nothing but its keys, and only those that the element gives. If
there are too few of them and what is written does not bring the others, the check of the whole tree
finds that out. -/
def newEntry (list : Node) (e : Elem) : Json := .obj (keyMembers list e)

/-- The element that addresses an entry: its name and the texts of the keys it has. -/
def entryElem (name : String) (keys : List String) (members : Object) : Elem :=
  Elem.ofKeys (localName name) <|
    keys.filterMap fun key => (Members.get? members key).map fun held => (key, keyString held)

/-! ### Children -/

/-- The schema of the child that an element names. Only lists have keys; which keys they are is not
asked here, unlike in `Schema.Node.walk?`. -/
def childSchema (n : Node) (e : Elem) : Except TreeError Node :=
  match n.child? e.name with
  | none => .error (.noSchemaNode e.text)
  | some child => if e.isKeyed && !child.isList then .error (.noSchemaNode e.text) else .ok child

/-- Where a child stands among the members of its parent. It is told by a name or a number, not by
the keys that have selected it, so it can be filled again after these have changed. -/
inductive Slot where
  | member (name : String)
  | entry (list : String) (index : Nat)
deriving DecidableEq, Repr

/-- Puts a value in a place. The place of an entry has to be there already: `put` adds no entry. -/
def Slot.put (members : Object) (value : Json) : Slot → Object
  | .member name => Members.insert members name value
  | .entry list i =>
    match Members.get? members list with
    | some (.arr xs) => Members.insert members list (.arr (xs.set i value))
    | _ => members

/-- A child: the members of its parent, with what has been added, its place and its value. Nothing
has been added yet to the tree that the members came from. -/
structure Child where
  members : Object
  slot : Slot
  value : Json

/-- The entry of a list that an element selects. With `create`, a missing entry is added at the end,
and the list with it if that is missing too. -/
def findOrCreate (members : Object) (list : Node) (e : Elem) (create : Bool) :
    Except TreeError (Option Child) :=
  let name := localName e.name
  let fresh := newEntry list e
  match Members.get? members name with
  | none =>
    if create then .ok (some ⟨Members.insert members name (.arr [fresh]), .entry name 0, fresh⟩)
    else .ok none
  | some (.arr xs) =>
    match findKeyed? e xs with
    | .error err => .error err
    | .ok (some (i, found)) => .ok (some ⟨members, .entry name i, found⟩)
    | .ok none =>
      if create then
        -- a new entry comes last, so the entries that are there keep their numbers
        let extended := Members.insert members name (.arr (xs ++ [fresh]))
        .ok (some ⟨extended, .entry name xs.length, fresh⟩)
      else .ok none
  | some _ => .error (.wrongNode e.text .notKeyedList)

/-- The child that an element without keys names. With `create`, a missing one is added as an empty
container, whatever the schema has in its place: a write that goes on from there is checked as a
whole. -/
def findOrCreateMember (members : Object) (e : Elem) (create : Bool) : Option Child :=
  let name := localName e.name
  match Members.get? members name with
  | some found => some ⟨members, .member name, found⟩
  | none =>
    if create then some ⟨Members.insert members name (.obj []), .member name, .obj []⟩
    else none

/-- One step: the child that an element selects and its schema. The step fails if the schema does
not have the child, and finds nothing if the tree does not. -/
def descend (members : Object) (n : Node) (e : Elem) (create : Bool) :
    Except TreeError (Option (Child × Node)) := do
  let child ← childSchema n e
  let found ←
    if e.isKeyed then findOrCreate members child e create
    else pure (findOrCreateMember members e create)
  return found.map fun c => (c, child)

/-! ### Changes below a path -/

/-- Why there is no node with members at the end of a path: the schema or the tree refuses a step,
there is nothing to step to, or what is there has no members. What each of them means is left to the
caller: for a deletion all of them are the same, for a write none. -/
inductive Obstacle where
  | failed (e : TreeError)
  | absent (e : Elem)
  | notObject (e : Elem) (value : Json)

/-- Applies `f` to the members and the schema of the node at the end of a path. What it gives for
members takes their place; `create` adds what is missing on the way. If there is an obstacle on the
way, nothing of what has been added is kept. -/
def modifyAt {β : Type} (create : Bool) (f : Object → Node → β × Object) :
    List Elem → Object → Node → Except Obstacle (β × Object)
  | [], members, n => .ok (f members n)
  | e :: rest, members, n =>
    match descend members n e create with
    | .error err => .error (.failed err)
    | .ok none => .error (.absent e)
    | .ok (some (child, below)) =>
      match child.value with
      | .obj inner =>
        -- on the way back each child is put into the place where it was found
        (modifyAt create f rest inner below).map fun (out, inner) =>
          (out, child.slot.put child.members (.obj inner))
      | value => .error (.notObject e value)

end ConfigTree.Tree
