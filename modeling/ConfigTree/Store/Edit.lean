import ConfigTree.Schema.Validate
import ConfigTree.Store.Error
import ConfigTree.Tree.Delete

/-!
# Edits of a tree

An edit deletes the node at a path or writes a value there. A deletion of what is not there does
nothing; where it does something, the containers it leaves empty go as well. A write first checks
its value against the schema, then creates what is missing on the way. A write that replaces leaves
nothing of what was there; one that updates keeps, of a container or an entry, the members that the
value does not name. The keys of an entry are those of the path in either case.
-/

namespace ConfigTree

open ConfigTree.Tree (Object)
open ConfigTree.Path (Elem)
open Schema (Node)

/-- What a write does with what is there already. -/
inductive WriteMode where
  | replace
  | update
deriving DecidableEq, Repr

/-- A change of the tree at a path from the root. All that a request asks for comes down to these
two. -/
inductive Edit where
  | delete (path : Path)
  | write (mode : WriteMode) (path : Path) (value : TypedValue)

namespace Edit

/-! ### Deletion -/

/-- Removes the child that an element selects: whether there was one, and the members without it.
Without keys this is a member, also if it is a list with all its entries. -/
def removeChild (e : Elem) (members : Object) : Except TreeError (Bool × Object) :=
  if e.isKeyed then Tree.deleteEntry members e
  else
    let name := localName e.name
    .ok (Members.contains members name, Members.erase members name)

/-- Deletes the node at a path: whether there was one, and the tree without it. An obstacle on the
way means that there is nothing to delete. A failure of the last step, or of the pruning after it,
is reported. -/
def deleteAt (s : Schema) (p : Path) (tree : Object) : Except StoreError (Bool × Object) :=
  match p.splitLast? with
  | none => .ok (!tree.isEmpty, [])
  | some (parent, last) =>
    -- a failure leaves the members as they are
    let remove (members : Object) (_ : Node) : Except TreeError Bool × Object :=
      match removeChild last members with
      | .ok (removed, rest) => (.ok removed, rest)
      | .error e => (.error e, members)
    match Tree.modifyAt false remove parent tree s.root with
    | .error _ => .ok (false, tree)
    | .ok (.error e, _) => .error (.navigation p.text e)
    | .ok (.ok false, _) => .ok (false, tree)
    | .ok (.ok true, rest) =>
      -- what the deletion has left empty goes along, but nothing beside the path does
      match Tree.prune parent rest s.root with
      | .error e => .error (.navigation p.text e)
      | .ok pruned => .ok (true, pruned)

/-! ### Writing -/

/-- The text of the payload that a value is at a node: a scalar for leaves, a document else. A
scalar is written out, so that it is read by the same rules as the leaf of a document. -/
def payload (n : Node) (place : String) (value : TypedValue) : Except StoreError ByteArray :=
  if n.isLeaf then
    match value.toHeld place with
    | .ok held => .ok held.bytes
    | .error e => .error (.invalidValue place e)
  else
    match value.document? with
    | some document => .ok document
    | none => .error (.notDocument place)

/-- The data that a value is at a path, valid there. Nothing is asked of the tree: whether the data
fits beside what is there is found out when it is put there. -/
def dataAt (s : Schema) (r : Json.Reader) (p : Path) (value : TypedValue) :
    Except StoreError Json :=
  match s.resolve? p.elems with
  | none => .error (.noSchemaNode p.text)
  | some n => do
    let text ← payload n p.text value
    let c ← (s.unmarshal r p.elems text).mapError (.invalidValue p.text)
    (s.validate c).mapError (.invalidValue p.text)
    return c.data

/-- Writes a member. An update of an object by an object keeps the members it does not name; below
these nothing is merged. -/
def putMember (mode : WriteMode) (name : String) (data : Json) (members : Object) : Object :=
  match mode, data, Members.get? members name with
  -- a container and an entry are objects; leaves and whole lists are replaced
  | .update, .obj new, some (.obj old) =>
    Members.insert members name (.obj (Members.insertAll old new))
  | _, _, _ => Members.insert members name data

/-- Whether a member is a key of an element that has another text there. -/
def contradicts (e : Elem) (member : String × Json) : Bool :=
  match Members.get? e.keys member.1 with
  | some text => keyString member.2 != text
  | none => false

/-- The members of an entry after a write of `new`, which must agree with the keys of the path.
Where it does, what is held for a key is as `new` has it. -/
def entryMembers (mode : WriteMode) (list : Node) (e : Elem) (place : String)
    (old new : Object) : Except StoreError Object :=
  match new.find? (contradicts e) with
  | some member => .error (.keyConflict place member.1)
  | none =>
    let kept := match mode with
      | .replace => []
      | .update => old
    -- the keys of the path come before the members of the data, which may hold them in another form
    .ok (Members.insertAll (Members.insertAll kept (Tree.keyMembers list e)) new)

/-- Writes the entry of a list that an element selects, and adds it if it is missing. The data has
to be an object. It is checked against the keys of the path here, while the schema has been asked
already. -/
def putEntry (mode : WriteMode) (list : Node) (e : Elem) (place : String) (data : Json)
    (members : Object) : Except StoreError Object :=
  match Tree.findOrCreate members list e true with
  | .error err => .error (.navigation place err)
  | .ok none => .error (.elemNotFound e.text)
  | .ok (some child) =>
    match child.value, data with
    | .obj old, .obj new =>
      (entryMembers mode list e place old new).map fun entry =>
        child.slot.put child.members (.obj entry)
    | .obj _, _ => .error (.notEntry place)
    | _, _ => .error (.wrongNode place .entryNotObject)

/-- Writes the child that an element selects. Whether the element has keys decides, and not the
schema: a list without keys is written as one value, with all its entries. -/
def putChild (mode : WriteMode) (e : Elem) (place : String) (data : Json) (members : Object)
    (n : Node) : Except StoreError Object :=
  if e.isKeyed then
    match n.child? e.name with
    | none => .error (.noSchemaNode place)
    | some list => putEntry mode list e place data members
  else .ok (putMember mode (localName e.name) data members)

/-- What an obstacle on the way to a path is for a write. A list in the way is told apart from other
data, since it is the path that names no entry of it. -/
def obstacleError (place : String) : Tree.Obstacle → StoreError
  | .failed e => .navigation place e
  | .absent e => .elemNotFound e.text
  | .notObject e (.arr _) => .incompatibleElem e.text
  | .notObject e found => .wrongNode place (.notContainer e.text found)

/-- Puts valid data at a path. What is missing on the way to its last element is created, the entry
or member itself included. -/
def putAt (s : Schema) (mode : WriteMode) (p : Path) (data : Json) (tree : Object) :
    Except StoreError Object :=
  match p.splitLast? with
  | none =>
    match data with
    | .obj members => .ok members
    | _ => .error .rootNotTree
  | some (parent, last) =>
    let put (members : Object) (n : Node) : Except StoreError Unit × Object :=
      match putChild mode last p.text data members n with
      | .ok changed => (.ok (), changed)
      | .error e => (.error e, members)
    match Tree.modifyAt true put parent tree s.root with
    | .error obstacle => .error (obstacleError p.text obstacle)
    | .ok (.error e, _) => .error e
    | .ok (.ok (), changed) => .ok changed

/-- Writes a value at a path. The root can be replaced, but not updated, and that is asked before
anything about the value. -/
def writeAt (s : Schema) (r : Json.Reader) (mode : WriteMode) (p : Path) (value : TypedValue)
    (tree : Object) : Except StoreError Object :=
  if p.isRoot && mode == .update then .error .rootUpdate
  else do
    let data ← dataAt s r p value
    putAt s mode p data tree

/-- Applies an edit: whether it is one that the device has to see, and the tree after it. A write is
always shown, also if it leaves the tree as it was; a deletion only if it has removed something. -/
def apply (s : Schema) (r : Json.Reader) (tree : Object) : Edit → Except StoreError (Bool × Object)
  | .delete p => deleteAt s p tree
  | .write mode p value => (writeAt s r mode p value tree).map fun changed => (true, changed)

end Edit

end ConfigTree
