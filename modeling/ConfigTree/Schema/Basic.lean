import ConfigTree.Members
import ConfigTree.Path.Text
import ConfigTree.Scalar.Kind

/-!
# Schemas

A schema describes every node of a configuration tree. A container has named members; a list has
entries, each with the members that the list describes, told apart by those that are its keys; a
leaf has one scalar and a leaf-list several. A node may name the module it comes from; one that does
not comes from the module of its parent.

`Node.resolve?` finds the node for a path. Keys in the path may only stand at lists and must be
theirs; which entries they select does not matter.
-/

namespace ConfigTree

/-- A module of a schema, by name and version. -/
structure Model where
  name : String
  organization : String
  version : String
deriving DecidableEq, Repr, Inhabited

namespace Schema

/-- A node of a schema. Children are sorted by name. -/
inductive Node where
  | container (home : Option String) (children : List (String × Node))
  | list (home : Option String) (keys : List String) (children : List (String × Node))
  | leaf (home : Option String) (kind : ScalarKind)
  | leafList (home : Option String) (kind : ScalarKind)
deriving Inhabited

/-- What there is at a place, without what is below it and without the module. It is what the schema
says of a single node. -/
inductive NodeKind where
  | container
  | list (keys : List String)
  | leaf (kind : ScalarKind)
  | leafList (kind : ScalarKind)
deriving DecidableEq, Repr

namespace Node

def kind : Node → NodeKind
  | .container _ _ => .container
  | .list _ keys _ => .list keys
  | .leaf _ k => .leaf k
  | .leafList _ k => .leafList k

/-- The module that the node itself names. A node that names none is of the module of its parent,
which is known only on the way down. -/
def home : Node → Option String
  | .container m _ | .list m _ _ | .leaf m _ | .leafList m _ => m

/-- The children of a container or of a list's entries. -/
def children? : Node → Option (List (String × Node))
  | .container _ cs | .list _ _ cs => some cs
  | .leaf _ _ | .leafList _ _ => none

/-- The child of that name, with or without a module in front. Which module it is does not matter,
not even whether there is one of that name. -/
def child? (n : Node) (name : String) : Option Node :=
  n.children?.bind fun cs => Members.get? cs (localName name)

def listKeys? : Node → Option (List String)
  | .list _ keys _ => some keys
  | _ => none

/-- The kind of a leaf's scalar or of a leaf-list's. -/
def scalar? : Node → Option ScalarKind
  | .leaf _ k | .leafList _ k => some k
  | _ => none

def isContainer : Node → Bool
  | .container _ _ => true
  | _ => false

def isList (n : Node) : Bool := n.listKeys?.isSome

/-- Whether the node is a leaf or a leaf-list, and so has a value of its own and no members. -/
def isLeaf (n : Node) : Bool := n.scalar?.isSome

/-- The node and the module it comes from, reached from a node by a path. The first argument is the
module of that node. Keys are asked for their names alone: each must be a key of the list, but not
all keys of the list have to be there. -/
def walk? (home : Option String) (n : Node) : List Path.Elem → Option (Node × Option String)
  | [] => some (n, home)
  | e :: rest =>
    match n.child? e.name with
    | none => none
    | some c =>
      -- only lists have keys in a path, and only their own
      let ours := match c.listKeys? with
        | some keys => e.keys.all fun k => keys.contains k.1
        | none => !e.isKeyed
      if ours then walk? (c.home.or home) c rest else none

/-- The node for a path from here. It says which paths the schema has; a tree need not have anything
there. -/
def resolve? (n : Node) (elems : List Path.Elem) : Option Node :=
  (n.walk? n.home elems).map (·.1)

mutual

/-- Equality of nodes is decidable. -/
def decEq : (a b : Node) → Decidable (a = b)
  | .container m cs, .container m' cs' =>
    match decEqChildren cs cs' with
    | isTrue h => if h' : m = m' then isTrue (by rw [h, h']) else isFalse (by simp [h'])
    | isFalse h => isFalse (by simp [h])
  | .list m ks cs, .list m' ks' cs' =>
    match decEqChildren cs cs' with
    | isTrue h =>
      if h' : m = m' ∧ ks = ks' then isTrue (by rw [h, h'.1, h'.2]) else isFalse (by simp_all)
    | isFalse h => isFalse (by simp [h])
  | .leaf m k, .leaf m' k' => decidable_of_iff (m = m' ∧ k = k') (by simp)
  | .leafList m k, .leafList m' k' => decidable_of_iff (m = m' ∧ k = k') (by simp)
  | .container .., .list .. | .container .., .leaf .. | .container .., .leafList ..
  | .list .., .container .. | .list .., .leaf .. | .list .., .leafList ..
  | .leaf .., .container .. | .leaf .., .list .. | .leaf .., .leafList ..
  | .leafList .., .container .. | .leafList .., .list .. | .leafList .., .leaf .. =>
    isFalse (by simp)

def decEqChildren : (a b : List (String × Node)) → Decidable (a = b)
  | [], [] => isTrue rfl
  | (k, n) :: rest, (k', n') :: rest' =>
    if hk : k = k' then
      match decEq n n', decEqChildren rest rest' with
      | isTrue h, isTrue h' => isTrue (by rw [hk, h, h'])
      | isFalse h, _ => isFalse (by simp [h])
      | _, isFalse h => isFalse (by simp [h])
    else isFalse (by simp [hk])
  | [], _ :: _ | _ :: _, [] => isFalse (by simp)

end

instance : DecidableEq Node := decEq

end Node

/-- The text of the path of a member of the node at a path. The root is the one place whose path
ends in a slash already. -/
def memberPath (path name : String) : String :=
  if path = "/" then s!"/{name}" else s!"{path}/{name}"

end Schema

/-- A schema: the modules it is made of, and the node of the root. -/
structure Schema where
  models : List Model
  root : Schema.Node
deriving Inhabited

namespace Schema

/-- The node for a path. -/
def resolve? (s : Schema) (elems : List Path.Elem) : Option Node := s.root.resolve? elems

/-- Whether the schema has a module of exactly that name, organization and version. -/
def supports (s : Schema) (m : Model) : Bool := s.models.contains m

end Schema

end ConfigTree
