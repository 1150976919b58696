import ConfigTree.Tree.Descend

/-!
# Reading a tree

`lookup` finds the one node at a path. `matching` finds all nodes that a path with wildcards
matches: an element that names a list without keys, or with the text `*` for a key, matches every
entry. `leaves` flattens a subtree into its leaves and leaf-lists. Nodes that are found come with
their paths, in which every entry has its keys.
-/

namespace ConfigTree.Tree

open Schema (Node)
open ConfigTree.Path (Elem)

/-- The member of that name, if there are members. -/
def member? (j : Json) (name : String) : Option Json := j.obj?.bind fun ms => Members.get? ms name

/-- The node at a path and its schema. The schema decides first whether there can be such a node,
element by element, and the tree then whether there is one. -/
def lookup : List Elem → Json → Node → Except TreeError (Option (Json × Node))
  | [], tree, n => .ok (some (tree, n))
  | e :: rest, tree, n => do
    let below ← childSchema n e
    match member? tree (localName e.name) with
    | none => return none
    | some child =>
      if e.isKeyed then
        match (child.arr?.getD []).find? (isEntryWith e.keys) with
        | none => return none
        | some entry => lookup rest entry below
      else lookup rest child below

/-- A node that has been found, with its path and its schema. The path has the keys of every entry
on the way, so that a look-up along it finds the node again. -/
structure Located where
  path : List Elem
  value : Json
  schema : Node

/-- The text of a key that matches every entry. -/
def wildcard : String := "*"

/-- The keys of an element that do restrict the entries. An element without any of them matches all
entries, as one without keys does. -/
def wantedKeys (e : Elem) : List (String × String) := e.keys.filter fun key => key.2 != wildcard

/-- The nodes that the rest of a path matches from a node at `place`. An element that names a list
always matches entries, never the list itself. -/
def matchingFrom : List Elem → List Elem → Json → Node → Except TreeError (List Located)
  | [], place, tree, n => .ok [⟨place, tree, n⟩]
  | e :: rest, place, tree, n => do
    let below ← childSchema n e
    let name := localName e.name
    match member? tree name with
    | none => return []
    | some child =>
      match below.listKeys? with
      | none => matchingFrom rest (place ++ [Elem.plain name]) child below
      | some keys =>
        -- items that are no objects are passed over
        let entries := (child.arr?.getD []).filterMap Json.obj?
        let chosen := entries.filter fun members => hasKeys members (wantedKeys e)
        let found ← chosen.mapM fun members =>
          matchingFrom rest (place ++ [entryElem name keys members]) (.obj members) below
        return found.flatten

/-- The nodes that a path matches, in the order of the tree. That there are none is no failure
here. -/
def matching (elems : List Elem) (tree : Json) (n : Node) : Except TreeError (List Located) :=
  matchingFrom elems [] tree n

mutual

/-- The leaves of a subtree at a place, in the order of the tree. Data that does not fit the schema
has none; for valid data nothing is lost by this. -/
def leaves (place : List Elem) (n : Node) : Json → List Located
  | .arr xs =>
    if n.isLeaf then [⟨place, .arr xs, n⟩]
    else
      -- the name of a list is the last element of its place, and its entries take its place there
      match place.getLast? with
      | none => []
      | some last => entryLeaves place.dropLast last.name n xs
  | .obj members =>
    if n.isLeaf then [⟨place, .obj members, n⟩] else memberLeaves place n members
  | j => if n.isLeaf then [⟨place, j, n⟩] else []

/-- The leaves of the entries of a list of that name. Each entry is put under its own keys, so that
the leaves of different entries have different paths. -/
def entryLeaves (parent : List Elem) (name : String) (n : Node) : List Json → List Located
  | [] => []
  | .obj members :: rest =>
    memberLeaves (parent ++ [entryElem name (n.listKeys?.getD []) members]) n members
      ++ entryLeaves parent name n rest
  | _ :: rest => entryLeaves parent name n rest

/-- The leaves of members that the schema knows, one member after the other. What has no schema has
no leaves either. -/
def memberLeaves (place : List Elem) (n : Node) : Object → List Located
  | [] => []
  | (name, j) :: rest =>
    (match n.child? name with
      | some child => leaves (place ++ [Elem.plain name]) child j
      | none => []) ++ memberLeaves place n rest

end

end ConfigTree.Tree
