import ConfigTree.Members

/-!
# Paths

A path addresses a node of the configuration tree by the names of the nodes on the way from the
root. An element of a path may carry keys, which select one entry of a list. A path without
elements addresses the root.

Names may carry the module they come from, as in `module:name`; `localName` is the name alone.
-/

namespace ConfigTree

/-- What follows the first colon of a name, or all of it. A name that ends in its first colon has
nothing left. -/
def localChars (cs : List Char) : List Char :=
  match cs.dropWhile (· != ':') with
  | [] => cs
  | _ :: rest => rest

/-- The name without the module in front of it. Only the first colon counts, so a name with two of
them has one left. -/
def localName (name : String) : String := String.ofList (localChars name.toList)

/-- One element of a path: the name of a node and, by key name, the texts that select an entry. The
keys are in order, so two ways of writing them are one element. -/
structure Path.Elem where
  name : String
  keys : List (String × String)
  sorted : Members.Sorted keys
deriving DecidableEq, Repr

structure Path where
  origin : Option String
  elems : List Path.Elem
deriving DecidableEq, Repr

namespace Path

namespace Elem

/-- An element without keys. -/
def plain (name : String) : Elem := ⟨name, [], Members.sorted_nil⟩

/-- An element with keys in any order; the last one of a name counts. -/
def ofKeys (name : String) (pairs : List (String × String)) : Elem :=
  ⟨name, Members.ofList pairs, Members.sorted_ofList pairs⟩

/-- Whether the element selects an entry of a list. It is asked of the element alone, so a list
without keys in the path is addressed as a whole. -/
def isKeyed (e : Elem) : Bool := !e.keys.isEmpty

instance : Inhabited Elem := ⟨plain ""⟩

end Elem

/-- A path without origin. The origin is carried along in messages and looked at nowhere. -/
def ofElems (elems : List Elem) : Path := ⟨none, elems⟩

def root : Path := ofElems []

instance : Inhabited Path := ⟨root⟩

def isRoot (p : Path) : Bool := p.elems.isEmpty

/-- The elements of `base` followed by those of the path. No base is the same as an empty one, and
the origin of a base does not count. Requests name all their paths under one base in this way. -/
def under (base : Option Path) (p : Path) : Path :=
  ⟨p.origin, ((base.map elems).getD []) ++ p.elems⟩

/-- The path with one more element. -/
def child (p : Path) (e : Elem) : Path := { p with elems := p.elems ++ [e] }

/-- The elements before the last one, and the last one. The root has none. -/
def splitLast? (p : Path) : Option (List Elem × Elem) :=
  p.elems.getLast?.map fun last => (p.elems.dropLast, last)

end Path

end ConfigTree
