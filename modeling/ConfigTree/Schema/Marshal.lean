import ConfigTree.Schema.Conform

/-!
# Subtrees as documents

`Schema.marshal` gives the document of a subtree, with plain member names or with qualified ones. A
qualified document names the module in front of the members at its top and below that wherever the
module changes; members of no module are always plain.
-/

namespace ConfigTree.Schema

/-- How members are named in a document: by their names alone, as the tree holds them, or with their
modules. -/
inductive Naming where
  | plain
  | qualified
deriving DecidableEq, Repr

/-- The name of a member from module `home` of a node from module `outer`. At the top of a document
every module is named, since there is nothing around it to take it from. -/
def memberName (naming : Naming) (top : Bool) (outer home : Option String) (name : String) :
    String :=
  match naming, home with
  | .qualified, some m => if top || home != outer then s!"{m}:{name}" else name
  | _, _ => name

mutual

/-- The document of data at a node from module `home`. Data that does not fit the node is left as it
is; for valid data this does not come up. -/
def Node.emit (naming : Naming) (home : Option String) (top entry : Bool) (n : Node) : Json → Json
  | .obj ms =>
    match n.children? with
    | some children => .obj (Members.ofList (Node.emitMembers naming home top children ms))
    | none => .obj ms
  | .arr xs =>
    if n.isList && !entry then .arr (Node.emitEntries naming home top n xs) else .arr xs
  | j => j

def Node.emitEntries (naming : Naming) (home : Option String) (top : Bool) (n : Node) :
    List Json → List Json
  | [] => []
  | j :: rest => Node.emit naming home top true n j :: Node.emitEntries naming home top n rest

def Node.emitMembers (naming : Naming) (home : Option String) (top : Bool)
    (children : List (String × Node)) : List (String × Json) → List (String × Json)
  | [] => []
  | (name, j) :: rest =>
    let out := match Members.get? children name with
      | none => (name, j)
      | some child =>
        let own := child.home.or home
        (memberName naming top home own name, Node.emit naming own false false child j)
    out :: Node.emitMembers naming home top children rest

end

/-- The document of a subtree. Only a place that the schema does not have makes this fail; the data
is printed as it is, also if it is not valid. -/
def marshal (s : Schema) (c : Subtree) (naming : Naming) : Except TreeError Json := do
  let (n, home) ← s.nodeAt c.location
  return n.emit naming home true (Subtree.isEntryPlace c.location) c.data

end ConfigTree.Schema
