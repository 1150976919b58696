import ConfigTree.Schema.Conform

/-!
# Validity

Data is valid at a node if its members are known, its scalars are of their kinds, and the entries of
each list have all keys of the list and differ in their texts. A single entry at a place with keys
takes them from the place, so it may leave them out.
-/

namespace ConfigTree.Schema

/-- The texts of an entry's keys, in the order of the list. Entries are told apart by these texts
and not by the scalars. -/
def keyTexts (path : String) (members : List (String × Json)) :
    List String → Except TreeError (List String)
  | [] => .ok []
  | key :: rest =>
    match Members.get? members key with
    | none => .error (.invalidData path (.missingKey key))
    | some held => (keyTexts path members rest).map (keyString held :: ·)

/-- The text of the path of an entry, for messages. It has the texts of the keys without their
names, so it is not a path that could be read again. -/
def entryPath (path : String) (keys : List String) : String :=
  path ++ "[" ++ ",".intercalate keys ++ "]"

mutual

/-- Refuses data that is not valid at a node. `entry` says that a list node stands for one entry. -/
def Node.validate (path : String) (entry : Bool) (n : Node) : Json → Except TreeError Unit
  | .obj ms =>
    match n with
    | .container _ children => Node.validateMembers path children ms
    | .list _ _ children =>
      if entry then Node.validateMembers path children ms
      else .error (.invalidData path .notList)
    | .leaf _ k => checkScalar path k (.obj ms)
    | .leafList _ _ => .error (.invalidData path .notLeafList)
  | .arr xs =>
    match n with
    | .container _ _ => .error (.invalidData path .notObject)
    | .list _ keys children =>
      if entry then .error (.invalidData path .notObject)
      else Node.validateEntries path keys children [] xs
    | .leaf _ k => checkScalar path k (.arr xs)
    | .leafList _ k => xs.forM (checkScalar path k)
  | j =>
    match n with
    | .container _ _ => .error (.invalidData path .notObject)
    | .list _ _ _ => .error (.invalidData path (if entry then .notObject else .notList))
    | .leaf _ k => checkScalar path k j
    | .leafList _ _ => .error (.invalidData path .notLeafList)

/-- Checks the entries of a list; `seen` has the keys of those before. The first fault in the order
of the array is the one that is reported. -/
def Node.validateEntries (path : String) (keys : List String) (children : List (String × Node))
    (seen : List (List String)) : List Json → Except TreeError Unit
  | [] => .ok ()
  | .obj ms :: rest => do
    let texts ← keyTexts path ms keys
    -- keys are compared before the members are checked, so a duplicate is reported first
    if seen.contains texts then throw (.invalidData (entryPath path texts) .duplicateKey)
    Node.validateMembers (entryPath path texts) children ms
    Node.validateEntries path keys children (texts :: seen) rest
  | _ :: _ => .error (.invalidData path .entryNotObject)

def Node.validateMembers (path : String) (children : List (String × Node)) :
    List (String × Json) → Except TreeError Unit
  | [] => .ok ()
  | (name, j) :: rest =>
    match Members.get? children name with
    | none => .error (.unknownMember path name)
    | some child => do
      Node.validate (memberPath path name) false child j
      Node.validateMembers path children rest

end

/-- Refuses data that is not valid at its place. For the root that is the whole tree, which is how
every candidate is checked before it is shown or committed. -/
def validate (s : Schema) (c : Subtree) : Except TreeError Unit := do
  let (n, _) ← s.nodeAt c.location
  n.validate (Path.textOf c.location) (Subtree.isEntryPlace c.location) c.data

end ConfigTree.Schema
