import ConfigTree.Tree.Descend

/-!
# Deletion

An entry that is deleted leaves its place to the last entry of the list; with its last entry a list
goes too. `prune` removes the containers along a path that are empty, the deepest first; entries
stay, since they hold their keys.
-/

namespace ConfigTree.Tree

open Schema (Node)
open ConfigTree.Path (Elem)

/-- Removes the item at a place, which the last one takes. All other items keep their places. So a
deletion may change the order of the entries, and no more than the place of one of them. -/
def swapRemove {α : Type} (xs : List α) (i : Nat) : List α :=
  match xs.getLast? with
  | some last => (xs.set i last).dropLast
  | none => []

/-- Removes the entry that an element selects from its list: whether there was one, and the members
without it. An array without entries is not left behind. -/
def deleteEntry (members : Object) (e : Elem) : Except TreeError (Bool × Object) :=
  let name := localName e.name
  match Members.get? members name with
  | none => .ok (false, members)
  | some (.arr xs) =>
    match xs.findIdx? (isEntryWith e.keys) with
    | none => .ok (false, members)
    | some i =>
      -- the last entry takes the list along
      if xs.length = 1 then .ok (true, Members.erase members name)
      else .ok (true, Members.insert members name (.arr (swapRemove xs i)))
  | some _ => .error (.wrongNode e.text .notKeyedList)

/-- Removes the empty containers along a path. It goes down as far as the path leads to objects, and
decides on the way back, when what is below has been pruned already. -/
def prune : List Elem → Object → Node → Except TreeError Object
  | [], members, _ => .ok members
  | e :: rest, members, n => do
    match ← descend members n e false with
    | some (⟨_, slot, .obj inner⟩, below) =>
      let inner ← prune rest inner below
      -- entries stay, also if there is nothing left in them
      if inner.isEmpty && !e.isKeyed then return Members.erase members (localName e.name)
      else return slot.put members (.obj inner)
    | _ => return members

end ConfigTree.Tree
