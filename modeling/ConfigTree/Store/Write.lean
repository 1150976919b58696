import ConfigTree.Store.Basic

/-!
# Writing the store

A set is a transaction: its deletes, replaces and updates are applied in this order to a copy of the
committed tree. After each of them the copy is checked as a whole and the device is shown it; if the
device refuses, it is shown the committed tree again and the transaction fails. Only if all have
succeeded does the copy take the place of the committed tree.

Each operation gives its outcome together with the store after it.
-/

namespace ConfigTree

/-- The edits of a request in the order in which they are applied. -/
def SetRequest.edits (q : SetRequest) : List Edit :=
  q.deletes.map (fun p => .delete (p.under q.base))
    ++ q.replaces.map (fun u => .write .replace (u.path.under q.base) u.value)
    ++ q.updates.map (fun u => .write .update (u.path.under q.base) u.value)

/-- What a request that succeeds has done, by its own paths and in the order of its edits. A
deletion is listed also where there was nothing to delete. -/
def SetRequest.results (q : SetRequest) : List UpdateResult :=
  q.deletes.map (fun p => ⟨p, .delete⟩)
    ++ q.replaces.map (fun u => ⟨u.path, .replace⟩)
    ++ q.updates.map (fun u => ⟨u.path, .update⟩)

namespace Store

/-- The members of the committed tree. It is an object in every store that operations lead to, so
nothing is lost by taking any other tree for an empty one. -/
def members (st : Store) : Tree.Object := st.tree.obj?.getD []

/-- Checks a candidate and shows it to the device, and the committed tree after it if the device
refuses. Also gives what the device has been shown then. That the committed tree is refused too is
reported together with the first refusal. -/
def offer (st : Store) (candidate : Tree.Object) (shown : List Subtree) :
    Except StoreError Unit × List Subtree :=
  match rederive st.schema st.reader (.obj candidate), st.device with
  | .error e, _ => (.error e, shown)
  | .ok _, none => (.ok (), shown)
  | .ok c, some d =>
    match d.offer shown c with
    | (.ok (), shown) => (.ok (), shown)
    | (.error refusal, shown) =>
      match d.offer shown (Subtree.root st.tree) with
      | (.ok (), shown) => (.error (.refused refusal), shown)
      | (.error e, shown) => (.error (.notRestored refusal e), shown)

/-- Applies edits in turn to a working copy. A deletion of nothing is not shown to the device. What
it has been shown grows with each edit, also if a later one fails. -/
def runEdits (st : Store) : List Edit → Tree.Object → List Subtree →
    Except StoreError Tree.Object × List Subtree
  | [], working, shown => (.ok working, shown)
  | e :: rest, working, shown =>
    match e.apply st.schema st.reader working with
    | .error err => (.error err, shown)
    | .ok (false, working) => runEdits st rest working shown
    | .ok (true, working) =>
      match st.offer working shown with
      -- the edits before have been accepted, and the device is left with the last of them
      | (.error err, shown) => (.error err, shown)
      | (.ok (), shown) => runEdits st rest working shown

/-- Makes a tree the committed one, if it stands for a configuration. What is committed is that
configuration and not the tree itself. -/
def commit (st : Store) (tree : Json) : Except StoreError Unit × Store :=
  match rederive st.schema st.reader tree with
  | .error e => (.error e, st)
  | .ok c => (.ok (), { st with tree := c.data })

/-- Runs the edits of a request and commits the outcome. If one of them fails, the store is as
before, but for what the device has been shown. -/
def set (st : Store) (now : Int64) (q : SetRequest) : Except StoreError SetResponse × Store :=
  if st.poisoned then (.error .poisoned, st)
  else
    match st.runEdits q.edits st.members st.shown with
    | (.error e, shown) => (.error e, { st with shown })
    | (.ok working, shown) =>
      match { st with shown }.commit (.obj working) with
      | (.error e, st) => (.error e, st)
      | (.ok (), st) => (.ok ⟨q.base, q.results, now⟩, st)

/-- Updates the node at a path without showing the device anything, for what the device itself
reports. The tree is checked all the same before it is committed. -/
def updateState (st : Store) (p : Path) (value : TypedValue) : Except StoreError Unit × Store :=
  if st.poisoned then (.error .poisoned, st)
  else
    match Edit.writeAt st.schema st.reader .update p value st.members with
    | .error e => (.error e, st)
    | .ok working => st.commit (.obj working)

/-- Changes the committed tree by a function. The result has to be an object, and it is committed
like any candidate, so what the function makes of the tree is checked too. The device is not shown
it. -/
def modify (st : Store) (f : Json → Json) : Except StoreError Unit × Store :=
  if st.poisoned then (.error .poisoned, st)
  else if (f st.tree).isObject then st.commit (f st.tree)
  else (.error .rootNotTree, st)

/-- The store after a change that has been broken off. Its tree stays, but nothing reads it or
builds on it any more: every operation that needs the tree fails from then on. -/
def poison (st : Store) : Except StoreError Unit × Store :=
  if st.poisoned then (.error .poisoned, st) else (.ok (), { st with poisoned := true })

end Store

end ConfigTree
