import ConfigTree.Schema.Marshal
import ConfigTree.Store.Basic
import ConfigTree.Tree.Lookup

/-!
# Reading the store

`Store.get` answers a request with one notification for each of its paths, or fails if one of them
is not there. `Store.leafUpdates` flattens what a path with wildcards matches into its leaves, as a
subscription sends them.
-/

namespace ConfigTree.Store

open Schema (Node)

/-- A subtree as a value: with plain names in the JSON encoding, with qualified ones in any other.
Which encodings are served is not decided here. -/
def subtreeValue (s : Schema) (encoding : Encoding) (p : Path) (data : Json) :
    Except StoreError TypedValue :=
  let c : Subtree := ⟨p.elems, data⟩
  match encoding with
  | .json => (document .plain c).map TypedValue.json
  | _ => (document .qualified c).map TypedValue.jsonIetf
where
  /-- The text of the document of a subtree. -/
  document (naming : Schema.Naming) (c : Subtree) : Except StoreError ByteArray :=
    match s.marshal c naming with
    | .ok j => .ok j.bytes
    | .error e => .error (.unreadable p.text e)

/-- The typed value of the leaf or leaf-list at a path. The encoding that a request asks for does
not matter for it. A failure says that the tree holds something else than its schema promises. -/
def leafValue (p : Path) (kind : ScalarKind) (held : Json) : Except StoreError TypedValue :=
  (TypedValue.ofHeld p.text kind held).mapError (.unreadable p.text)

/-- The value of the node at a path from the root: a scalar for leaves, a document else. Documents
cannot be restricted to some models. -/
def valueAt (st : Store) (encoding : Encoding) (models : List Model) (p : Path) :
    Except StoreError TypedValue :=
  match Tree.lookup p.elems st.tree st.schema.root with
  -- a path that the schema does not have is reported as one that is not there
  | .error _ | .ok none => .error (.pathNotFound p.text)
  | .ok (some (held, n)) =>
    match n.scalar? with
    | some kind => leafValue p kind held
    | none =>
      if models.isEmpty then subtreeValue st.schema encoding p held
      else .error (.modelFilter p.text)

/-- Answers a request at a time. What the request as a whole asks for is checked before its paths
are, and the first path that fails decides. -/
def get (st : Store) (now : Int64) (q : GetRequest) : Except StoreError GetResponse := do
  if q.dataType != .all then throw (.unsupportedDataType q.dataType)
  st.checkSupport q.encoding q.models
  if st.poisoned then throw .poisoned
  let notifications ← q.paths.mapM fun p => do
    let value ← st.valueAt q.encoding q.models (p.under q.base)
    return (⟨now, q.base, [⟨p, value⟩], []⟩ : Notification)
  return ⟨notifications⟩

/-- The update for a leaf that has been found. Its path is the one it was found at, with all keys,
and not the path that has matched it. -/
def leafUpdate (leaf : Tree.Located) : Except StoreError Update :=
  let p := Path.ofElems leaf.path
  match leaf.schema.scalar? with
  | none => .error (.wrongNode p.text .notLeaf)
  | some kind => (leafValue p kind leaf.value).map fun value => ⟨p, value⟩

/-- One update for each leaf at or below a node that a path matches. It has to match some node; a
node without leaves below it gives no updates and is no failure. -/
def leafUpdates (st : Store) (p : Path) : Except StoreError (List Update) :=
  match Tree.matching p.elems st.tree st.schema.root with
  | .error _ | .ok [] => .error (.pathNotFound p.text)
  | .ok found =>
    (found.flatMap fun node => Tree.leaves node.path node.schema node.value).mapM leafUpdate

end ConfigTree.Store
