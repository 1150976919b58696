import ConfigTree.Proofs.Store.WriteBack
import ConfigTree.Proofs.Subscription.Snapshot

/-!
# Foreign keys in paths

A look-up matches the keys of an element against any members of an entry, while the schema knows a
path only if its keys are those of the lists that it names. So a look-up finds more than the schema
has: an entry by the text of a member that is no key of its list. Such a path cannot be written, and
a get of it fails halfway unless it ends in a leaf.

* `OwnKeys`: the keys of a path are those of the lists that it names.
* `walk?_of_ownKeys`, `walk?_eq_none`: these are the paths of the schema, among those that lead
  somewhere by their names.
* `Store.get_of_lookup`: what a get and a set do with a path that a look-up finds.
-/

namespace ConfigTree

open ConfigTree.Path (Elem)
open ConfigTree.Tree (lookup)
open Members (get?)
open Schema (Node)

/-! ### Paths of the schema -/

namespace Schema.Node

variable {n m : Node} {home : Option String} {elems : List Elem}

/-- The keys that a path has at each of its elements are keys of the list named there. It says
nothing of a path that leaves the schema, so together with `below?` it is that the schema has the
path. -/
def OwnKeys : Node → List Elem → Prop
  | _, [] => True
  | n, e :: rest => ∀ child, n.child? e.name = some child → child.OwnsKeys e ∧ child.OwnKeys rest

theorem walk?_of_ownKeys (hbelow : n.below? elems = some m) (h : n.OwnKeys elems)
    (home : Option String) : ∃ home', n.walk? home elems = some (m, home') := by
  -- on the path: the schema is walked by the names, and its keys are asked for at each step
  induction elems generalizing n home with
  | nil =>
    obtain rfl := Option.some.inj hbelow
    exact ⟨home, rfl⟩
  | cons e elems ih =>
    obtain ⟨child, hchild, hrest⟩ := Option.bind_eq_some_iff.1 hbelow
    obtain ⟨howns, hkeys⟩ := h child hchild
    rw [walk?_eq_of_ownsKeys hchild howns]
    exact ih hrest hkeys _

theorem ownKeys_of_walk? {found : Node × Option String} (h : n.walk? home elems = some found) :
    n.OwnKeys elems := by
  induction elems generalizing n home with
  | nil => trivial
  | cons e elems ih =>
    obtain ⟨child, hchild, howns, hrest⟩ := walk?_cons h
    intro child' hchild'
    obtain rfl := Option.some.inj (hchild.symm.trans hchild')
    exact ⟨howns, ih hrest⟩

/-- The schema has no node for a path with a foreign key. -/
theorem walk?_eq_none (h : ¬ n.OwnKeys elems) : n.walk? home elems = none := by
  cases hwalk : n.walk? home elems with
  | none => rfl
  | some found => exact absurd (ownKeys_of_walk? hwalk) h

end Schema.Node

/-! ### Reading and writing -/

namespace Store

variable {st : Store} {p : Path} {base : Option Path} {encoding : Encoding} {n : Node}
  {held : Json} {err : StoreError}

/-- A subtree is sent as its document, which there is just if the schema has its place. What is held
does not matter, for the document only spells the names of the members as the encoding has them. -/
theorem exists_subtreeValue {found : Node × Option String}
    (hnode : st.schema.nodeAt p.elems = .ok found) :
    ∃ value, subtreeValue st.schema encoding p held = .ok value := by
  have hdocument : ∀ naming, ∃ text,
      subtreeValue.document st.schema p naming ⟨p.elems, held⟩ = .ok text := by
    intro naming
    -- the two encodings differ in the names they print and in nothing that could fail
    unfold subtreeValue.document Schema.marshal
    rw [hnode]
    exact ⟨_, rfl⟩
  unfold subtreeValue
  split
  · obtain ⟨text, htext⟩ := hdocument .plain
    exact ⟨_, map_eq_ok_iff.2 ⟨text, htext, rfl⟩⟩
  · obtain ⟨text, htext⟩ := hdocument .qualified
    exact ⟨_, map_eq_ok_iff.2 ⟨text, htext, rfl⟩⟩

theorem subtreeValue_error {cause : TreeError} (hnode : st.schema.nodeAt p.elems = .error cause) :
    subtreeValue st.schema encoding p held = .error (.unreadable p.text cause) := by
  have hdocument : ∀ naming, subtreeValue.document st.schema p naming ⟨p.elems, held⟩
      = .error (.unreadable p.text cause) := by
    intro naming
    unfold subtreeValue.document Schema.marshal
    rw [hnode]
    rfl
  unfold subtreeValue
  split
  · exact map_eq_error_iff.2 (hdocument .plain)
  · exact map_eq_error_iff.2 (hdocument .qualified)

/-- A write at a path that the schema does not have is refused, and changes nothing. -/
theorem set_single_of_unresolved {value : TypedValue} (hp : st.poisoned = false)
    (hroot : (p.under base).elems ≠ [])
    (hresolve : st.schema.resolve? (p.under base).elems = none) (mode : WriteMode) (now : Int64) :
    st.set now (.single mode base ⟨p, value⟩)
      = (.error (.noSchemaNode (p.under base).text), st) := by
  have hdata : Edit.dataAt st.schema st.reader (p.under base) value
      = .error (.noSchemaNode (p.under base).text) := by
    unfold Edit.dataAt
    rw [hresolve]
  have hnot : (p.under base).isRoot = false := by
    unfold Path.isRoot
    cases helems : (p.under base).elems with
    | nil => exact absurd helems hroot
    | cons => rfl
  have hrun : st.runEdits (SetRequest.single mode base ⟨p, value⟩).edits st.members st.shown
      = (.error (.noSchemaNode (p.under base).text), st.shown) := by
    rw [SetRequest.edits_single]
    simp [runEdits, Edit.apply, Edit.writeAt, hnot, hdata, bind, Except.bind, Except.map]
  exact set_of_runEdits_error hp hrun

/-! ### Reading what a look-up finds -/

section

variable (htree : st.tree.Normal) (hvalid : st.schema.validate (Subtree.root st.tree) = .ok ())
  (hlookup : lookup (p.under base).elems st.tree st.schema.root = .ok (some (held, n)))

include htree hvalid hlookup

/-- What a look-up finds in a valid tree is valid at its node. -/
theorem exists_valid_of_lookup : ∃ entry, n.Valid entry held :=
  Tree.valid_of_lookup (Schema.valid_root htree hvalid) hlookup

/-- A leaf has a typed value, whatever path it is found by. -/
theorem get_of_lookup_leaf (hp : st.poisoned = false) (hencoding : encoding ∈ encodings)
    (hn : n.isLeaf = true) (now : Int64) : ∃ value,
      st.get now ⟨base, [p], .all, encoding, []⟩ = .ok ⟨[⟨now, base, [⟨p, value⟩], []⟩]⟩ := by
  obtain ⟨entry, hheld⟩ := exists_valid_of_lookup htree hvalid hlookup
  obtain ⟨kind, hkind⟩ := Option.isSome_iff_exists.1 hn
  obtain ⟨value, hvalue⟩ := hheld.exists_ofHeld hkind (p.under base).text
  refine ⟨value, get_of_valueAt (List.contains_iff_mem.2 hencoding) ?_ hp now⟩
  rw [valueAt, hlookup]
  simp only [hkind, leafValue, hvalue]
  rfl

omit htree hvalid in
/-- Anything else is sent as its document. -/
theorem valueAt_of_lookup_subtree (hn : n.isLeaf = false) (encoding : Encoding) :
    st.valueAt encoding [] (p.under base)
      = subtreeValue st.schema encoding (p.under base) held := by
  have hkind : n.scalar? = none := Option.isSome_eq_false_iff.1 hn |> Option.isNone_iff_eq_none.1
  rw [valueAt, hlookup]
  simp only [hkind, List.isEmpty_nil, if_true]

/-- By the keys of its lists the schema has the path of what is found, and it can be read. A leaf
could be read without that; for all else the document is made at the place that the schema has. -/
theorem get_of_lookup_ownKeys (hp : st.poisoned = false)
    (hkeys : st.schema.root.OwnKeys (p.under base).elems) :
    st.schema.resolve? (p.under base).elems = some n ∧
      ∀ encoding ∈ encodings, ∀ now, ∃ value, st.get now ⟨base, [p], .all, encoding, []⟩
        = .ok ⟨[⟨now, base, [⟨p, value⟩], []⟩]⟩ := by
  obtain ⟨home, hwalk⟩ := Schema.Node.walk?_of_ownKeys (Tree.below?_of_lookup hlookup) hkeys
    st.schema.root.home
  have hnode : st.schema.nodeAt (p.under base).elems = .ok (n, home) := by
    unfold Schema.nodeAt
    rw [hwalk]
  refine ⟨by rw [Schema.resolve?, Node.resolve?, hwalk, Option.map_some], ?_⟩
  intro encoding hencoding now
  -- a leaf is printed from its value; only a subtree needs the node again, which the walk finds
  cases hn : n.isLeaf with
  | true => exact get_of_lookup_leaf htree hvalid hlookup hp hencoding hn now
  | false =>
    obtain ⟨value, hvalue⟩ : ∃ value, subtreeValue st.schema encoding (p.under base) held
      = .ok value := exists_subtreeValue hnode
    rw [← valueAt_of_lookup_subtree hlookup hn] at hvalue
    exact ⟨value, get_of_valueAt (List.contains_iff_mem.2 hencoding) hvalue hp now⟩

/-- By a foreign key the schema does not have it, and just a leaf can be read. For a leaf the get is
done with the node that the look-up has given, and asks the schema no more. -/
theorem get_of_lookup_foreign (hp : st.poisoned = false)
    (hkeys : ¬ st.schema.root.OwnKeys (p.under base).elems) :
    st.schema.resolve? (p.under base).elems = none ∧
      ∀ encoding ∈ encodings, ∀ now,
        (n.isLeaf = true → ∃ value, st.get now ⟨base, [p], .all, encoding, []⟩
          = .ok ⟨[⟨now, base, [⟨p, value⟩], []⟩]⟩) ∧
        (n.isLeaf = false → st.get now ⟨base, [p], .all, encoding, []⟩
          = .error (.unreadable (p.under base).text
              (.noSchemaNode (Path.textOf (p.under base).elems)))) := by
  have hwalk : st.schema.root.walk? st.schema.root.home (p.under base).elems = none :=
    Schema.Node.walk?_eq_none hkeys
  have hnode : st.schema.nodeAt (p.under base).elems
      = .error (.noSchemaNode (Path.textOf (p.under base).elems)) := by
    unfold Schema.nodeAt
    rw [hwalk]
  refine ⟨by rw [Schema.resolve?, Node.resolve?, hwalk, Option.map_none], ?_⟩
  intro encoding hencoding now
  -- the leaf is answered even so: its value is at hand and the path is not resolved a second time
  constructor
  · intro hn
    exact get_of_lookup_leaf htree hvalid hlookup hp hencoding hn now
  · intro hn
    refine get_of_valueAt_error (List.contains_iff_mem.2 hencoding) ?_ hp now
    rw [valueAt_of_lookup_subtree hlookup hn, subtreeValue_error hnode]

end

/-- **A look-up finds just what the schema has, and what it finds by a foreign key.** In a valid
tree a look-up finds data at a path, which the schema describes by a node. If the keys of the path
are those of the lists that it names, the schema has the path with that node, and a get of the path
answers in each encoding. If they are not, the schema does not have the path: a write there is
refused for that reason and changes nothing, and yet a get answers where the data is a leaf or a
leaf-list, and fails when it makes the document of anything else. -/
theorem get_of_lookup (htree : st.tree.Normal)
    (hvalid : st.schema.validate (Subtree.root st.tree) = .ok ()) (hp : st.poisoned = false)
    (hlookup : lookup (p.under base).elems st.tree st.schema.root = .ok (some (held, n))) :
    (st.schema.root.OwnKeys (p.under base).elems →
      st.schema.resolve? (p.under base).elems = some n ∧
      ∀ encoding ∈ encodings, ∀ now, ∃ value, st.get now ⟨base, [p], .all, encoding, []⟩
        = .ok ⟨[⟨now, base, [⟨p, value⟩], []⟩]⟩) ∧
    (¬ st.schema.root.OwnKeys (p.under base).elems →
      st.schema.resolve? (p.under base).elems = none ∧
      (∀ mode now value, st.set now (.single mode base ⟨p, value⟩)
        = (.error (.noSchemaNode (p.under base).text), st)) ∧
      ∀ encoding ∈ encodings, ∀ now,
        (n.isLeaf = true → ∃ value, st.get now ⟨base, [p], .all, encoding, []⟩
          = .ok ⟨[⟨now, base, [⟨p, value⟩], []⟩]⟩) ∧
        (n.isLeaf = false → st.get now ⟨base, [p], .all, encoding, []⟩
          = .error (.unreadable (p.under base).text
              (.noSchemaNode (Path.textOf (p.under base).elems))))) := by
  constructor
  · intro hkeys
    exact get_of_lookup_ownKeys htree hvalid hlookup hp hkeys
  · intro hkeys
    -- the root has no keys at all, so a path with a foreign key is not the root
    have hne : (p.under base).elems ≠ [] := fun hnil => hkeys (by rw [hnil]; trivial)
    obtain ⟨hresolve, hget⟩ := get_of_lookup_foreign htree hvalid hlookup hp hkeys
    refine ⟨hresolve, ?_, hget⟩
    intro mode now value
    exact set_single_of_unresolved hp hne hresolve mode now

/-! ### A server by a member that is no key -/

/-- The server that is enabled. -/
def enabledServer : Path := Path.ofElems [Elem.ofKeys "server" [("enabled", "true")]]

/-- The look-up finds the server, but neither a get nor a set does. -/
theorem get_enabledServer :
    lookup enabledServer.elems serverTree serverSchema.root
      = .ok (some (serverEntry, serverList)) ∧
    serverSchema.resolve? enabledServer.elems = none ∧
    (∀ mode now value, (serverStore none []).set now (.single mode none ⟨enabledServer, value⟩)
      = (.error (.noSchemaNode enabledServer.text), serverStore none [])) ∧
    ∀ encoding ∈ encodings, ∀ now,
      (serverStore none []).get now ⟨none, [enabledServer], .all, encoding, []⟩
        = .error (.unreadable enabledServer.text
            (.noSchemaNode (Path.textOf enabledServer.elems))) := by
  have hforeign : ¬ serverSchema.root.OwnKeys enabledServer.elems := by
    intro h
    obtain ⟨howns, -⟩ := h _ rfl
    exact absurd (howns ("enabled", "true") List.mem_cons_self) (by decide)
  have hlookup : lookup (enabledServer.under none).elems (serverStore none []).tree
      (serverStore none []).schema.root = .ok (some (serverEntry, serverList)) := rfl
  obtain ⟨hresolve, hset, hget⟩ := (get_of_lookup stands_serverTree.normal rfl rfl hlookup).2
    hforeign
  exact ⟨hlookup, hresolve, hset, fun encoding hencoding now =>
    (hget encoding hencoding now).2 rfl⟩

end Store

end ConfigTree
