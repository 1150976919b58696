import ConfigTree.Proofs.Store.Batch
import ConfigTree.Proofs.Store.Delete
import ConfigTree.Proofs.Tree.Entries
import ConfigTree.Proofs.Tree.Finds

/-!
# Deleting a list entry by entry

Deleting the entries of a list one by one, each in a request of its own and in any order, comes to
the same as deleting the list. Each deletion but the last one leaves a list in which the last entry
has taken the place of the one that is gone, so the order of the entries that are left depends on
the order of the requests; what the deletion of the list would come to does not.

* `set_deletion_of_lookup`: a deletion of what is there cuts it off.
* `entryRequest`: the request that deletes an entry by its keys.
* `set_entryRequest`: one such request, on a list that has the entry.
* `setEach_entryRequests`: all of them, in any order.

Deleting the list cuts it off, and deleting an entry cuts inside it. If the list is cut off after
that, it does not matter that the entry went before, nor which one it was. So the induction on the
requests needs nothing of the order that the entries have in between.
-/

namespace ConfigTree.Store

open ConfigTree.Path (Elem)
open ConfigTree.Tree (Object EntryOf Change EndsInKey lookup entryElem dropEntry isEntryWith)
open Schema (Node)
open Schema.Node (Valid keyTuple)

variable {st : Store} {base : Option Path} {p parent : Path} {last : Elem} {list : Node}
  {keys : List String} {xs : List Json}

/-! ### Deletions of what is there -/

/-- The store in which what a path leads to has been cut off. Nothing else of the store changes, so
two requests leave the same store if they cut off the same. -/
def cutAt (st : Store) (elems : List Elem) : Store :=
  { st with tree := .obj (Change.cut.along elems st.schema.root st.members) }

/-- **A deletion of what is there cuts it off**, and what is left is committed. -/
theorem set_deletion_of_lookup (h : Reachable st) (hfree : st.schema.ColonFree)
    (hr : st.reader.ReadsBack) (hd : st.device = none) (now : Int64) {home : Option String}
    {found : Node × Option String} {place : Json × Node} (hp : (p.under base).elems ≠ [])
    (hwalk : st.schema.root.walk? home (p.under base).elems = some found)
    (hkey : ¬ EndsInKey st.schema.root (p.under base).elems)
    (hlookup : lookup (p.under base).elems st.tree st.schema.root = .ok (some place)) :
    st.set now (.deletion base p)
      = (.ok ⟨base, [⟨p, .delete⟩], now⟩, st.cutAt (p.under base).elems) := by
  have hinv := h.invariant
  rw [h.tree_eq hfree] at hlookup
  obtain ⟨hdelete, hleft⟩ := Edit.deleteAt_cut hinv.loaded.keyed (h.formed_members hfree) trivial
    trivial hp hwalk hkey hlookup
  have hc := Schema.rederive_of_stands hinv.loaded hfree hr (hleft.stands_self hfree)
  exact set_deletion_of_true hinv.poisoned hd hdelete hc

/-- A path to a list does not end in a key. -/
theorem not_endsInKey_of_list {n : Node} {elems : List Elem} (hkeyed : n.Everywhere Node.KeyedAt)
    (hlist : n.below? elems = some list) (hkeys : list.listKeys? = some keys) :
    ¬ EndsInKey n elems := by
  rintro ⟨above, last, m, keys', rfl, hm, hkeys', hmem⟩
  rw [Node.below?_append, hm, Option.bind_some] at hlist
  obtain ⟨child, hchild, heq⟩ := Option.bind_eq_some_iff.1 hlist
  obtain rfl := Option.some.inj heq
  obtain ⟨children, hn, hname⟩ := Tree.get?_of_child? hchild
  -- a key is a leaf
  obtain ⟨home, kind, hleaf⟩ := ((hkeyed.below? hm).here keys' children hkeys' hn).2 _ hmem
  obtain rfl := Option.some.inj (hname.symm.trans hleaf)
  cases hkeys

/-! ### Entries of a list -/

/-- The last element of a path names a keyed list as a whole, and the list is there. It is asked of
the store, so that it can be asked again of the store that a deletion has left. -/
structure ListAt (st : Store) (base : Option Path) (parent : Path) (last : Elem) (list : Node)
    (keys : List String) (xs : List Json) : Prop where
  plain : last.isKeyed = false
  resolves : st.schema.resolve? ((parent.child last).under base).elems = some list
  keyed : list.listKeys? = some keys
  finds : lookup ((parent.child last).under base).elems st.tree st.schema.root
    = .ok (some (.arr xs, list))

/-- Deletes an entry of the list of that name by the texts of its keys. The request is made from the
entry alone, so it stays the same while other entries go. -/
def entryRequest (base : Option Path) (parent : Path) (name : String) (keys : List String)
    (entry : Object) : SetRequest :=
  .deletion base (parent.child (entryElem name keys entry))

theorem elems_child_under (base : Option Path) (parent : Path) (e : Elem) :
    ((parent.child e).under base).elems = (parent.under base).elems ++ [e] :=
  (List.append_assoc _ _ _).symm

/-- What is known of the element of an entry: it selects the entry, and the schema has its path. It
is all that the induction on the entries needs of the list being valid. -/
structure Selected (st : Store) (base : Option Path) (parent : Path) (last f : Elem)
    (xs : List Json) (entry : Object) : Prop where
  entryOf : EntryOf f last
  first : xs.find? (isEntryWith f.keys) = some (.obj entry)
  resolves : ∃ found, st.schema.root.walk? st.schema.root.home ((parent.under base).elems ++ [f])
    = some found
  noKey : ¬ EndsInKey st.schema.root ((parent.under base).elems ++ [f])
  finds : ∃ place, lookup ((parent.under base).elems ++ [f]) st.tree st.schema.root
    = .ok (some place)

/-- **The element of an entry selects it**, since the entries of a valid list have different
keys. -/
theorem ListAt.selected (h : ListAt st base parent last list keys xs) (hst : Reachable st)
    (hfree : st.schema.ColonFree) {entry : Object} (hentry : .obj entry ∈ xs) :
    Selected st base parent last (entryElem last.name keys entry) xs entry := by
  have hinv := hst.invariant
  have hlookup := h.finds
  have hresolves := h.resolves
  rw [elems_child_under] at hlookup hresolves
  obtain ⟨found, hwalk, hfound⟩ := Option.map_eq_some_iff.1 hresolves
  obtain ⟨m, home, hwalkm, hlast⟩ := Node.exists_walk?_of_append hwalk
  have hm := Node.below?_of_walk? hwalkm
  obtain ⟨child, hchild, -, hend⟩ := Node.walk?_cons hlast
  obtain rfl : list = child := hfound.symm.trans (congrArg Prod.fst (Option.some.inj hend).symm)
  obtain ⟨children, hn, hname⟩ := Tree.get?_of_child? hchild
  have hlocal := (hfree.namesFree.below? hm).here.localName hn hname
  have hkeyed := ((hinv.loaded.keyed.below? hm).child hn hname).here
  -- the list is valid, so its entries have their keys, and different ones
  obtain ⟨_, hvalid⟩ := Tree.valid_of_lookup hst.valid hlookup
  obtain ⟨home', keys', children', rfl⟩ :=
    Node.exists_list_of_isList (Option.isSome_of_eq_some h.keyed)
  obtain rfl := Option.some.inj h.keyed
  have hentries : (∀ x ∈ xs, ∃ ms, x = .obj ms ∧ none ∉ keyTuple keys' (.obj ms)) ∧
      (xs.map (keyTuple keys')).Nodup := by
    cases hvalid with
    | list entries keyed distinct =>
      refine ⟨fun x hx => ?_, distinct⟩
      obtain ⟨ms, rfl⟩ := (entries x hx).eq_obj .list
      exact ⟨ms, rfl, keyed _ hx⟩
  obtain ⟨_, heq, hfull⟩ := hentries.1 _ hentry
  obtain rfl := Json.obj.inj heq
  have hkeys : ∀ key,
      (Members.get? (entryElem last.name keys' entry).keys key).isSome ↔ key ∈ keys' :=
    Tree.isSome_get?_entryElem hfull
  have hof : EntryOf (entryElem last.name keys' entry) last :=
    ⟨hlocal, Tree.isKeyed_of_keys hkeyed hkeys, h.plain⟩
  have hfirst : xs.find? (isEntryWith (entryElem last.name keys' entry).keys)
      = some (.obj entry) := Tree.find?_entryElem hentry hentries.1 hentries.2
  have hchild' : m.child? (entryElem last.name keys' entry).name
      = some (.list home' keys' children') := hof.child?.trans hchild
  have howns : (Node.list home' keys' children').OwnsKeys (entryElem last.name keys' entry) :=
    (Tree.keys_iff.1 hkeys).1
  refine ⟨hof, hfirst, ?_, ?_, ?_⟩
  · rw [Node.walk?_append_of_walk? hwalkm]
    exact ⟨_, Node.walk?_of_ownsKeys hchild' howns rfl⟩
  · refine not_endsInKey_of_list hinv.loaded.keyed ?_ h.keyed
    rw [Node.below?_append, hm, Option.bind_some, Node.below?_cons hchild']
    rfl
  -- it is found among the entries that the list has
  · rw [Tree.lookup_append] at hlookup ⊢
    obtain ⟨found, habove, hlookup⟩ := bind_eq_ok_iff.1 hlookup
    cases found with
    | none => cases hlookup
    | some found =>
      obtain ⟨u, m'⟩ := found
      obtain rfl := Option.some.inj (hm.symm.trans (Tree.below?_of_lookup habove))
      obtain ⟨inner, rfl⟩ := Tree.exists_obj_of_lookup hlookup
      obtain ⟨v, _, -, hv, hend⟩ := Tree.exists_found_of_lookup hlookup
      obtain ⟨rfl, -⟩ := Prod.mk.inj (Option.some.inj (Except.ok.inj hend))
      rw [habove]
      have hf : Tree.found? inner (entryElem last.name keys' entry) = some (.obj entry) := by
        rw [Tree.found?_of_isKeyed hof.keyed, hof.entriesOf hv, hfirst]
      exact ⟨_, Tree.lookup_cons_of_found (Tree.childSchema_of_ownsKeys hchild' howns) hf []⟩

/-! ### Requests in turn -/

section

variable (hst : Reachable st) (hfree : st.schema.ColonFree) (hr : st.reader.ReadsBack)
  (hd : st.device = none)

include hst hfree hr hd

/-- The request for an entry cuts it off. -/
theorem set_entryRequest (h : ListAt st base parent last list keys xs) {entry : Object}
    (hentry : .obj entry ∈ xs) (now : Int64) : ∃ resp,
      st.set now (entryRequest base parent last.name keys entry)
        = (.ok resp, st.cutAt ((parent.under base).elems ++ [entryElem last.name keys entry])) := by
  have hsel := h.selected hst hfree hentry
  obtain ⟨found, hwalk⟩ := hsel.resolves
  obtain ⟨place, hplace⟩ := hsel.finds
  have hnoKey := hsel.noKey
  rw [← elems_child_under] at hwalk hplace hnoKey ⊢
  have hne : ((parent.child (entryElem last.name keys entry)).under base).elems ≠ [] := by
    rw [elems_child_under]
    exact List.concat_ne_nil _ _
  exact ⟨_, set_deletion_of_lookup hst hfree hr hd now hne hwalk hnoKey hplace⟩

/-- The deletion of the list cuts it off. -/
theorem set_listRequest (h : ListAt st base parent last list keys xs) (now : Int64) :
    st.set now (.deletion base (parent.child last))
      = (.ok ⟨base, [⟨parent.child last, .delete⟩], now⟩,
        st.cutAt ((parent.under base).elems ++ [last])) := by
  obtain ⟨found, hwalk, hfound⟩ := Option.map_eq_some_iff.1 h.resolves
  have hkey := not_endsInKey_of_list hst.invariant.loaded.keyed
    ((Node.below?_of_walk? hwalk).trans (congrArg some hfound)) h.keyed
  have hne : ((parent.child last).under base).elems ≠ [] := by
    rw [elems_child_under]
    exact List.concat_ne_nil _ _
  rw [← elems_child_under]
  exact set_deletion_of_lookup hst hfree hr hd now hne hwalk hkey h.finds

/-- **Deleting a list entry by entry is deleting the list.** A store is reachable and has no device,
and a path names a keyed list as a whole, which is there and has entries. Requests that delete the
entries by their keys, one after the other and in any order, all succeed, and leave the store that
the deletion of the list leaves. -/
theorem setEach_entryRequests (h : ListAt st base parent last list keys xs) (hne : xs ≠ [])
    {order : List Object} (horder : (order.map Json.obj).Perm xs) (now now' : Int64) :
    ∃ st', st.setEach now (order.map (entryRequest base parent last.name keys)) = .ok st' ∧
      st.set now' (.deletion base (parent.child last))
        = (.ok ⟨base, [⟨parent.child last, .delete⟩], now'⟩, st') := by
  -- by induction on the entries: what the deletion of the list comes to stays the same
  induction order generalizing st xs with
  | nil => exact absurd (List.nil_perm.1 horder) hne
  | cons entry order ih =>
    have hentry : Json.obj entry ∈ xs := horder.mem_iff.1 List.mem_cons_self
    have hsel := h.selected hst hfree hentry
    have hleft := (Tree.dropEntry_perm hsel.first).trans horder.symm
    rw [List.map_cons, List.perm_cons] at hleft
    obtain ⟨resp, hset⟩ := set_entryRequest hst hfree hr hd h hentry now
    have hlookup := h.finds
    rw [hst.tree_eq hfree, elems_child_under] at hlookup
    rw [List.map_cons]
    simp only [setEach_cons]
    by_cases hlast : dropEntry (entryElem last.name keys entry).keys xs = []
    · rw [hlast, List.nil_perm, List.map_eq_nil_iff] at hleft
      subst hleft
      rw [cutAt, Tree.along_cut_last_entry hsel.entryOf hlookup hsel.first hlast] at hset
      exact ⟨_, ⟨_, ⟨resp, hset⟩, rfl⟩, set_listRequest hst hfree hr hd h now'⟩
    · obtain ⟨found, hwalk⟩ := hsel.resolves
      obtain ⟨hfinds, hsame⟩ := Tree.along_cut_entry hst.invariant.loaded.keyed
        (hst.formed_members hfree) hsel.entryOf hwalk hsel.noKey hlookup hsel.first hlast
      -- the list is left with the other entries, and the same requests are still to come
      have hst₁ := hst.set now (entryRequest base parent last.name keys entry)
      rw [hset] at hst₁
      have hlist : ListAt (st.cutAt ((parent.under base).elems
          ++ [entryElem last.name keys entry])) base parent last list keys
          (dropEntry (entryElem last.name keys entry).keys xs) :=
        ⟨h.plain, h.resolves, h.keyed, by rw [elems_child_under]; exact hfinds⟩
      obtain ⟨st', hrest, hdelete⟩ := ih hst₁ hfree hr hd hlist hlast hleft.symm
      refine ⟨st', ⟨_, ⟨resp, hset⟩, hrest⟩, ?_⟩
      -- the list is cut off as it would have been before
      have hcut : (st.cutAt ((parent.under base).elems ++ [entryElem last.name keys entry])).cutAt
          ((parent.under base).elems ++ [last])
          = st.cutAt ((parent.under base).elems ++ [last]) :=
        congrArg (fun ms => ({ st with tree := .obj ms } : Store)) hsame
      rw [set_listRequest hst hfree hr hd h now', ← hdelete,
        set_listRequest hst₁ hfree hr hd hlist now', hcut]

end

/-! ### Both servers -/

/-- The path of all servers. -/
def servers : Path := Path.ofElems [Elem.plain "server"]

/-- The servers go one after the other, the second one first, as the list goes. -/
theorem setEach_servers : ∃ st', grownStore.setEach 0 [.deletion none (serverAt "8080"),
      .deletion none (serverAt "80")] = .ok st' ∧
    grownStore.set 0 (.deletion none servers) = (.ok ⟨none, [⟨servers, .delete⟩], 0⟩, st') := by
  have hlist : ListAt grownStore none Path.root (Elem.plain "server") serverList ["port"]
      [.obj [("enabled", .bool true), ("port", .num (.ofUInt64 80))],
        .obj [("enabled", .bool true), ("port", .num (.ofUInt64 8080))]] :=
    ⟨rfl, rfl, rfl, rfl⟩
  have horder : ([[("enabled", .bool true), ("port", .num (.ofUInt64 8080))],
      [("enabled", .bool true), ("port", .num (.ofUInt64 80))]].map Json.obj).Perm
      [.obj [("enabled", .bool true), ("port", .num (.ofUInt64 80))],
        .obj [("enabled", .bool true), ("port", .num (.ofUInt64 8080))]] := .swap _ _ _
  exact setEach_entryRequests reachable_grownStore colonFree_serverSchema
    Json.Reader.readsBack_nearest rfl hlist (List.cons_ne_nil _ _) horder 0 0

end ConfigTree.Store
