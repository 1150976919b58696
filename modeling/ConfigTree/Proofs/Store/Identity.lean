import ConfigTree.Proofs.Store.Form
import ConfigTree.Proofs.Tree.Commit

/-!
# Entries after a write

A write whose path goes through an entry, or ends in one, leaves the entry with the keys of the
path, wherever on the path the entry is and whatever the data has for its keys. There is one
exception: a write at a key of the entry itself puts any valid value there. If that has another text
than the path, the entry becomes another one, and nothing is left at the path that has been written.

* `Edit.Rekeys`: such a write.
* `Edit.LeavesEntry`: whether an entry that has been written will be found by its keys.
* `Edit.putsEntry_of_putAt`: what a write makes of an entry on its path.
* `Edit.PutsEntry.lookup`: what is found of it after the commit.
* `Store.exists_stands_of_set_single`: what a set with a single write commits.
* `Store.lookup_set_entry`: what is found at the path of the entry after the set.

The entry is followed from the write to the commit. Whether the write ends in the entry or goes
through it, it leaves members of which it is known that the keys will be found, or that one of them
will have another text (`LeavesEntry`). The commit turns these members into scalars, whose texts are
what a look-up compares.
-/

namespace ConfigTree

open ConfigTree.Path (Elem)
open ConfigTree.Tree (Object KeysFit Full StoredKeys ChangesAt HeldInside HoldsText HoldsKeys
  childSchema lookup setFound)
open Members (get? Sorted)
open Schema (Node)
open Schema.Node (Form Formed Stands)

namespace Edit

variable {s : Schema} {n list target : Node} {entry : Bool} {e last : Elem} {mode : WriteMode}
  {place : String} {old new members ms ms' cs : Object} {d : Json} {p : Path}
  {above rest parent : List Elem} {home : Option String} {found : Node × Option String}

/-! ### Keys of an entry -/

/-- Data that is written at a key of an entry has another text than the path has for the key. `rest`
is what the path has after the element `e` of the entry. So the write is at the entry's own key:
what it writes further down is no key of it. -/
def Rekeys (e : Elem) (rest : List Elem) (d : Json) : Prop :=
  ∃ last text, rest = [last] ∧ get? e.keys (localName last.name) = some text ∧ keyString d ≠ text

/-- A write of data at an entry, or further on, leaves the entry with the members `new`. They hold
the keys of the element just if the data has no other text for one of them. Both directions are
kept, since the second one says what has become of an entry that is not found again. -/
structure LeavesEntry (list : Node) (e : Elem) (rest : List Elem) (d : Json) (new : Object) :
    Prop where
  keeps : ¬ Rekeys e rest d → HoldsKeys list e new
  loses : Rekeys e rest d → ∃ key ∈ e.keys, ∃ text, HoldsText list new key.1 text ∧ text ≠ key.2

/-- An entry that is written has the keys of its element, be it by the data or by the path. -/
theorem holdsKeys_of_entryMembers (hkeys : KeysFit list e)
    (hd : Stands list entry (.obj new) (.obj new))
    (h : entryMembers mode list e place old new = .ok members) : HoldsKeys list e members := by
  intro key hkey
  rcases get?_of_entryMembers hd.normal.1 hkey h with ⟨v, hv, hmember, htext⟩ | hpath
  · have hdata := Tree.holdsText_of_stands (hkeys.localName hkey) hd hv
    exact (htext ▸ hdata).congr (hmember.trans hv.symm)
  · exact (Tree.holdsKeys_keyMembers hkeys key hkey).congr hpath

/-- A key that is written has the text of the data. -/
theorem holdsText_of_putInside (hkeys : KeysFit list e) {key : String × String}
    (hkey : key ∈ e.keys) (hname : localName last.name = key.1)
    (hchild : list.child? last.name = some target) (howns : target.OwnsKeys last)
    (hd : Stands target entry d d) (h : putInside mode last place d old list = (.ok (), new)) :
    HoldsText list new key.1 (keyString d) := by
  obtain ⟨home, keys, children, rfl, hfit⟩ := hkeys
  obtain ⟨-, hlocal, home', kind, hleaf, -⟩ := hfit key hkey
  obtain ⟨_, heq, hget⟩ := Tree.get?_of_child? hchild
  obtain rfl := Option.some.inj heq
  rw [hname] at hget
  obtain rfl := Option.some.inj (hget.symm.trans hleaf)
  -- a leaf has no keys, so the data is put there as a member
  have hplain : last.isKeyed = false := howns
  rw [putInside_eq_ok_iff, putChild, hplain, if_neg Bool.false_ne_true, hname] at h
  obtain rfl := Except.ok.inj h
  cases hd with
  | object shape => cases shape.1
  | leaf held fits =>
    refine ⟨d, ?_, fun home kind c hchild hc => ?_⟩
    · unfold putMember
      split
      · cases isScalar_of_coerce? held
      · rw [Members.get?_insert, if_pos rfl]
    · rw [Node.child?_of_get? rfl hlocal hget] at hchild
      cases hchild
      rw [Option.some.inj (Option.some.inj (held.symm.trans hc))]

/-- A write below an entry leaves its keys as they are, unless it is a write at one of them. Further
down it changes a member that has members, which is no key. -/
theorem get?_of_modifyAt (hkeyed : list.KeyedAt) (hkeys : KeysFit list e)
    (hwalk : list.walk? home (parent ++ [last]) = some found)
    (h : Tree.modifyAt true (putInside mode last place d) parent old list = .ok (.ok (), new))
    {key : String × String} (hkey : key ∈ e.keys)
    (hne : parent = [] → localName last.name ≠ key.1) : get? new key.1 = get? old key.1 := by
  cases parent with
  | nil => exact get?_putInside (Except.ok.inj h) (hne rfl).symm
  | cons f parent =>
    obtain ⟨below, here, here', hschema, -, -, rfl⟩ := Tree.exists_opened_of_modifyAt h
    refine Tree.get?_setFound_of_ne fun heq => ?_
    -- a key is a leaf, so the path would end there
    obtain ⟨keys, _, _, hlist, hmem, -⟩ := hkeys.child? hkey
    rw [List.cons_append] at hwalk
    obtain ⟨child, hchild, -, hrest⟩ := Node.walk?_cons hwalk
    have hnil := Tree.eq_nil_of_isKey hkeyed hlist (heq ▸ hmem) hchild hrest
    exact List.append_ne_nil_of_right_ne_nil parent (List.cons_ne_nil last []) hnil

/-! ### An entry on the path of a write -/

/-- An entry that has been opened and written below has the keys of its element, unless the write is
at one of them. -/
theorem leavesEntry_of_modifyAt (hkeyed : list.KeyedAt) (hkeys : KeysFit list e)
    (hwalk : list.walk? home (parent ++ [last]) = some found)
    (hd : Stands found.1 last.isKeyed d d)
    (h : Tree.modifyAt true (putInside mode last place d) parent old list = .ok (.ok (), new))
    (hold : HoldsKeys list e old) : LeavesEntry list e (parent ++ [last]) d new := by
  -- a key that is written has the text of the data
  have hwritten : ∀ key ∈ e.keys, parent = [] → localName last.name = key.1 →
      HoldsText list new key.1 (keyString d) := by
    rintro key hkey rfl hname
    obtain ⟨child, hchild, howns, heq⟩ := Node.walk?_cons hwalk
    obtain rfl := Option.some.inj heq
    exact holdsText_of_putInside hkeys hkey hname hchild howns hd (Except.ok.inj h)
  constructor
  · intro hnot key hkey
    by_cases hkept : parent = [] → localName last.name ≠ key.1
    · exact (hold key hkey).congr (get?_of_modifyAt hkeyed hkeys hwalk h hkey hkept)
    · obtain ⟨hnil, hname⟩ := Classical.not_imp.1 hkept
      have hname := Decidable.not_not.1 hname
      have hsame : keyString d = key.2 := by
        by_contra hne
        refine hnot ⟨last, key.2, by rw [hnil]; rfl, ?_, hne⟩
        rw [hname, Members.get?_of_mem e.sorted hkey]
      exact hsame ▸ hwritten key hkey hnil hname
  · rintro ⟨last', text, heq, htext, hne⟩
    have heq : parent ++ [last] = [] ++ [last'] := heq
    obtain ⟨rfl, hlast⟩ := List.append_inj' heq rfl
    obtain rfl := List.head_eq_of_cons_eq hlast
    have hkey := Members.mem_of_get? htext
    exact ⟨_, hkey, keyString d, hwritten _ hkey rfl rfl, hne⟩

/-- Members become others by an entry that a write of data puts in the place of the element `e`, at
the end of the path `above`. What it leaves of the entry is told for a node in its held form, which
is known only once the way down to it has been followed. -/
def PutsEntry (root : Node) (above : List Elem) (list : Node) (e : Elem) (rest : List Elem)
    (d : Json) (ms ms' : Object) : Prop :=
  ∃ m inner new, ChangesAt m inner (setFound e (.obj new) inner) root above ms ms' ∧
    childSchema m e = .ok list ∧ (HeldInside m inner → LeavesEntry list e rest d new)

/-- A write that ends in the entry puts it there as a whole. -/
theorem putsEntry_of_last (he : e.isKeyed = true) (hlist : n.below? (above ++ [e]) = some list)
    (hkeys : KeysFit list e) (hd : Stands list e.isKeyed d d)
    (h : Tree.modifyAt true (putInside mode e place d) above ms n = .ok (.ok (), ms')) :
    PutsEntry n above list e [] d ms ms' := by
  rw [← List.append_nil above] at h
  obtain ⟨m, inner, inner', hchange, hinside⟩ := Tree.exists_changesAt h
  have hchild := Tree.child?_of_below? hchange.below? hlist
  have hput := putInside_eq_ok_iff.1 (Except.ok.inj hinside)
  rw [putChild, he, if_pos rfl, hchild] at hput
  obtain ⟨old, new, members, -, rfl, hmembers, rfl⟩ := exists_entry_of_putEntry he hput
  refine ⟨m, inner, members, hchange, Tree.childSchema_eq hchild fun _ => hkeys, fun _ => ?_⟩
  -- the value is put as the entry itself: it holds its keys whatever it held before, and no member
  -- below was written
  constructor
  · intro _
    exact holdsKeys_of_entryMembers hkeys hd hmembers
  · rintro ⟨_, _, heq, -⟩
    cases heq

/-- A write that goes on from the entry opens it, writes in it and puts it back. -/
theorem putsEntry_of_opened (hkeyed : n.Everywhere Node.KeyedAt) (he : e.isKeyed = true)
    (hlist : n.below? (above ++ [e]) = some list) (hkeys : KeysFit list e)
    (hwalk : list.walk? home (parent ++ [last]) = some found)
    (hd : Stands found.1 last.isKeyed d d)
    (h : Tree.modifyAt true (putInside mode last place d) (above ++ e :: parent) ms n
      = .ok (.ok (), ms')) : PutsEntry n above list e (parent ++ [last]) d ms ms' := by
  obtain ⟨m, inner, inner', hchange, htail⟩ := Tree.exists_changesAt h
  obtain ⟨below, old, new, hschema, hopened, hrest, rfl⟩ := Tree.exists_opened_of_modifyAt htail
  have hchild := Tree.child?_of_below? hchange.below? hlist
  -- the schema element is the same whether it is found by name or while the path is opened
  obtain rfl := Option.some.inj (hchild.symm.trans (Tree.child?_of_childSchema hschema))
  refine ⟨m, inner, new, hchange, hschema, fun hheld => ?_⟩
  obtain ⟨mod, keys, children, rfl⟩ := Tree.exists_list_of_childSchema hschema he
  exact leavesEntry_of_modifyAt (hkeyed.below? hlist).here hkeys hwalk hd hrest
    (hheld.holdsKeys hschema rfl hkeys hopened)

/-- **What a write makes of an entry on its path.** The entry may be the end of the path or anywhere
on it, and in either case something is put in its place. -/
theorem putsEntry_of_putAt (hs : s.Loaded) (hwalk : s.root.walk? home p.elems = some found)
    (helems : p.elems = above ++ e :: rest) (he : e.isKeyed = true)
    (hlist : s.root.below? (above ++ [e]) = some list) (hkeys : KeysFit list e)
    (hd : Stands found.1 (Subtree.isEntryPlace p.elems) d d)
    (hput : putAt s mode p d ms = .ok ms') : PutsEntry s.root above list e rest d ms ms' := by
  cases hsplit : p.splitLast? with
  | none => simp [splitLast?_eq_none hsplit] at helems
  | some split =>
    obtain ⟨parent, last⟩ := split
    have hp := splitLast?_eq_some hsplit
    have hplace : Subtree.isEntryPlace p.elems = last.isKeyed := by
      simp [Subtree.isEntryPlace, hp]
    rw [hplace] at hd
    have hmodify := modifyAt_of_putAt hsplit hput
    -- the last element of the path is that of the entry, or one further on
    rcases List.eq_nil_or_concat' rest with rfl | ⟨parent', last', rfl⟩
    · obtain ⟨rfl, heq⟩ := List.append_inj' (hp.symm.trans helems) rfl
      obtain rfl := List.head_eq_of_cons_eq heq
      have hbelow := Node.below?_of_walk? hwalk
      rw [helems] at hbelow
      obtain rfl := Option.some.inj (hlist.symm.trans hbelow)
      exact putsEntry_of_last he hlist hkeys hd hmodify
    · have hpath : parent ++ [last] = (above ++ e :: parent') ++ [last'] := by
        rw [← hp, helems, List.append_assoc, List.cons_append]
      obtain ⟨rfl, heq⟩ := List.append_inj' hpath rfl
      obtain rfl := List.head_eq_of_cons_eq heq
      rw [helems, ← List.singleton_append, ← List.append_assoc] at hwalk
      obtain ⟨list', home', hlist', hlast⟩ := Node.walk?_append hwalk
      obtain rfl := Option.some.inj (hlist.symm.trans hlist')
      exact putsEntry_of_opened hs.keyed he hlist hkeys hlast hd hmodify

/-- **What is found of the entry after the commit**: it is found with the keys of its element, or
not at all. That no other entry is found in its place needs all keys of the list in the element. -/
theorem PutsEntry.lookup (hkeyed : n.Everywhere Node.KeyedAt)
    (hfree : n.Everywhere Schema.ColonFreeAt) (h : PutsEntry n above list e rest d ms ms')
    (hpath : Tree.Addresses n (above ++ [e])) (he : e.isKeyed = true)
    (hlist : n.below? (above ++ [e]) = some list) (hfull : Full list e)
    (hms : Stands n entry (.obj ms) (.obj ms)) (hcs : Stands n entry (.obj ms') (.obj cs)) :
    (¬ Rekeys e rest d → ∃ held,
      lookup (above ++ [e]) (.obj cs) n = .ok (some (.obj held, list)) ∧
      ∀ key ∈ e.keys, (get? held key.1).map keyString = some key.2) ∧
    (Rekeys e rest d → lookup (above ++ [e]) (.obj cs) n = .ok none) := by
  obtain ⟨m, inner, new, hchange, hschema, hleaves⟩ := h
  have hkeys := hpath.keysFit hlist he
  have hchild := Tree.child?_of_below? hchange.below? hlist
  obtain ⟨siblings, hsiblings, -⟩ := Tree.get?_of_child? hchild
  obtain ⟨home, keys, children, rfl⟩ := Tree.exists_list_of_childSchema hschema he
  -- the node with the entry may be an entry itself, whose keys are as before
  have hkeeps : Tree.KeepsKeys m inner (setFound e (.obj new) inner) :=
    Tree.keepsKeys_of_child (hkeyed.below? hchange.below?).here hchild rfl
      fun _ => Tree.get?_setFound_of_ne
  obtain ⟨hinside, entry', ks, hks, hlookup⟩ := hchange.lookup hfree hpath.prefix
    ⟨siblings, hsiblings⟩ hkeeps (Tree.heldInside_of_stands hms) hcs
  obtain ⟨hfinds, hloses⟩ := Tree.lookup_of_setFound (hfree.below? hchange.below?) hinside hschema
    he hkeys hks
  constructor
  · intro hnot
    obtain ⟨held, hfound, hhas⟩ := hfinds ((hleaves hinside).keeps hnot)
    exact ⟨held, (hlookup [e]).trans hfound, Tree.hasKeys_iff.1 hhas⟩
  · intro hrekeys
    exact (hlookup [e]).trans (hloses ((hleaves hinside).loses hrekeys) hfull)

end Edit

namespace Store

variable {st st' : Store} {s : Schema} {r : Json.Reader} {mode : WriteMode} {p : Path}
  {value : TypedValue} {ms ms' : Object} {d : Json}

/-! ### What a set commits -/

/-- Valid values have their members in order, since they have none. -/
theorem admits_ordered : Form.ordered.Admits := by
  intro n w _ hvalue
  cases n with
  | leaf home kind => exact Json.normal_of_isScalar (isScalar_of_isOfKind hvalue)
  | leafList home kind =>
    obtain ⟨xs, rfl, hxs⟩ := hvalue
    refine Json.normalList_iff.2 fun x hx => ?_
    exact Json.normal_of_isScalar (isScalar_of_isOfKind (hxs x hx))
  | container home children => cases hvalue
  | list home keys children => cases hvalue

/-- **A copy that an edit has left stands for the configuration that is read from it**, whatever the
path of the edit is. An edit keeps the members in order, and more is not needed. -/
theorem stands_of_apply (hs : s.Loaded) (hfree : s.ColonFree) (hr : r.ReadsBack) {edit : Edit}
    {flag : Bool} {c : Subtree} (h : s.root.Stands false (.obj ms) (.obj ms))
    (happly : edit.apply s r ms = .ok (flag, ms')) (hc : rederive s r (.obj ms') = .ok c) :
    s.root.Stands false (.obj ms') c.data := by
  have hms := (Schema.Node.formed_of_stands h).of_valid admits_ordered hfree
  have hfits : edit.Fits .ordered s := edit.fits_of_not_keys not_false fun _ _ _ =>
    Json.normal_of_isScalar (isScalar_keyValue _ _)
  have hms' := Edit.formed_apply hs hfree admits_ordered (fun hlists => hlists) hfits hms happly
  exact (Schema.stands_of_tidy hfree hr hms'.tidy hc).1

/-- What a set with a single write has left: the data of its value has been put into the committed
tree, and what is committed is the document that the copy stands for. -/
theorem exists_stands_of_set_single (h : Reachable st) (hfree : st.schema.ColonFree)
    (hr : st.reader.ReadsBack) (hd : st.device = none) {base : Option Path} {now : Int64}
    {resp : SetResponse} (hset : st.set now (.single mode base ⟨p, value⟩) = (.ok resp, st')) :
    ∃ d ms' cs, Edit.dataAt st.schema st.reader (p.under base) value = .ok d ∧
      Edit.putAt st.schema mode (p.under base) d st.members = .ok ms' ∧
      st.schema.root.Stands false (.obj ms') (.obj cs) ∧ st' = { st with tree := .obj cs } := by
  have hinv := h.invariant
  have hstands := hinv.stands hfree
  rw [h.tree_eq hfree] at hstands
  obtain ⟨hroot, d, ms', c, hdata, hput, hc, rfl⟩ :=
    (set_single_iff hd hinv.poisoned).1 ⟨resp, hset⟩
  have happly : (Edit.write mode (p.under base) value).apply st.schema st.reader st.members
      = .ok (true, ms') := by
    rw [Edit.apply, Edit.writeAt_eq_ok_iff.2 ⟨hroot, d, hdata, hput⟩]
    rfl
  have hheld := stands_of_apply hinv.loaded hfree hr hstands happly hc
  obtain ⟨children, hchildren⟩ := hinv.loaded.hasMembers
  obtain ⟨cs, heq⟩ := Tree.exists_obj_of_stands hchildren.1 hheld
  exact ⟨d, ms', cs, hdata, hput, heq ▸ hheld, by rw [heq]⟩

/-- **What a set leaves at an entry on its path.** In a reachable store without a device, a set with
a single write has succeeded. Its path goes through an entry or ends in it, selected by all keys of
its list, and the keys up to there are in stored form. Unless the write is at a key of the entry,
and its data has another text than the path, the entry is found afterwards, with the keys of the
path. If that is what it does, no entry is found there. -/
theorem lookup_set_entry (h : Reachable st) (hfree : st.schema.ColonFree)
    (hr : st.reader.ReadsBack) (hd : st.device = none) {base : Option Path} {now : Int64}
    {resp : SetResponse} (hset : st.set now (.single mode base ⟨p, value⟩) = (.ok resp, st'))
    {above rest : List Elem} {e : Elem} {list : Node}
    (helems : (p.under base).elems = above ++ e :: rest) (he : e.isKeyed = true)
    (hlist : st.schema.root.below? (above ++ [e]) = some list) (hfull : Full list e)
    (hstored : StoredKeys st.schema.root (above ++ [e])) :
    ∃ d, Edit.dataAt st.schema st.reader (p.under base) value = .ok d ∧
      (¬ Edit.Rekeys e rest d → ∃ entry,
        lookup (above ++ [e]) st'.tree st.schema.root = .ok (some (.obj entry, list)) ∧
        ∀ key ∈ e.keys, (get? entry key.1).map keyString = some key.2) ∧
      (Edit.Rekeys e rest d → lookup (above ++ [e]) st'.tree st.schema.root = .ok none) := by
  have hinv := h.invariant
  have hstands := hinv.stands hfree
  rw [h.tree_eq hfree] at hstands
  -- the copy that the write leaves stands for the configuration that is committed
  obtain ⟨d, ms', cs, hdata, hput, hheld, rfl⟩ := exists_stands_of_set_single h hfree hr hd hset
  obtain ⟨target, home, hnode, hself⟩ := Edit.stands_of_dataAt hfree hdata
  have hwalk := Edit.walk?_of_nodeAt hnode
  -- up to the entry the path is one of the schema, with keys that fit
  have hpath : Tree.Addresses st.schema.root (above ++ [e]) := by
    rw [helems, ← List.singleton_append, ← List.append_assoc] at hwalk
    obtain ⟨_, _, hentry, -⟩ := Node.exists_walk?_of_append hwalk
    exact Tree.addresses_of_walk? hinv.loaded.keyed hfree hentry hstored
  have hputs := Edit.putsEntry_of_putAt hinv.loaded hwalk helems he hlist (hpath.keysFit hlist he)
    hself hput
  exact ⟨d, hdata, hputs.lookup hinv.loaded.keyed hfree hpath he hlist hfull hstands hheld⟩

/-! ### A server that gets another port -/

/-- The port of the server that there is. -/
def oldPort : Path := Path.ofElems [Elem.ofKeys "server" [("port", "80")], Elem.plain "port"]

/-- The tree with the server at another port. -/
def movedTree : Json :=
  .obj [
    ("host", .str "alpha"),
    ("server", .arr [.obj [("enabled", .bool true), ("port", .num (.ofUInt64 81))]])]

theorem dataAt_oldPort :
    Edit.dataAt serverSchema .nearest oldPort (.uint 81) = .ok (.num (.ofUInt64 81)) := by
  have hparse : Json.parseBytes? .nearest (Json.num (.ofUInt64 81)).bytes
      = some (.num (.ofUInt64 81)) := by
    rw [Json.parseBytes?_bytes Json.Reader.readsBack_nearest]
    decide
  have hnode : serverSchema.nodeAt oldPort.elems = .ok (.leaf none (.uint 16), none) := rfl
  exact Edit.dataAt_of_payload hnode rfl hparse rfl rfl

/-- The port is written as any other leaf. -/
theorem set_oldPort : ∃ resp, (serverStore none []).set 0
    (.single .replace none ⟨oldPort, .uint 81⟩)
      = (.ok resp, { serverStore none [] with tree := movedTree }) := by
  obtain ⟨ms', hms'⟩ : ∃ ms', movedTree = .obj ms' := ⟨_, rfl⟩
  have hput : Edit.putAt serverSchema .replace oldPort (.num (.ofUInt64 81))
      (serverStore none []).members = .ok ms' := by
    obtain rfl := Json.obj.inj hms'
    rfl
  have hstands : serverSchema.root.Stands false movedTree movedTree := by
    have hconform : serverSchema.root.conform "/" false movedTree = .ok movedTree := rfl
    have hvalid : serverSchema.root.validate "/" false movedTree = .ok () := rfl
    exact Node.stands_of_conform colonFree_serverSchema hconform hvalid
  exact set_single_of_stands loaded_serverSchema colonFree_serverSchema
    Json.Reader.readsBack_nearest rfl rfl rfl dataAt_oldPort hput (hms' ▸ hstands) 0

/-- The server is lost from the path of the port that has been written. -/
theorem lookup_oldPort : ∃ st', (∃ resp, (serverStore none []).set 0
      (.single .replace none ⟨oldPort, .uint 81⟩) = (.ok resp, st')) ∧
    lookup [Elem.ofKeys "server" [("port", "80")]] st'.tree serverSchema.root = .ok none := by
  obtain ⟨resp, hset⟩ := set_oldPort
  have helems : (oldPort.under none).elems
      = [] ++ Elem.ofKeys "server" [("port", "80")] :: [Elem.plain "port"] := rfl
  obtain ⟨d, hdata, -, hloses⟩ := lookup_set_entry reachable_serverStore colonFree_serverSchema
    Json.Reader.readsBack_nearest rfl hset helems rfl rfl (full_server "80")
    (eachKey_server isStored_port trivial)
  obtain rfl := Except.ok.inj (dataAt_oldPort.symm.trans hdata)
  exact ⟨_, ⟨resp, hset⟩, hloses ⟨Elem.plain "port", "80", rfl, rfl, by decide⟩⟩

end Store

end ConfigTree
