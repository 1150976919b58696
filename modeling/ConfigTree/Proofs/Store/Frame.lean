import ConfigTree.Proofs.Store.Replace
import ConfigTree.Proofs.Tree.Frame

/-!
# What a set leaves alone

A set with a single write does not change what is found at a path that parts from the path of the
write. The exception are the keys of an entry that the write adds on its way: they are found then.

* `SetRequest.single`: a request with a single write. `set_single_iff` says what a set with it comes
  to.
* `Edit.putInside_frame`: writing a member or an entry leaves alone all else in the node that it is
  in, in either mode.
* `lookup_set_single`: what a look-up finds after the set, against what it found before.

The write works on a copy that is brought into its held form by the commit. So a look-up is followed
twice: through the write, which leaves what it finds as it is, and through the commit, where what it
finds is held already.
-/

namespace ConfigTree

open ConfigTree.Path (Elem)
open ConfigTree.Tree (Object Addresses KeysFit SelectsEntries StoredKeys EndsInKey Diverge NewKey
  LocalAt Apart SelectedBy found? lookup entryAt)
open Members (get? Sorted)
open Schema (Node)
open Schema.Node (Alike Stands)

/-- A request with a single write. Both modes are one case in what follows, because they differ in
what the write puts at the end of its path and not in what it leaves alone. -/
def SetRequest.single (mode : WriteMode) (base : Option Path) (u : Update) : SetRequest :=
  match mode with
  | .replace => ⟨base, [], [u], []⟩
  | .update => ⟨base, [], [], [u]⟩

@[simp] theorem SetRequest.edits_single (mode : WriteMode) (base : Option Path) (u : Update) :
    (SetRequest.single mode base u).edits = [.write mode (u.path.under base) u.value] := by
  cases mode <;> rfl

/-! ### The node that is written in -/

namespace Edit

variable {s : Schema} {r : Json.Reader} {n list target : Node} {e : Elem} {mode : WriteMode}
  {place : String} {ms ms' old new entry : Object} {d : Json} {p : Path}

/-- A key of an entry that has been written comes from the data, which does not contradict the path,
or from the path. -/
theorem get?_of_entryMembers (hnew : Sorted new) {key : String × String} (hkey : key ∈ e.keys)
    (h : entryMembers mode list e place old new = .ok entry) :
    (∃ v, get? new key.1 = some v ∧ get? entry key.1 = some v ∧ keyString v = key.2) ∨
      get? entry key.1 = get? (Tree.keyMembers list e) key.1 := by
  unfold entryMembers at h
  split at h
  · cases h
  · next hnone =>
    obtain rfl := Except.ok.inj h
    cases hvalue : get? new key.1 with
    | some v =>
      have hsame := List.find?_eq_none.1 hnone (key.1, v) (Members.mem_of_get? hvalue)
      rw [contradicts, Members.get?_of_mem e.sorted hkey] at hsame
      refine .inl ⟨v, rfl, ?_, by simpa using hsame⟩
      rw [Members.get?_insertAll hnew, hvalue, Option.some_or]
    | none =>
      -- the keys of the path come after what was there
      refine .inr ?_
      rw [Members.get?_insertAll hnew, hvalue, Option.none_or,
        Members.get?_insertAll (Tree.sorted_keyMembers list e), Tree.get?_keyMembers,
        Members.get?_of_mem e.sorted hkey, Option.map_some, Option.some_or]

/-- An entry that has been written has the keys of its element. -/
theorem hasKeys_of_entryMembers (hkeys : KeysFit list e) (hnew : Sorted new)
    (h : entryMembers mode list e place old new = .ok entry) :
    Tree.hasKeys entry e.keys = true := by
  refine Tree.hasKeys_iff.2 fun key hkey => ?_
  rcases get?_of_entryMembers hnew hkey h with ⟨v, -, hv, htext⟩ | hpath
  · rw [hv, Option.map_some, htext]
  · rw [hpath]
    exact Tree.hasKeys_iff.1 (Tree.hasKeys_keyMembers hkeys) key hkey

/-- **What writing an entry comes to.** The entry that the element selects, or a new one, is given
the members of the data. This says all that such a write does, so nothing later opens its
definition. -/
theorem exists_entry_of_putEntry (he : e.isKeyed = true)
    (h : putEntry mode list e place d ms = .ok ms') : ∃ old new entry,
      (found? ms e = some (.obj old) ∨
        found? ms e = none ∧ Tree.newEntry list e = .obj old) ∧
      d = .obj new ∧ entryMembers mode list e place old new = .ok entry ∧
      ms' = Tree.setFound e (.obj entry) ms := by
  unfold putEntry at h
  split at h
  · cases h
  · cases h
  · next c hfound =>
    -- the entry that is found and the fresh one go the same way from here: `old` is what was there
    -- or the keys alone
    have hat := Tree.childAt_of_findOrCreate he hfound
    split at h
    · next old new hvalue =>
      obtain ⟨entry, hentry, rfl⟩ := map_eq_ok_iff.1 h
      refine ⟨old, new, entry, ?_, rfl, hentry, hat.put _⟩
      rw [← hvalue]
      refine hat.value.imp_right fun ⟨hnone, hfresh⟩ => ⟨hnone, ?_⟩
      rw [hfresh, Tree.fresh, if_pos he]
    · cases h
    · cases h

theorem putEntry_apart (he : e.isKeyed = true) (hkeys : KeysFit list e) (hd : d.Normal)
    (h : putEntry mode list e place d ms = .ok ms') {f : Elem} (hapart : Apart e f) :
    found? ms' f = found? ms f := by
  obtain ⟨old, new, entry, -, rfl, hentry, rfl⟩ := exists_entry_of_putEntry he h
  have hselected : SelectedBy e (.obj entry) := fun _ => hasKeys_of_entryMembers hkeys hd.1 hentry
  exact Tree.found?_setFound_of_apart hselected hapart

theorem get?_putMember {name key : String} (hne : key ≠ name) :
    get? (putMember mode name d ms) key = get? ms key := by
  unfold putMember
  split
  · rw [Members.get?_insert, if_neg (Ne.symm hne)]
  · rw [Members.get?_insert, if_neg (Ne.symm hne)]

/-- Writing a child changes the member of its name only. -/
theorem get?_putInside (h : putInside mode e place d ms n = (.ok (), ms')) {key : String}
    (hne : key ≠ localName e.name) : get? ms' key = get? ms key := by
  rw [putInside_eq_ok_iff, putChild] at h
  -- with keys an entry is written, and without them a member
  cases he : e.isKeyed with
  | true =>
    rw [he, if_pos rfl] at h
    split at h
    · cases h
    · obtain ⟨_, _, _, -, -, -, rfl⟩ := exists_entry_of_putEntry he h
      exact Tree.get?_setFound_of_ne hne
  | false =>
    rw [he, if_neg Bool.false_ne_true] at h
    exact Except.ok.inj h ▸ get?_putMember hne

/-- **Writing a child leaves the others alone.** The first part is about members of other names, the
second one also about the other entries of the list that is written in. -/
theorem putInside_frame (hchild : n.child? e.name = some target)
    (hkeys : e.isKeyed = true → KeysFit target e) (hd : d.Normal)
    (h : putInside mode e place d ms n = (.ok (), ms')) :
    (∀ key, key ≠ localName e.name → get? ms' key = get? ms key) ∧
      ∀ f, Apart e f → found? ms' f = found? ms f := by
  refine ⟨fun key => get?_putInside h, fun f hapart => ?_⟩
  cases he : e.isKeyed with
  | true =>
    rw [putInside_eq_ok_iff, putChild, he, if_pos rfl, hchild] at h
    exact putEntry_apart he (hkeys he) hd h hapart
  | false =>
    -- an element without keys is apart from those of other names only
    rcases hapart with hne | ⟨-, key, text, _, htext, -⟩
    · exact Tree.found?_congr (get?_putInside h (Ne.symm hne))
    · exact absurd (he.symm.trans (Tree.isKeyed_of_get? htext)) Bool.false_ne_true

theorem modifyAt_of_putAt {parent : List Elem} {last : Elem}
    (hsplit : p.splitLast? = some (parent, last)) (h : putAt s mode p d ms = .ok ms') :
    Tree.modifyAt true (putInside mode last p.text d) parent ms s.root = .ok (.ok (), ms') := by
  rw [putAt_eq hsplit] at h
  split at h
  · cases h
  · cases h
  · next changed hmodify => rw [hmodify, Except.ok.inj h]

/-- The tree that a write leaves is alike to itself, since the write keeps alike trees alike. To be
alike to itself is to be of the shape that the commit can follow a path through, which the tree
after the write still has to be shown to have. -/
theorem alike_of_putAt (h : Alike s.root (.obj ms) (.obj ms)) (hpath : Addresses s.root p.elems)
    (htarget : s.root.below? p.elems = some target) (hd : Alike target d d)
    (hput : putAt s mode p d ms = .ok ms') : Alike s.root (.obj ms') (.obj ms') := by
  have hboth : Together (fun a b : Object => Alike s.root (.obj a) (.obj b))
      (putAt s mode p d ms) (putAt s mode p d ms) := putAt_alike h hpath htarget hd
  rw [hput] at hboth
  cases hboth with
  | ok hab => exact hab

/-- Writing at a path changes nothing that the path does not name. -/
theorem localAt_putInside {home : Option String} {found : Node × Option String} {parent : List Elem}
    {last : Elem} (hs : s.Loaded) (hfree : s.ColonFree)
    (hwalk : s.root.walk? home (parent ++ [last]) = some found)
    (hstored : StoredKeys s.root (parent ++ [last])) (hkey : ¬ EndsInKey s.root (parent ++ [last]))
    (hd : d.Normal) : LocalAt (putInside mode last place d) (.ok ()) s.root parent last := by
  have hpath := Tree.addresses_of_walk? hs.keyed hfree hwalk hstored
  refine ⟨hpath, hkey, fun m hm ms ms' hput => ?_⟩
  obtain ⟨child, hchild, hkeys, -⟩ := hpath.of_append hm
  exact putInside_frame hchild hkeys hd hput

/-- **Writing leaves alone what a path finds that parts from the path of the write**, but for the
keys of new entries. Here it is said of the tree that the write leaves, which has not been committed
yet, so a key is found as the text of the path stands for it. -/
theorem lookup_putAt {home : Option String} {found : Node × Option String} {q : List Elem}
    {target : Node × Option String} (hs : s.Loaded) (hfree : s.ColonFree)
    (htarget : s.root.walk? home p.elems = some target)
    (hselects : SelectsEntries s.root p.elems) (hstored : StoredKeys s.root p.elems)
    (hkey : ¬ EndsInKey s.root p.elems) (hd : d.Normal) (hput : putAt s mode p d ms = .ok ms')
    (hq : s.root.walk? home q = some found) (hdiverge : Diverge p.elems q) :
    (¬ NewKey s.root (.obj ms) p.elems q →
      lookup q (.obj ms') s.root = lookup q (.obj ms) s.root) ∧
    (NewKey s.root (.obj ms) p.elems q → lookup q (.obj ms) s.root = .ok none ∧
      ∃ above e last text kind, q = above ++ [e, last] ∧
        get? e.keys (localName last.name) = some text ∧ found.1.scalar? = some kind ∧
        lookup q (.obj ms') s.root = .ok (some (keyValue text (some kind), found.1))) := by
  -- nothing diverges from the root, so the path has a last element
  cases hsplit : p.splitLast? with
  | none =>
    rw [splitLast?_eq_none hsplit] at hdiverge
    cases hdiverge
  | some split =>
    obtain ⟨parent, last⟩ := split
    rw [splitLast?_eq_some hsplit] at htarget hselects hstored hkey hdiverge ⊢
    have hmodify := modifyAt_of_putAt hsplit hput
    have hlocal : LocalAt (putInside mode last p.text d) (.ok ()) s.root parent last :=
      localAt_putInside hs hfree htarget hstored hkey hd
    exact ⟨Tree.lookup_of_modifyAt hs.keyed hlocal hmodify hq hdiverge,
      Tree.lookup_newKey hs.keyed hlocal hmodify hselects hq⟩

end Edit

namespace Store

variable {st st' : Store} {s : Schema} {r : Json.Reader} {mode : WriteMode} {p : Path}
  {value : TypedValue} {ms : Object} {tree : Json}

/-! ### A set with a single write -/

/-- What a set with a single write comes to: the data of its value is put into the committed tree,
and what is read back from that is committed. Only an update of the root is refused before. -/
theorem set_single_iff {base : Option Path} (hd : st.device = none) (hp : st.poisoned = false)
    {now : Int64} :
    (∃ resp, st.set now (.single mode base ⟨p, value⟩) = (.ok resp, st')) ↔
      ((p.under base).isRoot && mode == .update) = false ∧ ∃ d ms' c,
        Edit.dataAt st.schema st.reader (p.under base) value = .ok d ∧
        Edit.putAt st.schema mode (p.under base) d st.members = .ok ms' ∧
        rederive st.schema st.reader (.obj ms') = .ok c ∧ st' = { st with tree := c.data } := by
  rw [set_eq_ok_iff hd hp, SetRequest.edits_single]
  constructor
  · rintro ⟨tree, hsettle, rfl⟩
    obtain ⟨hroot, d, ms', c, hdata, hput, hc, rfl⟩ := settle_write_iff.1 hsettle
    exact ⟨hroot, d, ms', c, hdata, hput, hc, rfl⟩
  · rintro ⟨hroot, d, ms', c, hdata, hput, hc, rfl⟩
    exact ⟨c.data, settle_write_iff.2 ⟨hroot, d, ms', c, hdata, hput, hc, rfl⟩, rfl⟩

/-- A set with a single write succeeds if what the write leaves stands for a document, and commits
that. -/
theorem set_single_of_stands {base : Option Path} {d c : Json} {ms' : Object}
    (hs : st.schema.Loaded) (hfree : st.schema.ColonFree) (hr : st.reader.ReadsBack)
    (hd : st.device = none) (hp : st.poisoned = false)
    (hroot : ((p.under base).isRoot && mode == .update) = false)
    (hdata : Edit.dataAt st.schema st.reader (p.under base) value = .ok d)
    (hput : Edit.putAt st.schema mode (p.under base) d st.members = .ok ms')
    (h : st.schema.root.Stands false (.obj ms') c) (now : Int64) :
    ∃ resp, st.set now (.single mode base ⟨p, value⟩) = (.ok resp, { st with tree := c }) := by
  have hread := Schema.rederive_of_stands hs hfree hr h
  exact (set_single_iff hd hp).2 ⟨hroot, d, ms', _, hdata, hput, hread, rfl⟩

/-! ### What is found after a write -/

/-- What a path finds that ends in a key of a new entry: the key, held as the text that the element
of the entry has for it. -/
def FindsKey (q : List Elem) (held : Json) (leaf : Node) : Prop :=
  ∃ above e last text kind, q = above ++ [e, last] ∧ get? e.keys (localName last.name) = some text ∧
    leaf.scalar? = some kind ∧ canonicalScalar "" kind (keyValue text (some kind)) = .ok held

/-- A key is held in the form of its kind. -/
theorem canonicalScalar_of_stands {leaf : Node} {kind : ScalarKind} {entry : Bool} {text : String}
    {held : Json} (hkind : leaf.scalar? = some kind)
    (h : Stands leaf entry (keyValue text (some kind)) held) :
    canonicalScalar "" kind (keyValue text (some kind)) = .ok held := by
  have hscalar := isScalar_keyValue text (some kind)
  generalize keyValue text (some kind) = w at h hscalar ⊢
  cases h with
  | leaf hheld fits =>
    obtain rfl := Option.some.inj hkind
    exact canonicalScalar_eq_ok_iff.2 hheld
  | leafList => cases hscalar
  | object => cases hscalar
  | list => cases hscalar

/-- What a look-up finds once the tree has been committed. -/
theorem lookup_of_stands {home : Option String} {found : Node × Option String} {q : List Elem}
    {w c x : Json} (hs : s.Loaded) (h : s.root.Stands false w c) (ha : Alike s.root w c)
    (hq : s.root.walk? home q = some found)
    (hx : lookup q w s.root = .ok (some (x, found.1))) :
    ∃ y, lookup q c s.root = .ok (some (y, found.1)) ∧ Stands found.1 (entryAt false q) x y := by
  obtain ⟨o, o', hw, hc, hrel⟩ := Tree.lookup_stands hs.keyed hq h ha
  rw [hx] at hw
  cases hrel with
  | none => cases hw
  | @some a b hab =>
    obtain ⟨rfl, -⟩ := Prod.mk.inj (Option.some.inj (Except.ok.inj hw))
    exact ⟨b, hc, hab⟩

/-- What is held already is found as it is once the tree has been committed. `t` is the tree that
was committed before, and `w` the copy in which the path finds the same. -/
theorem lookup_eq_of_stands {home : Option String} {found : Node × Option String} {q : List Elem}
    {t w c : Json} (hs : s.Loaded) (hfree : s.ColonFree) (ht : s.root.Stands false t t)
    (h : s.root.Stands false w c) (ha : Alike s.root w c)
    (hq : s.root.walk? home q = some found) (hsame : lookup q w s.root = lookup q t s.root) :
    lookup q c s.root = lookup q t s.root := by
  obtain ⟨o, o', hw, hc, hrel⟩ := Tree.lookup_stands hs.keyed hq h ha
  rw [← hsame, hc, hw]
  cases hrel with
  | none => rfl
  | @some x y hxy =>
    obtain ⟨-, hself⟩ := Tree.stands_of_lookup hs.keyed hfree ht hq (hsame ▸ hw)
    rw [hxy.unique (hfree.below? (Node.below?_of_walk? hq)) hself]

/-- **What a set leaves alone.** In a reachable store without a device, a set with a single write
has succeeded at a path that has all keys of the lists that it goes through, with texts in stored
form, and does not end in a key. At each path that parts from it a look-up then finds what it has
found before, unless the path ends in a key of an entry that was missing and that the path of the
write goes through. There it has found nothing, and finds the key. -/
theorem lookup_set_single (h : Reachable st) (hfree : st.schema.ColonFree)
    (hr : st.reader.ReadsBack) (hd : st.device = none) {base : Option Path} {now : Int64}
    {resp : SetResponse}
    (hset : st.set now (.single mode base ⟨p, value⟩) = (.ok resp, st'))
    (hselects : SelectsEntries st.schema.root (p.under base).elems)
    (hstored : StoredKeys st.schema.root (p.under base).elems)
    (hkey : ¬ EndsInKey st.schema.root (p.under base).elems) {q : List Elem}
    (hq : (st.schema.resolve? q).isSome) (hdiverge : Diverge (p.under base).elems q) :
    (¬ NewKey st.schema.root st.tree (p.under base).elems q →
      lookup q st'.tree st.schema.root = lookup q st.tree st.schema.root) ∧
    (NewKey st.schema.root st.tree (p.under base).elems q →
      lookup q st.tree st.schema.root = .ok none ∧ ∃ held leaf, FindsKey q held leaf ∧
        lookup q st'.tree st.schema.root = .ok (some (held, leaf))) := by
  have hinv := h.invariant
  have hstands := hinv.stands hfree
  have htree := h.tree_eq hfree
  rw [htree] at hstands
  obtain ⟨n, hn⟩ := Option.isSome_iff_exists.1 hq
  obtain ⟨found, hwalk, -⟩ := Option.map_eq_some_iff.1 hn
  -- the write puts data into the committed tree, which is read back then
  obtain ⟨-, d, ms', c, hdata, hput, hc, rfl⟩ := (set_single_iff hd hinv.poisoned).1 ⟨resp, hset⟩
  obtain ⟨target, home, hnode, hself⟩ := Edit.stands_of_dataAt hfree hdata
  have htarget := Edit.walk?_of_nodeAt hnode
  have hpath := Tree.addresses_of_walk? hinv.loaded.keyed hfree htarget hstored
  have hbelow := Node.below?_of_walk? htarget
  have hsame : Alike st.schema.root (.obj ms') (.obj ms') :=
    Edit.alike_of_putAt (Alike.of_stands hfree hstands) hpath hbelow
      (Alike.of_stands (hfree.below? hbelow) hself) hput
  -- so the copy that has been written is alike to the tree that is committed
  have hheld := (rederive_of_alike hinv.loaded hfree hr hsame hc).1
  obtain ⟨-, halike⟩ := hsame.stands hfree hheld
  obtain ⟨hothers, hnew⟩ := Edit.lookup_putAt hinv.loaded hfree htarget hselects hstored hkey
    hself.normal hput hwalk hdiverge
  rw [htree]
  refine ⟨fun hnot => ?_, fun hkeys => ?_⟩
  -- what was found in the committed tree is held already, so the commit leaves it as it is
  · exact lookup_eq_of_stands hinv.loaded hfree hstands hheld halike hwalk (hothers hnot)
  -- the key of a new entry is found as its text says, and gets its held form by the commit
  · obtain ⟨hnone, above, e, last, text, kind, helems, htext, hkind, hfound⟩ := hnew hkeys
    obtain ⟨held, hlookup, hkeyHeld⟩ := lookup_of_stands hinv.loaded hheld halike hwalk hfound
    refine ⟨hnone, held, found.1, ⟨above, e, last, text, kind, helems, htext, hkind, ?_⟩, hlookup⟩
    exact canonicalScalar_of_stands hkind hkeyHeld

/-! ### A server that is added on the way -/

/-- The flag of a server that the store does not have. -/
def newFlag : Path := Path.ofElems [Elem.ofKeys "server" [("port", "8080")], Elem.plain "enabled"]

/-- The port of that server. -/
def newPort : List Elem := [Elem.ofKeys "server" [("port", "8080")], Elem.plain "port"]

/-- The flag of the server that there is. -/
def oldFlag : List Elem := [Elem.ofKeys "server" [("port", "80")], Elem.plain "enabled"]

/-- The tree with both servers. -/
def grownTree : Json :=
  .obj [
    ("host", .str "alpha"),
    ("server", .arr [
      .obj [("enabled", .bool true), ("port", .num (.ofUInt64 80))],
      .obj [("enabled", .bool true), ("port", .num (.ofUInt64 8080))]])]

theorem normal_grownTree : grownTree.Normal :=
  ⟨by decide, trivial,
    ⟨⟨by decide, trivial, trivial, trivial⟩, ⟨by decide, trivial, trivial, trivial⟩, trivial⟩,
    trivial⟩

/-- The store with both servers. -/
def grownStore : Store := { serverStore none [] with tree := grownTree }

theorem dataAt_newFlag :
    Edit.dataAt serverSchema .nearest newFlag (.bool true) = .ok (.bool true) := by
  have hparse : Json.parseBytes? .nearest (Json.bool true).bytes = some (.bool true) := by
    rw [Json.parseBytes?_bytes Json.Reader.readsBack_nearest]
    decide
  have hnode : serverSchema.nodeAt newFlag.elems = .ok (.leaf none .bool, none) := rfl
  exact Edit.dataAt_of_payload hnode rfl hparse rfl rfl

/-- The server comes with its port. -/
theorem set_newFlag : ∃ resp, (serverStore none []).set 0
    (.single .replace none ⟨newFlag, .bool true⟩) = (.ok resp, grownStore) := by
  obtain ⟨ms', hms'⟩ : ∃ ms', grownTree = .obj ms' := ⟨_, rfl⟩
  have hput : Edit.putAt serverSchema .replace newFlag (.bool true) (serverStore none []).members
      = .ok ms' := by
    obtain rfl := Json.obj.inj hms'
    rfl
  have hstands : serverSchema.root.Stands false grownTree grownTree := by
    have hconform : serverSchema.root.conform "/" false grownTree = .ok grownTree := rfl
    have hvalid : serverSchema.root.validate "/" false grownTree = .ok () := rfl
    exact Node.stands_of_conform colonFree_serverSchema hconform hvalid
  exact set_single_of_stands loaded_serverSchema colonFree_serverSchema
    Json.Reader.readsBack_nearest rfl rfl rfl dataAt_newFlag hput (hms' ▸ hstands) 0

theorem reachable_grownStore : Reachable grownStore := by
  obtain ⟨resp, hset⟩ := set_newFlag
  have hgrown := reachable_serverStore.set 0 (.single .replace none ⟨newFlag, .bool true⟩)
  rwa [hset] at hgrown

/-- The tree that the write has left is valid, and is read back from its text. -/
theorem committed_grownStore : grownStore.tree.isObject = true ∧
    serverSchema.validate (Subtree.root grownTree) = .ok () ∧
    rederive serverSchema .nearest grownTree = .ok (Subtree.root grownTree) ∧
    grownStore.poison.2.tree = grownTree :=
  reachable_grownStore.committed colonFree_serverSchema Json.Reader.readsBack_nearest

/-- The path of a member of a server has all keys. -/
theorem selectsEntries_server (text name : String) : SelectsEntries serverSchema.root
    [Elem.ofKeys "server" [("port", text)], Elem.plain name] :=
  selectsEntries_server_cons fun _ _ => ⟨.inl ⟨rfl, rfl⟩, trivial⟩

theorem storedKeys_newFlag : StoredKeys serverSchema.root newFlag.elems := by
  refine eachKey_server isKeyText_8080.isStored fun child _ => ⟨fun key hkey => ?_, trivial⟩
  cases hkey

/-- The flag of a server is none of its keys. -/
theorem not_endsInKey_flag (text : String) : ¬ EndsInKey serverSchema.root
    ([Elem.ofKeys "server" [("port", text)]] ++ [Elem.plain "enabled"]) := by
  have hserver : serverSchema.root.child? "server" = some serverList := rfl
  have hchild : serverSchema.root.child? (Elem.ofKeys "server" [("port", text)]).name
      = some serverList := hserver
  rw [Tree.endsInKey_concat, Node.below?_cons hchild]
  rintro ⟨list, keys, hlist, hkeys, hmem⟩
  obtain rfl := Option.some.inj hlist
  obtain rfl := Option.some.inj hkeys
  exact absurd hmem (by decide)

/-- The flag of the other server is found as before. -/
theorem lookup_oldFlag : ∃ resp st', (serverStore none []).set 0
      (.single .replace none ⟨newFlag, .bool true⟩) = (.ok resp, st') ∧
    lookup oldFlag st'.tree serverSchema.root = lookup oldFlag serverTree serverSchema.root := by
  obtain ⟨resp, hset⟩ := set_newFlag
  have hdiverge : Diverge newFlag.elems oldFlag :=
    .here (.inr ⟨rfl, "port", "8080", "80", rfl, rfl, by decide⟩)
  -- `NewKey` asks for a path that ends in a key, and this one ends in `enabled`
  have hnew : ¬ NewKey serverSchema.root serverTree newFlag.elems oldFlag := by
    rintro ⟨above, last, next, rest, hq, -, hends, -⟩
    rw [← hq] at hends
    exact not_endsInKey_flag "80" hends
  have hselects := selectsEntries_server "8080" "enabled"
  exact ⟨resp, _, hset, (lookup_set_single reachable_serverStore colonFree_serverSchema
    Json.Reader.readsBack_nearest rfl hset hselects storedKeys_newFlag (not_endsInKey_flag "8080")
    rfl hdiverge).1 hnew⟩

/-- The port of the new server is found, where nothing was before, though only its flag has been
written. -/
theorem lookup_newPort : ∃ resp st', (serverStore none []).set 0
      (.single .replace none ⟨newFlag, .bool true⟩) = (.ok resp, st') ∧
    SelectsEntries serverSchema.root newFlag.elems ∧ StoredKeys serverSchema.root newFlag.elems ∧
    ¬ EndsInKey serverSchema.root newFlag.elems ∧ SelectsEntries serverSchema.root newPort ∧
    (serverSchema.resolve? newPort).isSome ∧ Diverge newFlag.elems newPort ∧
    lookup newPort serverTree serverSchema.root = .ok none ∧
    lookup newPort st'.tree serverSchema.root
      = .ok (some (.num (.ofUInt64 8080), .leaf none (.uint 16))) := by
  obtain ⟨resp, hset⟩ := set_newFlag
  have hdiverge : Diverge newFlag.elems newPort := .there (.here (.inl (by decide)))
  exact ⟨resp, _, hset, selectsEntries_server _ _, storedKeys_newFlag, not_endsInKey_flag "8080",
    selectsEntries_server _ _, rfl, hdiverge, rfl, rfl⟩

end Store

end ConfigTree
