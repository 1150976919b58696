import ConfigTree.Tree.Delete
import ConfigTree.Proofs.Schema.Alike

/-!
# Steps into trees that are alike

In two trees that are alike a path leads to nodes that are alike, an entry is found at the same
place, and a change below the path that keeps two nodes alike keeps the trees alike. The path has
to be one that the schema knows, with the keys of the lists that it passes, in stored form:
`Addresses` says so.

* `descend_alike`: one step.
* `modifyAt_alike`: a change below a path.
* `prune_alike`, `deleteEntry_alike`: the parts of a deletion.
-/

namespace ConfigTree

open ConfigTree.Path (Elem)
open Members (get? Sorted SameNames)

namespace Schema.Node

variable {n child : Node} {w v : Json} {name : String} {home : Option String} {keys : List String}
  {children : List (String × Node)} {ms vs : List (String × Json)} {xs ys : List Json}

/-! ### Changes of members and entries -/

theorem Alike.insert (h : Alike n (.obj ms) (.obj vs)) (hn : n.children? = some children)
    (hchild : get? children name = some child) (hw : Alike child w v) :
    Alike n (.obj (Members.insert ms name w)) (.obj (Members.insert vs name v)) :=
  (alike_object_iff hn).2 (((alike_object_iff hn).1 h).insert hchild hw)

theorem Alike.erase (h : Alike n (.obj ms) (.obj vs)) (name : String) :
    Alike n (.obj (Members.erase ms name)) (.obj (Members.erase vs name)) := by
  obtain ⟨children, hn⟩ := h.exists_children
  exact (alike_object_iff hn).2 (((alike_object_iff hn).1 h).erase name)

/-- Members that are added one after another to members that are alike. -/
theorem Alike.insertAll {new new' : List (String × Json)} (h : Alike n (.obj ms) (.obj vs))
    (hnew : Alike n (.obj new) (.obj new')) :
    Alike n (.obj (Members.insertAll ms new)) (.obj (Members.insertAll vs new')) := by
  obtain ⟨children, hn⟩ := h.exists_children
  have hms := (alike_object_iff hn).1 h
  exact (alike_object_iff hn).2 (hms.insertAll ((alike_object_iff hn).1 hnew))

theorem Alike.empty (hn : n.children? = some children) : Alike n (.obj []) (.obj []) :=
  (alike_object_iff hn).2 .nil

theorem Alike.set {i : Nat} (h : Alike (.list home keys children) (.arr xs) (.arr ys))
    (hw : Alike (.list home keys children) w v) :
    Alike (.list home keys children) (.arr (xs.set i w)) (.arr (ys.set i v)) :=
  alike_list_iff.2 (forall₂_set (alike_list_iff.1 h) i hw)

end Schema.Node

namespace Tree

open Schema (Node)
open Schema.Node (Alike keyTuple)

variable {n list : Node} {e : Elem} {home : Option String} {keys : List String}
  {children : List (String × Node)} {ms vs : Object} {xs ys : List Json} {w v : Json}

/-! ### Paths that the schema knows -/

/-- The keys of an element are keys of a list, which are leaves, and their texts are in stored form.
A text that is not would be held as another one, and the entry that has been added for it could not
be found by it again. -/
def KeysFit (list : Node) (e : Elem) : Prop :=
  ∃ home keys children, list = .list home keys children ∧ ∀ key ∈ e.keys, key.1 ∈ keys ∧
    localName key.1 = key.1 ∧ ∃ home kind, get? children key.1 = some (.leaf home kind) ∧
      IsStored key.2 kind

/-- A path leads from a node to another, with keys that fit at each list on the way. An element
without keys may name a list too: the list itself at the end of a path, and before the end what the
code takes for a container. -/
def Addresses : Node → List Elem → Prop
  | _, [] => True
  | n, e :: rest => ∃ child, n.child? e.name = some child ∧
      (e.isKeyed = true → KeysFit child e) ∧ Addresses child rest

/-- The text of each key of a path is as asked of the leaf that the key is about. The leaf is
looked up at each node on the way, so this is a property of the path at a node and not of the path
alone. -/
def EachKey (P : String → ScalarKind → Prop) : Node → List Elem → Prop
  | _, [] => True
  | n, e :: rest => ∀ child, n.child? e.name = some child →
      (∀ key ∈ e.keys, ∀ leaf kind, child.child? key.1 = some leaf → leaf.scalar? = some kind →
        P key.2 kind) ∧ EachKey P child rest

theorem EachKey.imp {P Q : String → ScalarKind → Prop} {elems : List Elem}
    (hPQ : ∀ text kind, P text kind → Q text kind) (h : EachKey P n elems) : EachKey Q n elems := by
  induction elems generalizing n with
  | nil => trivial
  | cons e elems ih =>
    intro child hchild
    obtain ⟨hkeys, hrest⟩ := h child hchild
    exact ⟨fun key hkey leaf kind hleaf hkind => hPQ _ _ (hkeys key hkey leaf kind hleaf hkind),
      ih hrest⟩

theorem eachKey_of_forall {P : String → ScalarKind → Prop} (hP : ∀ text kind, P text kind)
    (n : Node) (elems : List Elem) : EachKey P n elems := by
  induction elems generalizing n with
  | nil => trivial
  | cons e elems ih => exact fun child _ => ⟨fun _ _ _ _ _ _ => hP _ _, ih child⟩

/-- The texts of the keys of a path are in stored form. -/
def StoredKeys : Node → List Elem → Prop := EachKey IsStored

theorem Addresses.prefix {elems rest : List Elem} (h : Addresses n (elems ++ rest)) :
    Addresses n elems := by
  induction elems generalizing n with
  | nil => trivial
  | cons e elems ih =>
    obtain ⟨child, hchild, hkeys, hrest⟩ := h
    exact ⟨child, hchild, hkeys, ih hrest⟩

theorem keys_eq_nil (he : e.isKeyed = false) : e.keys = [] :=
  List.isEmpty_iff.1 (by simpa [Elem.isKeyed] using he)

/-- Nothing but a list owns keys. An element that has any and whose node owns them therefore names a
list. -/
theorem isList_of_ownsKeys (howns : list.OwnsKeys e) (he : e.isKeyed = true) :
    list.isList = true := by
  unfold Node.OwnsKeys at howns
  split at howns
  · next hkeys => exact Option.isSome_of_eq_some hkeys
  · exact absurd (he.symm.trans howns) (by decide)

theorem exists_list_of_ownsKeys (howns : list.OwnsKeys e) (he : e.isKeyed = true) :
    ∃ home keys children, list = .list home keys children :=
  Node.exists_list_of_isList (isList_of_ownsKeys howns he)

/-- A list has the keys that it owns as leaves, under their own names. -/
theorem exists_leaf_of_ownsKeys (hkeyed : (Node.list home keys children).KeyedAt)
    (hfree : Schema.ColonFreeAt (.list home keys children))
    (howns : (Node.list home keys children).OwnsKeys e) {key : String × String}
    (hkey : key ∈ e.keys) : key.1 ∈ keys ∧ localName key.1 = key.1 ∧ ∃ home' kind,
      get? children key.1 = some (.leaf home' kind) ∧
        (Node.list home keys children).child? key.1 = some (.leaf home' kind) := by
  have hmem : key.1 ∈ keys := howns key hkey
  obtain ⟨home', kind, hleaf⟩ := (hkeyed keys children rfl rfl).2 _ hmem
  exact ⟨hmem, hfree.localName rfl hleaf, home', kind, hleaf, hfree.child? rfl hleaf⟩

/-- The keys that an element has are keys of the list that it names. -/
theorem keysFit_of_ownsKeys (hkeyed : list.KeyedAt) (hfree : Schema.ColonFreeAt list)
    (howns : list.OwnsKeys e) (he : e.isKeyed = true)
    (hstored : ∀ key ∈ e.keys, ∀ leaf kind, list.child? key.1 = some leaf →
      leaf.scalar? = some kind → IsStored key.2 kind) : KeysFit list e := by
  obtain ⟨home, keys, children, rfl⟩ := exists_list_of_ownsKeys howns he
  refine ⟨home, keys, children, rfl, fun key hkey => ?_⟩
  obtain ⟨hmem, hlocal, home', kind, hleaf, hchild⟩ :=
    exists_leaf_of_ownsKeys hkeyed hfree howns hkey
  exact ⟨hmem, hlocal, home', kind, hleaf, hstored key hkey _ kind hchild rfl⟩

/-- An element without keys, or with keys that fit, has no others than those of the node. -/
theorem ownsKeys_of_keysFit (h : e.isKeyed = true → KeysFit list e) : list.OwnsKeys e := by
  cases he : e.isKeyed with
  | false =>
    unfold Node.OwnsKeys
    cases list.listKeys? with
    | none => exact he
    | some keys =>
      intro key hkey
      rw [keys_eq_nil he] at hkey
      cases hkey
  | true =>
    obtain ⟨home, keys, children, rfl, hfit⟩ := h he
    exact fun key hkey => (hfit key hkey).1

/-- **A path that has a node in the schema leads to it**, with keys that fit if their texts are in
stored form. That its keys are those of the lists is what having a node in the schema says of it;
that they are leaves is what loading has checked. -/
theorem addresses_of_walk? {home : Option String} {elems : List Elem}
    {found : Node × Option String} (hkeyed : n.Everywhere Node.KeyedAt)
    (hfree : n.Everywhere Schema.ColonFreeAt) (h : n.walk? home elems = some found)
    (hstored : StoredKeys n elems) : Addresses n elems := by
  -- the home is the one thing the walk carries along that nothing here depends on
  induction elems generalizing n home with
  | nil => trivial
  | cons e rest ih =>
    obtain ⟨c, hc, howns, hrest⟩ := Node.walk?_cons h
    obtain ⟨hkeys, hstored⟩ := hstored c hc
    obtain ⟨cs, hcs, hget⟩ := Option.bind_eq_some_iff.1 hc
    have hkeyed' := hkeyed.child hcs hget
    have hfree' := hfree.child hcs hget
    exact ⟨c, hc, fun he => keysFit_of_ownsKeys hkeyed'.here hfree'.here howns he hkeys,
      ih hkeyed' hfree' hrest hstored⟩

theorem KeysFit.isList (h : KeysFit list e) : list.isList = true := by
  obtain ⟨home, keys, children, rfl, -⟩ := h
  rfl

theorem childSchema_eq {child : Node} (hchild : n.child? e.name = some child)
    (hkeys : e.isKeyed = true → KeysFit child e) : childSchema n e = .ok child := by
  unfold childSchema
  rw [hchild]
  cases hkeyed : e.isKeyed with
  | false => rfl
  | true => simp [(hkeys hkeyed).isList]

/-- The name of a child without its module is the one under which it stands. -/
theorem get?_of_child? {child : Node} {name : String} (h : n.child? name = some child) :
    ∃ children, n.children? = some children ∧ get? children (localName name) = some child :=
  Option.bind_eq_some_iff.1 h

/-! ### Entries -/

/-- An entry has keys with certain texts if each of them is there with that text. An entry may have
more keys than it is asked for. -/
theorem hasKeys_iff {pairs : List (String × String)} : hasKeys ms pairs = true ↔
    ∀ key ∈ pairs, (get? ms key.1).map keyString = some key.2 := by
  unfold hasKeys
  rw [List.all_eq_true]
  refine forall₂_congr fun key _ => ?_
  cases get? ms key.1 with
  | none => simp
  | some held => simp

/-- An element has all keys of a list. So it selects at most one entry, where entries are told apart
by their keys. -/
def Full (list : Node) (e : Elem) : Prop :=
  ∀ keys, list.listKeys? = some keys → ∀ key ∈ keys, (get? e.keys key).isSome

/-- An entry that has the keys of an element that has them all is told by their texts. -/
theorem Full.keyTuple (h : Full (.list home keys children) e) (hms : hasKeys ms e.keys = true) :
    keyTuple keys (.obj ms) = keys.map fun key => get? e.keys key := by
  rw [Node.keyTuple, List.map_inj_left]
  intro key hkey
  obtain ⟨text, htext⟩ := Option.isSome_iff_exists.1 (h keys rfl key hkey)
  rw [htext]
  exact hasKeys_iff.1 hms (key, text) (Members.mem_of_get? htext)

theorem Full.none_not_mem (h : Full (.list home keys children) e)
    (hms : hasKeys ms e.keys = true) : none ∉ Node.keyTuple keys (.obj ms) := by
  rw [h.keyTuple hms]
  intro hmem
  obtain ⟨key, hkey, hnone⟩ := List.mem_map.1 hmem
  exact absurd (h keys rfl key hkey) (by rw [hnone]; exact Bool.false_ne_true)

/-- Entries with the same keys have the keys of the same elements, as long as these ask for nothing
but keys. -/
theorem hasKeys_of_keyTuple (howns : (Node.list home keys children).OwnsKeys e)
    (h : keyTuple keys (.obj ms) = keyTuple keys (.obj vs)) (hvs : hasKeys vs e.keys = true) :
    hasKeys ms e.keys = true := by
  rw [hasKeys_iff] at hvs ⊢
  rw [Node.keyTuple, Node.keyTuple, List.map_inj_left] at h
  intro key hkey
  rw [← hvs key hkey]
  exact h key.1 (howns key hkey)

/-- Objects that are alike have the same texts of their leaves. -/
theorem hasKeys_alike_of_leaves (h : Alike n (.obj ms) (.obj vs)) (hn : n.children? = some children)
    {pairs : List (String × String)}
    (hleaf : ∀ key ∈ pairs, ∃ home kind, get? children key.1 = some (.leaf home kind)) :
    hasKeys ms pairs = hasKeys vs pairs := by
  rw [Bool.eq_iff_iff, hasKeys_iff, hasKeys_iff]
  refine forall₂_congr fun key hkey => ?_
  obtain ⟨_, kind, hleaf⟩ := hleaf key hkey
  rw [h.text hn hleaf]

/-- Entries that are alike have the same texts of their keys. -/
theorem hasKeys_alike (h : Alike list (.obj ms) (.obj vs)) (hkeys : KeysFit list e) :
    hasKeys ms e.keys = hasKeys vs e.keys := by
  obtain ⟨home, keys, children, rfl, hfit⟩ := hkeys
  refine hasKeys_alike_of_leaves h rfl fun key hkey => ?_
  obtain ⟨-, -, home', kind, hleaf, -⟩ := hfit key hkey
  exact ⟨home', kind, hleaf⟩

theorem isEntryWith_alike (h : Alike list w v) (hkeys : KeysFit list e) :
    isEntryWith e.keys w = isEntryWith e.keys v := by
  obtain ⟨home, keys, children, rfl, hfit⟩ := id hkeys
  rcases h.cases_list with ⟨xs, ys, rfl, rfl, -⟩ | ⟨ms, vs, rfl, rfl⟩
  · rfl
  · exact hasKeys_alike h hkeys

/-- In lists that are alike an entry is found at the same place, or on neither side, or both
look-ups fail. They fail alike because an entry is an object on both sides or on none. -/
theorem findKeyed?_alike (hxs : List.Forall₂ (Alike list) xs ys) (hkeys : KeysFit list e) :
    Together (Option.Rel fun p q : Nat × Json => p.1 = q.1 ∧ Alike list p.2 q.2)
      (findKeyed? e xs) (findKeyed? e ys) := by
  obtain ⟨home, keys, children, rfl, hfit⟩ := id hkeys
  induction hxs with
  | nil => exact .ok .none
  | cons hxy _ ih =>
    -- an entry that is no object is an error on both sides
    rcases hxy.cases_list with ⟨xs, ys, rfl, rfl, -⟩ | ⟨ms, vs, rfl, rfl⟩
    · exact .error _ _
    · rw [findKeyed?, findKeyed?, hasKeys_alike hxy hkeys]
      split
      · exact .ok (.some ⟨rfl, hxy⟩)
      · refine ih.map fun found found' hfound => ?_
        cases hfound with
        | none => exact .none
        | some hpq => exact .some ⟨congrArg (· + 1) hpq.1, hpq.2⟩

/-- A new entry is alike to itself, since the texts of its keys are in stored form. Its keys stand
in the form in which the path gives them, so this is where the working copy comes to differ from the
tree with held forms. -/
theorem newEntry_alike (hkeys : KeysFit list e) :
    Alike list (newEntry list e) (newEntry list e) := by
  obtain ⟨home, keys, children, rfl, hfit⟩ := hkeys
  have hmember : ∀ {name w}, get? (keyMembers (.list home keys children) e) name = some w →
      ∃ text home kind, get? children name = some (.leaf home kind) ∧ IsStored text kind ∧
        w = keyValue text (some kind) := by
    intro name w hw
    rw [keyMembers, Members.get?_map fun key : String × String =>
      keyValue key.2 (((Node.list home keys children).child? key.1).bind Node.scalar?)] at hw
    obtain ⟨text, htext, rfl⟩ := Option.map_eq_some_iff.1 hw
    obtain ⟨-, hlocal, home', kind, hleaf, hstored⟩ := hfit _ (Members.mem_of_get? htext)
    have hchild : (Node.list home keys children).child? name = some (.leaf home' kind) :=
      Node.child?_of_get? rfl hlocal hleaf
    exact ⟨text, home', kind, hleaf, hstored, by rw [hchild]; rfl⟩
  have hsorted : Sorted (keyMembers (.list home keys children) e) := Members.sorted_map _ e.sorted
  -- both sides are the same entry, so what is under a name is one scalar
  refine .object rfl hsorted hsorted (fun _ => rfl) (fun name w hw => ?_) ?_
  · obtain ⟨text, _, kind, hleaf, -⟩ := hmember hw
    exact Option.isSome_of_eq_some hleaf
  · intro name child w w' hchild hw hw'
    obtain rfl := Option.some.inj (hw.symm.trans hw')
    obtain ⟨text, _, kind, hleaf, hstored, rfl⟩ := hmember hw
    obtain rfl := Option.some.inj (hchild.symm.trans hleaf)
    have hscalar : (keyValue text (some kind)).isScalar = true := by
      unfold keyValue
      split <;> rfl
    refine .leaf hscalar hscalar rfl rfl fun c hc => ?_
    obtain ⟨hvalue, hc⟩ := keyString_keyValue hstored hc
    rw [hc, hvalue]

/-! ### One step -/

/-- The name of the member that a place is in. -/
def Slot.name : Slot → String
  | .member name => name
  | .entry list _ => list

/-- Children that a step has found in nodes that are alike. Both are in the same place of members
that are alike, and the schema knows the place; what is put there on both sides is asked to be alike
again. -/
structure ChildAlike (n below : Node) (c c' : Child) : Prop where
  slot : c.slot = c'.slot
  members : Alike n (.obj c.members) (.obj c'.members)
  value : Alike below c.value c'.value
  schema : ∃ children, n.children? = some children ∧ get? children c.slot.name = some below
  /-- Only a list has places of entries. -/
  entry : ∀ name i, c.slot = .entry name i → below.isList = true

/-- **Putting values that are alike into place keeps the nodes alike.** The place is a member, or an
entry of a list that is there on both sides or on neither. -/
theorem ChildAlike.put {below : Node} {c c' : Child} (h : ChildAlike n below c c')
    (hw : Alike below w v) :
    Alike n (.obj (c.slot.put c.members w)) (.obj (c'.slot.put c'.members v)) := by
  obtain ⟨hslot, hmembers, -, ⟨children, hn, hschema⟩, hentry⟩ := h
  rw [← hslot]
  cases hplace : c.slot with
  | member name =>
    rw [hplace] at hschema
    exact hmembers.insert hn hschema hw
  | entry name i =>
    rw [hplace] at hschema
    change get? children name = some below at hschema
    have hlist := hentry name i hplace
    -- the list of the entry is among the members, or in neither of them
    cases hx : get? c.members name with
    | none =>
      simp only [Slot.put, hx, hmembers.sameNames.eq_none hx]
      exact hmembers
    | some x =>
      obtain ⟨y, hy, hxy⟩ := hmembers.member hn hschema hx
      simp only [Slot.put, hx, hy]
      obtain ⟨home, keys, cs, rfl⟩ := Schema.Node.exists_list_of_isList hlist
      rcases hxy.cases_list with ⟨xs, ys, rfl, rfl, hxs⟩ | ⟨ms, vs, rfl, rfl⟩
      · exact hmembers.insert hn hschema ((Schema.Node.alike_list_iff.2 hxs).set hw)
      · exact hmembers

/-- Looking up an entry, and adding it if it is missing, goes the same way in members that are
alike. The cases are those of the look-up: there is no list, there is one with or without the entry,
or what stands there is no list. -/
theorem findOrCreate_alike {child : Node} (h : Alike n (.obj ms) (.obj vs))
    (hchild : n.child? e.name = some child) (hkeys : KeysFit child e) (create : Bool) :
    Together (Option.Rel (ChildAlike n child)) (findOrCreate ms child e create)
      (findOrCreate vs child e create) := by
  obtain ⟨children, hn, hget⟩ := get?_of_child? hchild
  have hfresh := newEntry_alike hkeys
  unfold findOrCreate
  dsimp only
  cases hx : get? ms (localName e.name) with
  | none =>
    rw [h.sameNames.eq_none hx]
    cases create with
    | false => exact .ok .none
    -- a list with the new entry alone
    | true =>
      refine .ok (.some ⟨rfl, h.insert hn hget ?_, hfresh, ⟨children, hn, hget⟩, fun _ _ _ =>
        hkeys.isList⟩)
      obtain ⟨home, keys, cs, rfl, -⟩ := hkeys
      exact Schema.Node.alike_list_iff.2 (.cons hfresh .nil)
  | some x =>
    obtain ⟨y, hy, hxy⟩ := h.member hn hget hx
    rw [hy]
    obtain ⟨home, keys, cs, rfl, -⟩ := id hkeys
    rcases hxy.cases_list with ⟨xs, ys, rfl, rfl, hxs⟩ | ⟨_, _, rfl, rfl⟩
    · dsimp only
      rcases (findKeyed?_alike hxs hkeys).some_or_none with
        ⟨⟨i, x⟩, ⟨j, y⟩, hx, hy, rfl, hxy⟩ | ⟨hx, hy⟩ | ⟨err, err', hx, hy⟩
      · rw [hx, hy]
        exact .ok (.some ⟨rfl, h, hxy, ⟨children, hn, hget⟩, fun _ _ _ => rfl⟩)
      · rw [hx, hy]
        cases create with
        | false => exact .ok .none
        | true =>
          -- the lists are equally long, so the new entry has the same place in both
          have hlist := Schema.Node.alike_list_iff.2 (List.rel_append hxs (.cons hfresh .nil))
          refine .ok (.some ⟨?_, h.insert hn hget hlist, hfresh, ⟨children, hn, hget⟩,
            fun _ _ _ => rfl⟩)
          rw [hxs.length_eq]
      · rw [hx, hy]
        exact .error _ _
    · exact .error _ _

/-- The child that an element without keys names. A missing one is added only where it has
members. -/
theorem findOrCreateMember_alike {child : Node} (h : Alike n (.obj ms) (.obj vs))
    (hchild : n.child? e.name = some child) (create : Bool)
    (hcreate : create = true → ∃ cs, child.children? = some cs) :
    Option.Rel (ChildAlike n child) (findOrCreateMember ms e create)
      (findOrCreateMember vs e create) := by
  obtain ⟨children, hn, hget⟩ := get?_of_child? hchild
  unfold findOrCreateMember
  dsimp only
  cases hx : get? ms (localName e.name) with
  -- the same names are there on both sides, so both create or neither does
  | none =>
    rw [h.sameNames.eq_none hx]
    cases create with
    | false => exact .none
    | true =>
      obtain ⟨cs, hcs⟩ := hcreate rfl
      have hempty := Alike.empty hcs
      exact .some ⟨rfl, h.insert hn hget hempty, hempty, ⟨children, hn, hget⟩,
        fun _ _ hslot => nomatch hslot⟩
  | some x =>
    obtain ⟨y, hy, hxy⟩ := h.member hn hget hx
    rw [hy]
    exact .some ⟨rfl, h, hxy, ⟨children, hn, hget⟩, fun _ _ hslot => nomatch hslot⟩

/-- **One step into nodes that are alike** leads to children that are alike. It fails on both sides
or on neither, and finds something on both or on neither. -/
theorem descend_alike {child : Node} (h : Alike n (.obj ms) (.obj vs))
    (hchild : n.child? e.name = some child) (hkeys : e.isKeyed = true → KeysFit child e)
    (create : Bool) (hcreate : create = true → ∃ cs, child.children? = some cs) :
    Together (Option.Rel fun p q : Child × Node => p.2 = child ∧ q.2 = child ∧
      ChildAlike n child p.1 q.1) (descend ms n e create) (descend vs n e create) := by
  -- both ways down pair what they find with the child of the schema, and pairing changes nothing
  have hmap : ∀ {x y : Option Child}, Option.Rel (ChildAlike n child) x y →
      Option.Rel (fun p q : Child × Node => p.2 = child ∧ q.2 = child ∧ ChildAlike n child p.1 q.1)
        (x.map fun c => (c, child)) (y.map fun c => (c, child)) := by
    intro x y hxy
    cases hxy with
    | some hc => exact .some ⟨rfl, rfl, hc⟩
    | none => exact .none
  unfold descend
  rw [childSchema_eq hchild hkeys]
  cases hkeyed : e.isKeyed with
  | true =>
    exact (findOrCreate_alike h hchild (hkeys hkeyed) create).bind fun _ _ hxy => .ok (hmap hxy)
  | false => exact .ok (hmap (findOrCreateMember_alike h hchild create hcreate))

/-! ### Changes below a path -/

theorem Addresses.exists_children {elems : List Elem} (h : Addresses n elems) (hne : elems ≠ []) :
    ∃ cs, n.children? = some cs := by
  cases elems with
  | nil => exact absurd rfl hne
  | cons e elems =>
    obtain ⟨child, hchild, -⟩ := h
    obtain ⟨children, hn, -⟩ := get?_of_child? hchild
    exact ⟨children, hn⟩

/-- **A change below a path** that keeps the nodes there alike keeps the trees alike. `tail` is what
follows the path up to the node that the change is about. The induction is on the path, and the two
changes need not be the same function: each may put its own form of a value. -/
theorem modifyAt_alike {β β' : Type} {R : β → β' → Prop} {create : Bool}
    {f : Object → Node → β × Object} {g : Object → Node → β' × Object} {elems tail : List Elem}
    (htail : tail ≠ []) (hpath : Addresses n (elems ++ tail)) (h : Alike n (.obj ms) (.obj vs))
    (hfg : ∀ m ms vs, n.below? elems = some m → Addresses m tail → Alike m (.obj ms) (.obj vs) →
      R (f ms m).1 (g vs m).1 ∧ Alike m (.obj (f ms m).2) (.obj (g vs m).2)) :
    Together (fun a b : _ × Object => R a.1 b.1 ∧ Alike n (.obj a.2) (.obj b.2))
      (modifyAt create f elems ms n) (modifyAt create g elems vs n) := by
  induction elems generalizing n ms vs with
  | nil => exact .ok (hfg n ms vs rfl hpath h)
  | cons e elems ih =>
    obtain ⟨child, hchild, hkeys, hrest⟩ := hpath
    have hcreate := hrest.exists_children (by simp [htail])
    rw [modifyAt, modifyAt]
    rcases (descend_alike h hchild hkeys create fun _ => hcreate).some_or_none with
      ⟨⟨⟨members, slot, value⟩, below⟩, ⟨⟨members', slot', value'⟩, below'⟩, hx, hy, rfl, rfl, hc⟩ |
        ⟨hx, hy⟩ | ⟨err, err', hx, hy⟩
    · rw [hx, hy]
      cases value with
      | obj inner =>
        obtain ⟨inner', rfl⟩ := hc.value.eq_obj
        have hinner := ih hrest hc.value fun m ms vs hm =>
          hfg m ms vs (by rw [Node.below?_cons hchild, hm])
        exact hinner.map fun a b hab => ⟨hab.1, hc.put hab.2⟩
      | _ =>
        -- neither child has members, so both changes fail
        cases value' with
        | obj inner' =>
          obtain ⟨inner, hinner⟩ := hc.value.symm.eq_obj
          cases hinner
        | _ => exact .error _ _
    · rw [hx, hy]
      exact .error _ _
    · rw [hx, hy]
      exact .error _ _

/-! ### Deletion -/

theorem isEmpty_alike (h : Alike n (.obj ms) (.obj vs)) : ms.isEmpty = vs.isEmpty := by
  rw [Bool.eq_iff_iff, List.isEmpty_iff, List.isEmpty_iff, Members.eq_nil_iff, Members.eq_nil_iff]
  exact ⟨fun hms key => h.sameNames.eq_none (hms key),
    fun hvs key => h.sameNames.symm.eq_none (hvs key)⟩

/-- Pruning keeps trees alike: whether something is empty is the same on both sides, so the same
members are taken out. -/
theorem prune_alike {elems : List Elem} (hpath : Addresses n elems)
    (h : Alike n (.obj ms) (.obj vs)) :
    Together (fun a b : Object => Alike n (.obj a) (.obj b)) (prune elems ms n)
      (prune elems vs n) := by
  induction elems generalizing n ms vs with
  | nil => exact .ok h
  | cons e elems ih =>
    obtain ⟨child, hchild, hkeys, hrest⟩ := hpath
    have hcreate : false = true → ∃ cs, child.children? = some cs :=
      fun hcreate => absurd hcreate Bool.false_ne_true
    rw [prune, prune]
    rcases (descend_alike h hchild hkeys false hcreate).some_or_none with
      ⟨⟨⟨members, slot, value⟩, below⟩, ⟨⟨members', slot', value'⟩, below'⟩, hx, hy, rfl, rfl, hc⟩ |
        ⟨hx, hy⟩ | ⟨err, err', hx, hy⟩
    · rw [hx, hy]
      cases value with
      | obj inner =>
        obtain ⟨inner', rfl⟩ := hc.value.eq_obj
        refine (ih hrest hc.value).bind fun a b hab => ?_
        -- what is put back goes among the members from before the step
        have hput : ChildAlike n _ ⟨ms, slot, .obj inner⟩ ⟨vs, slot', .obj inner'⟩ :=
          { hc with members := h }
        rw [isEmpty_alike hab]
        split
        · exact .ok (h.erase _)
        · exact .ok (hput.put hab)
      | _ =>
        -- neither child has members, so there is nothing to prune
        cases value' with
        | obj inner' =>
          obtain ⟨inner, hinner⟩ := hc.value.symm.eq_obj
          cases hinner
        | _ => exact .ok h
    · rw [hx, hy]
      exact .ok h
    · rw [hx, hy]
      exact .error _ _

/-- Taking an item out of two lists in step, and putting the last one in its place, leaves them in
step. -/
theorem swapRemove_forall₂ {α β : Type} {R : α → β → Prop} {xs : List α} {ys : List β}
    (h : List.Forall₂ R xs ys) (i : Nat) :
    List.Forall₂ R (swapRemove xs i) (swapRemove ys i) := by
  unfold swapRemove
  rw [List.getLast?_eq_getElem?, List.getLast?_eq_getElem?]
  cases hx : xs[xs.length - 1]? with
  | none =>
    have hy : ys[ys.length - 1]? = none := by
      rw [List.getElem?_eq_none_iff] at hx ⊢
      rw [← h.length_eq]
      exact hx
    rw [hy]
    exact .nil
  | some x =>
    obtain ⟨y, hy⟩ := exists_getElem?_of_length h.length_eq hx
    -- the last items stand in the relation, and one takes the place of the removed one
    have hlast := (forall₂_iff_getElem?.1 h).2 _ x y hx hy
    rw [← h.length_eq, hy]
    exact forall₂_dropLast (forall₂_set h i hlast)

/-- Deleting an entry keeps nodes alike. -/
theorem deleteEntry_alike {child : Node} (h : Alike n (.obj ms) (.obj vs))
    (hchild : n.child? e.name = some child) (hkeys : KeysFit child e) :
    Together (fun a b : Bool × Object => a.1 = b.1 ∧ Alike n (.obj a.2) (.obj b.2))
      (deleteEntry ms e) (deleteEntry vs e) := by
  obtain ⟨children, hn, hget⟩ := get?_of_child? hchild
  unfold deleteEntry
  dsimp only
  cases hx : get? ms (localName e.name) with
  | none =>
    rw [h.sameNames.eq_none hx]
    exact .ok ⟨rfl, h⟩
  | some x =>
    obtain ⟨y, hy, hxy⟩ := h.member hn hget hx
    rw [hy]
    obtain ⟨home, keys, cs, rfl, -⟩ := id hkeys
    rcases hxy.cases_list with ⟨xs, ys, rfl, rfl, hxs⟩ | ⟨_, _, rfl, rfl⟩
    -- the entry is at the same place in both lists
    · have hindex : xs.findIdx? (isEntryWith e.keys) = ys.findIdx? (isEntryWith e.keys) :=
        findIdx?_congr (hxs.imp fun _ _ hxy => isEntryWith_alike hxy hkeys)
      dsimp only
      rw [← hindex, ← hxs.length_eq]
      split
      · exact .ok ⟨rfl, h⟩
      · next i _ =>
        split
        · exact .ok ⟨rfl, h.erase _⟩
        · have hlist := Schema.Node.alike_list_iff.2 (swapRemove_forall₂ hxs i)
          exact .ok ⟨rfl, h.insert hn hget hlist⟩
    · exact .error _ _

end Tree

end ConfigTree
