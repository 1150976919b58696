import ConfigTree.Proofs.Schema.Valid
import ConfigTree.Proofs.Tree.Lookup
import Mathlib.Data.List.Nodup

/-!
# Where the nodes of a tree are

The place of a node is the path that has the names on the way to it, without modules, and all keys
of each entry. In a valid tree the entries of a list have different keys, so a look-up of the place
finds just that node.

* `Finds`: a place and what a look-up finds there.
* `finds_cons`: the first element of a place enters a child, or an entry of a list, and the rest of
  it is a place there.
* `finds_append`: a place below a place.
* `valid_of_lookup`: what a look-up finds in valid data is valid.
-/

namespace ConfigTree.Tree

open ConfigTree.Path (Elem)
open Members (get? Sorted)
open Schema (Node NamesFreeAt)
open Schema.Node (KeyedAt Valid keyTuple)

variable {n child m : Node} {entry : Bool} {e f : Elem} {name : String} {ms inner : Object}
  {home : Option String} {keys : List String} {children : List (String × Node)} {xs : List Json}
  {w v : Json} {path rest : List Elem}

/-! ### Elements of entries -/

/-- An element with keys in order is determined by its name and its texts, since the keys are a
map. -/
theorem elem_ext (hname : e.name = f.name) (hkeys : ∀ key, get? e.keys key = get? f.keys key) :
    e = f := by
  obtain ⟨name, pairs, sorted⟩ := e
  obtain ⟨name', pairs', sorted'⟩ := f
  obtain rfl : name = name' := hname
  obtain rfl : pairs = pairs' := Members.ext sorted sorted' hkeys
  rfl

theorem entryElem_name (hname : localName name = name) : (entryElem name keys ms).name = name :=
  hname

/-- The element of an entry has the texts of those keys that the entry has. A valid entry has them
all. -/
theorem get?_entryElem (key : String) : get? (entryElem name keys ms).keys key
    = if key ∈ keys then (get? ms key).map keyString else none := by
  -- a key that is named several times has the same text each time, so the order does not matter
  have hpairs : ∀ keys : List String, get? (keys.filterMap fun key =>
      (get? ms key).map fun held => (key, keyString held)).reverse key
      = if key ∈ keys then (get? ms key).map keyString else none := by
    intro keys
    induction keys with
    | nil => rfl
    | cons k keys ih =>
      rw [List.filterMap_cons]
      cases hk : get? ms k with
      | none =>
        rw [Option.map_none]
        by_cases hkey : key = k
        · subst hkey
          rw [hk] at ih ⊢
          simpa using ih
        · simpa [hkey] using ih
      | some held =>
        rw [Option.map_some]
        dsimp only
        rw [List.reverse_cons, Members.get?_append, ih, Members.get?_cons, Members.get?_nil]
        by_cases hkey : k = key
        · subst hkey
          rw [hk]
          by_cases hmem : k ∈ keys <;> simp [hmem]
        · rw [if_neg hkey, Option.or_none]
          simp [Ne.symm hkey]
  change get? (Members.insertAll [] _) key = _
  rw [Members.get?_insertAll_reverse, Members.get?_nil, Option.or_none, hpairs]

/-- The element of an entry is as before if its keys are. -/
theorem KeepsKeys.entryElem {inner inner' : Object} (h : KeepsKeys n inner inner')
    (hkeys : n.listKeys? = some keys) (name : String) :
    Tree.entryElem name keys inner' = Tree.entryElem name keys inner := by
  refine elem_ext rfl fun key => ?_
  rw [get?_entryElem, get?_entryElem]
  split
  · next hkey => rw [h keys hkeys key hkey]
  · rfl

/-- An entry with all keys has each of them. -/
theorem exists_held_of_keyed (hkeyed : none ∉ keyTuple keys (.obj ms)) {key : String}
    (hkey : key ∈ keys) : ∃ held, get? ms key = some held := by
  cases hheld : get? ms key with
  | some held => exact ⟨held, rfl⟩
  | none =>
    refine absurd (List.mem_map.2 ⟨key, hkey, ?_⟩) hkeyed
    rw [Json.obj?, Option.bind_some, hheld]
    rfl

/-- The element of an entry has all keys of the list, and no others. -/
theorem isSome_get?_entryElem (hkeyed : none ∉ keyTuple keys (.obj ms)) (key : String) :
    (get? (entryElem name keys ms).keys key).isSome ↔ key ∈ keys := by
  rw [get?_entryElem]
  split
  · next hmem =>
    obtain ⟨held, hheld⟩ := exists_held_of_keyed hkeyed hmem
    rw [hheld]
    exact iff_of_true rfl hmem
  · next hmem => exact iff_of_false Bool.false_ne_true hmem

/-- An entry has the keys of another one's element if the two have the same keys. In a valid list
that makes them one entry. -/
theorem hasKeys_entryElem (hkeyed : none ∉ keyTuple keys (.obj ms)) :
    hasKeys inner (entryElem name keys ms).keys = true ↔
      keyTuple keys (.obj inner) = keyTuple keys (.obj ms) := by
  rw [hasKeys_iff, keyTuple, keyTuple, List.map_inj_left]
  -- `hasKeys` compares the texts of the keys; every key of the list has one, so the tuples compare
  -- the same
  constructor
  · intro h key hkey
    obtain ⟨held, hheld⟩ := exists_held_of_keyed hkeyed hkey
    have hpair : get? (entryElem name keys ms).keys key = some (keyString held) := by
      rw [get?_entryElem, if_pos hkey, hheld]
      rfl
    have hinner := h _ (Members.mem_of_get? hpair)
    simp only [Json.obj?, Option.bind_some, hinner, hheld, Option.map_some]
  · intro h key hkey
    have hpair := Members.get?_of_mem (entryElem name keys ms).sorted hkey
    rw [get?_entryElem] at hpair
    split at hpair
    · next hmem =>
      rw [← hpair]
      exact h key.1 hmem
    · cases hpair

/-- Two entries with one element have the same keys. -/
theorem keyTuple_of_entryElem_eq {name' : String}
    (h : entryElem name keys ms = entryElem name' keys inner) :
    keyTuple keys (.obj ms) = keyTuple keys (.obj inner) := by
  rw [keyTuple, keyTuple, List.map_inj_left]
  intro key hkey
  have hpairs := congrArg (fun e => get? e.keys key) h
  simp only [get?_entryElem, if_pos hkey] at hpairs
  exact hpairs

/-- An element that has just the keys of a list, with the texts of an entry, is that entry's. -/
theorem eq_entryElem (hname : localName e.name = e.name)
    (hkeys : ∀ key, (get? e.keys key).isSome ↔ key ∈ keys) (hms : hasKeys ms e.keys = true) :
    e = entryElem e.name keys ms := by
  refine elem_ext hname.symm fun key => ?_
  rw [get?_entryElem]
  split
  · next hmem =>
    obtain ⟨text, htext⟩ := Option.isSome_iff_exists.1 ((hkeys key).2 hmem)
    rw [htext, hasKeys_iff.1 hms _ (Members.mem_of_get? htext)]
  · next hmem =>
    exact Option.isNone_iff_eq_none.1 (Option.isSome_eq_false_iff.1
      (by rw [← Bool.not_eq_true, hkeys key]; exact hmem))

/-- An element without any keys has nothing but its name. -/
theorem eq_plain (hkeys : ∀ key, ¬ (get? e.keys key).isSome) : e = Elem.plain e.name := by
  refine elem_ext rfl fun key => ?_
  rw [Elem.plain, Members.get?_nil]
  exact Option.not_isSome_iff_eq_none.1 (hkeys key)

/-- An element has just the keys of a node if it has all of them and no others. What is no list has
no keys, and then the element has none. -/
theorem keys_iff : (∀ key, (get? e.keys key).isSome ↔ key ∈ child.listKeys?.getD []) ↔
    child.OwnsKeys e ∧ Full child e := by
  unfold Full Node.OwnsKeys
  -- a node that is no list has no keys, so the element must have none; for a list the two
  -- inclusions are `OwnsKeys` and `Full`
  cases child.listKeys? with
  | none =>
    constructor
    · intro h
      refine ⟨?_, fun keys hkeys => by cases hkeys⟩
      rw [eq_plain fun key hkey => List.not_mem_nil ((h key).1 hkey)]
      rfl
    · rintro ⟨he, -⟩ key
      rw [keys_eq_nil he]
      exact iff_of_false Bool.false_ne_true List.not_mem_nil
  | some keys =>
    constructor
    · intro h
      refine ⟨fun key hkey => (h key.1).1 ?_, fun keys' hkeys key hkey => ?_⟩
      · rw [Members.get?_of_mem e.sorted hkey]
        rfl
      · obtain rfl := Option.some.inj hkeys
        exact (h key).2 hkey
    · rintro ⟨howns, hfull⟩ key
      refine ⟨fun hsome => ?_, hfull keys rfl key⟩
      obtain ⟨text, htext⟩ := Option.isSome_iff_exists.1 hsome
      exact howns _ (Members.mem_of_get? htext)

/-- A list has keys, so an element that has them has some. -/
theorem isKeyed_of_keys (hkeyed : (Node.list home keys children).KeyedAt)
    (hkeys : ∀ key, (get? e.keys key).isSome ↔ key ∈ keys) : e.isKeyed = true := by
  obtain ⟨hne, -⟩ := hkeyed keys children rfl rfl
  obtain ⟨key, hmem⟩ := List.exists_mem_of_ne_nil keys hne
  have hsome := (hkeys key).2 hmem
  cases hpairs : e.keys with
  | nil => rw [hpairs] at hsome; cases hsome
  | cons => simp [Elem.isKeyed, hpairs]

theorem listKeys?_eq_none (h : n.isList = false) : n.listKeys? = none := by
  rw [Node.isList] at h
  exact Option.isNone_iff_eq_none.1 (Option.isSome_eq_false_iff.1 h)

/-- Among the entries of a valid list, the element of one finds it. The look-up takes the first
entry with these texts, and there is no other. -/
theorem find?_entryElem (hx : Json.obj ms ∈ xs)
    (hentries : ∀ x ∈ xs, ∃ ms, x = .obj ms ∧ none ∉ keyTuple keys (.obj ms))
    (hdistinct : (xs.map (keyTuple keys)).Nodup) :
    xs.find? (isEntryWith (entryElem name keys ms).keys) = some (.obj ms) := by
  obtain ⟨_, heq, hkeyed⟩ := hentries _ hx
  obtain rfl := Json.obj.inj heq
  have hself : isEntryWith (entryElem name keys ms).keys (.obj ms) = true :=
    (hasKeys_entryElem hkeyed).2 rfl
  cases hfind : xs.find? (isEntryWith (entryElem name keys ms).keys) with
  | none => exact absurd hself (List.find?_eq_none.1 hfind _ hx)
  | some y =>
    -- what is found has the same keys, so it is the same entry
    have hy := List.mem_of_find?_eq_some hfind
    obtain ⟨other, rfl, -⟩ := hentries y hy
    have hsame : keyTuple keys (.obj other) = keyTuple keys (.obj ms) :=
      (hasKeys_entryElem hkeyed).1 (List.find?_some (p := isEntryWith _) hfind)
    rw [List.inj_on_of_nodup_map hdistinct hy hx hsame]

/-! ### Places -/

/-- A path names nodes without their modules, and has just the keys of each list that it names. A
list as a whole has no such path; what is found at the end of one is an entry, a container or a
value. -/
def Concrete : Node → List Elem → Prop
  | _, [] => True
  | n, e :: rest => localName e.name = e.name ∧ ∃ child, n.child? e.name = some child ∧
      (∀ key, (get? e.keys key).isSome ↔ key ∈ child.listKeys?.getD []) ∧ Concrete child rest

/-- A node with that schema and that value is in a tree, and the path is its place. The schema is
said too, for a listing gives it with each node. -/
def Finds (n : Node) (tree : Json) (path : List Elem) (m : Node) (v : Json) : Prop :=
  Concrete n path ∧ lookup path tree n = .ok (some (v, m))

/-- An element enters the member of a name: the member itself, or an entry of it if it is a list.
The element says which entry by all its keys, so that it is a part of the place of what is
inside. -/
inductive Enters (name : String) : Node → Json → Elem → Json → Prop
  | member {child : Node} {w : Json} (h : child.isList = false) :
      Enters name child w (Elem.plain name) w
  | entry {home : Option String} {keys : List String} {children : List (String × Node)}
      {xs : List Json} {inner : Object} (hx : .obj inner ∈ xs) :
      Enters name (.list home keys children) (.arr xs) (entryElem name keys inner) (.obj inner)

theorem finds_nil : Finds n w [] m v ↔ m = n ∧ v = w := by
  constructor
  · rintro ⟨-, h⟩
    obtain ⟨rfl, rfl⟩ := Prod.mk.inj (Option.some.inj (Except.ok.inj h))
    exact ⟨rfl, rfl⟩
  · rintro ⟨rfl, rfl⟩
    exact ⟨trivial, rfl⟩

/-- A path in two parts is a place if the first part is one and the second one is so from where the
first part leads. -/
theorem concrete_append {elems : List Elem} : Concrete n (elems ++ rest) ↔
    Concrete n elems ∧ ∀ c, n.below? elems = some c → Concrete c rest := by
  induction elems generalizing n with
  | nil =>
    refine ⟨fun h => ⟨trivial, fun c hc => ?_⟩, fun ⟨_, h⟩ => h n rfl⟩
    obtain rfl := Option.some.inj hc
    exact h
  | cons e elems ih =>
    rw [List.cons_append, Concrete, Concrete]
    constructor
    · rintro ⟨hname, child, hchild, hkeys, hrest⟩
      obtain ⟨helems, hbelow⟩ := ih.1 hrest
      refine ⟨⟨hname, child, hchild, hkeys, helems⟩, fun c hc => hbelow c ?_⟩
      rwa [Node.below?_cons hchild] at hc
    · rintro ⟨⟨hname, child, hchild, hkeys, helems⟩, hbelow⟩
      refine ⟨hname, child, hchild, hkeys, ih.2 ⟨helems, fun c hc => hbelow c ?_⟩⟩
      rw [Node.below?_cons hchild, hc]

/-- **A place below a place.** -/
theorem finds_append {elems : List Elem} : Finds n w (elems ++ rest) m v ↔
    ∃ k u, Finds n w elems k u ∧ Finds k u rest m v := by
  unfold Finds
  rw [concrete_append, lookup_append]
  constructor
  · rintro ⟨⟨hfront, hrest⟩, h⟩
    obtain ⟨found, hfound, h⟩ := bind_eq_ok_iff.1 h
    cases found with
    | none => cases h
    | some found =>
      -- what the front finds stands at the node that the front names
      obtain ⟨u, k⟩ := found
      exact ⟨k, u, ⟨hfront, hfound⟩, hrest k (below?_of_lookup hfound), h⟩
  · rintro ⟨k, u, ⟨hfront, hfound⟩, hrest, h⟩
    refine ⟨⟨hfront, fun c hc => ?_⟩, bind_eq_ok_iff.2 ⟨_, hfound, h⟩⟩
    rw [below?_of_lookup hfound] at hc
    obtain rfl := Option.some.inj hc
    exact hrest

/-- The element that enters a member finds it: it has the name without a module, the keys of the
node and no others, and a look-up takes it to what it enters. -/
theorem finds_of_enters (hnames : NamesFreeAt n) (hchildren : n.children? = some children)
    (hchild : get? children name = some child) (hkeyed : child.KeyedAt)
    (hvalid : Valid child false w) (hw : get? ms name = some w) (h : Enters name child w f v) :
    localName f.name = f.name ∧ n.child? f.name = some child ∧
      (∀ key, (get? f.keys key).isSome ↔ key ∈ child.listKeys?.getD []) ∧
      childSchema n f = .ok child ∧ found? ms f = some v := by
  have hlocal := hnames.localName hchildren hchild
  have hthere := hnames.child? hchildren hchild
  cases h with
  | member hlist =>
    -- what is no list has no keys, and the element has none either
    have hkeys := listKeys?_eq_none hlist
    have howns : child.OwnsKeys (Elem.plain name) := by
      unfold Node.OwnsKeys
      rw [hkeys]
      rfl
    refine ⟨hlocal, hthere, fun key => ?_, childSchema_of_ownsKeys hthere howns, ?_⟩
    · rw [hkeys]
      simp [Elem.plain]
    · rw [found?_plain hlocal, hw]
  | @entry home keys cs xs inner hx =>
    obtain ⟨xs', heq, hentries, hdistinct⟩ := hvalid.exists_entries
    obtain rfl := Json.arr.inj heq
    obtain ⟨_, heq, -, hfull⟩ := hentries _ hx
    obtain rfl := Json.obj.inj heq
    -- the element has all keys of the list, so only this entry of the list has its texts
    have hkey : ∀ key, (get? (entryElem name keys inner).keys key).isSome ↔ key ∈ keys :=
      isSome_get?_entryElem hfull
    have hisKeyed := isKeyed_of_keys hkeyed hkey
    have howns : (Node.list home keys cs).OwnsKeys (entryElem name keys inner) := by
      intro pair hpair
      have hget := Members.get?_of_mem (entryElem name keys inner).sorted hpair
      exact (hkey pair.1).1 (Option.isSome_of_eq_some hget)
    have hentryName : (entryElem name keys inner).name = name := entryElem_name hlocal
    refine ⟨by rw [hentryName, hlocal], by rw [hentryName, hthere], hkey,
      childSchema_of_ownsKeys (by rw [hentryName, hthere]) howns, ?_⟩
    rw [found?_of_isKeyed hisKeyed, entriesOf, hentryName, hlocal, hw]
    exact find?_entryElem hx (fun x hx => by
      obtain ⟨ms, hms, -, hfull⟩ := hentries x hx
      exact ⟨ms, hms, hfull⟩) hdistinct

/-- What an element of a place finds is what it enters. For an entry this says that the element is
the entry's own, because it has all keys of the list and no more. -/
theorem enters_of_found (hlocal : localName f.name = f.name) (hvalid : Valid child false w)
    (hkeys : ∀ key, (get? f.keys key).isSome ↔ key ∈ child.listKeys?.getD [])
    (hkeyed : child.KeyedAt) (hw : get? ms f.name = some w) (h : found? ms f = some v) :
    Enters f.name child w f v := by
  cases hlist : child.isList with
  | false =>
    have hnone := listKeys?_eq_none hlist
    -- the member is no list, so a place names no keys there
    have hplain : f = Elem.plain f.name := eq_plain fun key hsome => by
      have hmem := (hkeys key).1 hsome
      rw [hnone] at hmem
      cases hmem
    rw [hplain] at h ⊢
    have hv : v = w := by
      rw [found?_plain hlocal, hw] at h
      exact (Option.some.inj h).symm
    rw [hv]
    exact .member hlist
  | true =>
    obtain ⟨home, keys, cs, rfl⟩ := Node.exists_list_of_isList hlist
    obtain ⟨xs, rfl, hentries, -⟩ := hvalid.exists_entries
    rw [found?_of_isKeyed (isKeyed_of_keys hkeyed hkeys), entriesOf, hlocal, hw] at h
    -- what is found is an entry with the texts of the element, so the element is its own
    have hx := List.mem_of_find?_eq_some h
    obtain ⟨inner, rfl, -, -⟩ := hentries v hx
    have helem : f = entryElem f.name keys inner :=
      eq_entryElem hlocal hkeys (List.find?_some (p := isEntryWith _) h)
    rw [helem, entryElem_name hlocal]
    exact .entry hx

/-- **The first element of a place enters a member**, and the rest of it is a place there. With this
a recursion over members and entries can be followed by an induction on data, with the path growing
at its front. -/
theorem finds_cons (hnames : NamesFreeAt n) (hkeyed : n.Everywhere KeyedAt)
    (hshape : n.HasMembers entry children) (hvalid : Valid n entry (.obj ms)) :
    Finds n (.obj ms) (f :: rest) m v ↔
      ∃ name w child inner, get? ms name = some w ∧ get? children name = some child ∧
        Enters name child w f inner ∧ Finds child inner rest m v := by
  obtain ⟨-, hmembers⟩ := hvalid.exists_child hshape
  constructor
  · rintro ⟨⟨hlocal, child, hchild, hkeys, hrest⟩, hlookup⟩
    obtain ⟨cs, hcs, hname⟩ := get?_of_child? hchild
    obtain rfl := Option.some.inj (hshape.1.symm.trans hcs)
    obtain ⟨inner, below, hbelow, hfound, hlookup⟩ := exists_found_of_lookup hlookup
    obtain rfl := Option.some.inj (hchild.symm.trans (child?_of_childSchema hbelow))
    rw [hlocal] at hname
    cases hw : get? ms f.name with
    | none =>
      -- what is found is in a member of that name
      rw [← hlocal] at hw
      cases hfound.symm.trans (found?_of_none hw)
    | some w =>
      obtain ⟨child', hchild', hwvalid⟩ := hmembers _ _ hw
      obtain rfl := Option.some.inj (hname.symm.trans hchild')
      have henters : Enters f.name child w f inner := enters_of_found hlocal hwvalid hkeys
        (hkeyed.child hshape.1 hname).here hw hfound
      exact ⟨f.name, w, child, inner, hw, hname, henters, hrest, hlookup⟩
  · rintro ⟨name, w, child, inner, hw, hname, henters, hrest, hlookup⟩
    obtain ⟨child', hchild', hwvalid⟩ := hmembers name w hw
    obtain rfl := Option.some.inj (hname.symm.trans hchild')
    obtain ⟨hlocal', hthere, hkeys, hschema, hfound⟩ := finds_of_enters hnames hshape.1 hname
      (hkeyed.child hshape.1 hname).here hwvalid hw henters
    refine ⟨⟨hlocal', child, hthere, hkeys, hrest⟩, ?_⟩
    rw [lookup_cons_of_found hschema hfound, hlookup]

/-! ### What is found -/

/-- What an element selects in valid data is valid. -/
theorem valid_of_found? (h : Valid n entry (.obj ms)) (hschema : childSchema n e = .ok child)
    (hfound : found? ms e = some v) : Valid child e.isKeyed v := by
  obtain ⟨children, hn, hname⟩ := get?_of_child? (child?_of_childSchema hschema)
  cases he : e.isKeyed with
  | false =>
    rw [found?_of_not_isKeyed he] at hfound
    exact h.member hn hname hfound
  -- an entry is one of the items of a valid list
  | true =>
    obtain ⟨home, keys, cs, rfl⟩ := exists_list_of_childSchema hschema he
    obtain ⟨w, hw, hfind⟩ := Option.bind_eq_some_iff.1 hfound
    rw [if_pos he] at hfind
    obtain ⟨xs, rfl, hentries, -⟩ := (h.member hn hname hw).exists_entries
    obtain ⟨inner, rfl, hvalid, -⟩ := hentries v (List.mem_of_find?_eq_some hfind)
    exact hvalid

/-- **What a look-up finds in valid data is valid.** -/
theorem valid_of_lookup (h : Valid n entry w) (hlookup : lookup path w n = .ok (some (v, m))) :
    ∃ entry', Valid m entry' v := by
  induction path generalizing n entry w with
  | nil =>
    obtain ⟨rfl, rfl⟩ := Prod.mk.inj (Option.some.inj (Except.ok.inj hlookup))
    exact ⟨entry, h⟩
  | cons e path ih =>
    obtain ⟨ms, rfl⟩ := exists_obj_of_lookup hlookup
    obtain ⟨x, child, hschema, hfound, hrest⟩ := exists_found_of_lookup hlookup
    exact ih (valid_of_found? h hschema hfound) hrest

/-- The element that enters a member has its name. -/
theorem Enters.name_eq (h : Enters name child w f v) (hname : localName name = name) :
    f.name = name := by
  cases h with
  | member => rfl
  | entry => exact hname

/-- What is entered is valid. It is one entry where the schema has a list. -/
theorem Enters.valid (h : Enters name child w f v) (hvalid : Valid child false w) :
    ∃ entry, Valid child entry v ∧ (child.isList = true → entry = true) := by
  cases h with
  | member hlist => exact ⟨false, hvalid, fun h => absurd (hlist.symm.trans h) Bool.false_ne_true⟩
  | entry hx =>
    obtain ⟨xs, heq, hentries, -⟩ := hvalid.exists_entries
    obtain rfl := Json.arr.inj heq
    obtain ⟨_, heq, hentry, -⟩ := hentries _ hx
    obtain rfl := Json.obj.inj heq
    exact ⟨true, hentry, fun _ => rfl⟩

/-- **What is found in a valid tree is valid.** -/
theorem Finds.valid (hnames : n.Everywhere NamesFreeAt) (hkeyed : n.Everywhere KeyedAt)
    (hvalid : Valid n entry w) (hlist : n.isList = true → entry = true)
    (h : Finds n w path m v) : ∃ entry, Valid m entry v ∧ (m.isList = true → entry = true) := by
  -- by induction on the place: its first element enters a member that is valid
  induction path generalizing n w entry with
  | nil =>
    obtain ⟨rfl, rfl⟩ := finds_nil.1 h
    exact ⟨entry, hvalid, hlist⟩
  | cons f path ih =>
    obtain ⟨-, child, hchild, -⟩ := h.1
    obtain ⟨children, hn, -⟩ := get?_of_child? hchild
    have hshape : n.HasMembers entry children := ⟨hn, hlist⟩
    obtain ⟨ms, rfl⟩ := hvalid.eq_obj hshape
    obtain ⟨name, x, child, inner, hx, hchild, henters, hrest⟩ :=
      (finds_cons hnames.here hkeyed hshape hvalid).1 h
    obtain ⟨-, hmembers⟩ := hvalid.exists_child hshape
    obtain ⟨child', hchild', hxvalid⟩ := hmembers name x hx
    obtain rfl := Option.some.inj (hchild.symm.trans hchild')
    obtain ⟨entry', hinner, hlist'⟩ := henters.valid hxvalid
    exact ih (hnames.child hshape.1 hchild) (hkeyed.child hshape.1 hchild) hinner hlist' hrest

end ConfigTree.Tree
