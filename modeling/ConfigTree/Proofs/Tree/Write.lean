import ConfigTree.Proofs.Tree.Selects
import ConfigTree.Proofs.Tree.Step

/-!
# Writing below a path

A write changes one node and adds the containers and entries above it that are missing. While it
goes on, the tree holds the keys of new entries as the path gives them; the document it stands for
has them in their held form.

* `stands_setFound`: setting what an element selects, in a tree and in the document.
* `Opened`: a child that a step has found or added, in the tree and in the document.
* `descend_opened`: a step that may add what is missing always opens a child.
-/

namespace ConfigTree

open ConfigTree.Path (Elem)
open Members (get? Sorted SameNames InStep)

namespace Schema.Node

variable {n child : Node} {entry : Bool} {w c c' : Json} {name : String} {home : Option String}
  {keys : List String} {children : List (String × Node)} {ms cs : List (String × Json)}
  {xs ys : List Json}

/-! ### Changes of members and entries -/

/-- A member is put in both documents under one name, where the one value stands for the other. -/
theorem Stands.insert (h : Stands n entry (.obj ms) (.obj cs)) (hn : n.HasMembers entry children)
    (hchild : get? children name = some child) (hw : Stands child false w c) :
    Stands n entry (.obj (Members.insert ms name w)) (.obj (Members.insert cs name c)) :=
  (stands_object_iff hn).2 (((stands_object_iff hn).1 h).insert hchild hw)

theorem Stands.insertAll {new new' : List (String × Json)} (hn : n.HasMembers entry children)
    (h : Stands n entry (.obj ms) (.obj cs)) (hnew : Stands n entry (.obj new) (.obj new')) :
    Stands n entry (.obj (Members.insertAll ms new)) (.obj (Members.insertAll cs new')) :=
  (stands_object_iff hn).2 (((stands_object_iff hn).1 h).insertAll ((stands_object_iff hn).1 hnew))

/-- What stands for an object has members. -/
theorem Stands.exists_hasMembers (h : Stands n entry (.obj ms) (.obj cs)) :
    ∃ children, n.HasMembers entry children := by
  cases h with
  | leaf held fits => cases isScalar_of_coerce? held
  | object shape => exact ⟨_, shape⟩

/-- The schema of a child, among those of the members of its node. -/
theorem Stands.exists_child (h : Stands n entry (.obj ms) (.obj cs))
    (hchild : n.child? name = some child) :
    ∃ children, n.HasMembers entry children ∧ get? children (localName name) = some child := by
  obtain ⟨children, hn⟩ := h.exists_hasMembers
  obtain ⟨children', hchildren, hname⟩ := Option.bind_eq_some_iff.1 hchild
  obtain rfl := Option.some.inj (hn.1.symm.trans hchildren)
  exact ⟨children, hn, hname⟩

/-- An entry takes the place of one with the same keys. The two may differ in everything else. -/
theorem Stands.set {i : Nat} (h : Stands (.list home keys children) false (.arr xs) (.arr ys))
    (hc : ys[i]? = some c) (hw : Stands (.list home keys children) true w c')
    (htuple : keyTuple keys c' = keyTuple keys c) :
    Stands (.list home keys children) false (.arr (xs.set i w)) (.arr (ys.set i c')) := by
  obtain ⟨hentries, hkeyed, hdistinct⟩ := stands_list_iff.1 h
  have hmem := List.mem_of_getElem? hc
  refine stands_list_iff.2 ⟨forall₂_set hentries i hw, fun x hx => ?_, ?_⟩
  · rcases List.mem_or_eq_of_mem_set hx with hx | rfl
    · exact hkeyed x hx
    · exact htuple ▸ hkeyed c hmem
  -- the keys of all entries are as before
  · rw [map_set_of_eq hc htuple]
    exact hdistinct

/-- An entry is added whose keys no other one has. -/
theorem Stands.concat (h : Stands (.list home keys children) false (.arr xs) (.arr ys))
    (hw : Stands (.list home keys children) true w c) (hkeys : none ∉ keyTuple keys c)
    (hnew : keyTuple keys c ∉ ys.map (keyTuple keys)) :
    Stands (.list home keys children) false (.arr (xs ++ [w])) (.arr (ys ++ [c])) := by
  obtain ⟨hentries, hkeyed, hdistinct⟩ := stands_list_iff.1 h
  refine stands_list_iff.2 ⟨List.rel_append hentries (.cons hw .nil), fun x hx => ?_, ?_⟩
  · rcases List.mem_append.1 hx with hx | hx
    · exact hkeyed x hx
    · exact List.mem_singleton.1 hx ▸ hkeys
  · rw [List.map_append, List.map_singleton]
    exact List.nodup_append.2 ⟨hdistinct, List.pairwise_singleton _ _, fun a ha b hb heq =>
      hnew (List.mem_singleton.1 hb ▸ heq ▸ ha)⟩

end Schema.Node

namespace Tree

open Schema (Node)
open Schema.Node (Alike Stands keyTuple)

variable {n child list : Node} {entry : Bool} {e : Elem} {home : Option String}
  {keys : List String} {children : List (String × Node)} {ms cs ks : Object} {xs ys : List Json}
  {w c : Json}

/-! ### Setting what an element selects -/

/-- The entries of a list are objects, those that it stands for too. -/
theorem exists_obj_of_mem (h : List.Forall₂ (Stands (.list home keys children) true) xs ys) :
    (∀ x ∈ xs, ∃ ms, x = .obj ms) ∧ ∀ y ∈ ys, ∃ cs, y = .obj cs := by
  constructor
  · intro x hx
    obtain ⟨y, -, hxy⟩ := exists_mem_right_of_forall₂ h hx
    obtain ⟨ms, -, rfl, -⟩ := hxy.eq_obj .list
    exact ⟨ms, rfl⟩
  · intro y hy
    obtain ⟨x, -, hxy⟩ := exists_mem_of_forall₂ h hy
    obtain ⟨-, cs, -, rfl⟩ := hxy.eq_obj .list
    exact ⟨cs, rfl⟩

/-- The entries of a list stand for those of the document, and a missing list has none in either.
They are also alike one by one, which is what makes an element select at the same place in both. -/
theorem entries_stands (hs : Stands n entry (.obj ms) (.obj cs)) (ha : Alike n (.obj ms) (.obj cs))
    (hchild : n.child? e.name = some list) (hlist : list.isList = true) :
    Stands list false (.arr (entriesOf ms (localName e.name)))
        (.arr (entriesOf cs (localName e.name))) ∧
      List.Forall₂ (Alike list) (entriesOf ms (localName e.name))
        (entriesOf cs (localName e.name)) := by
  obtain ⟨children, hn, hname⟩ := hs.exists_child hchild
  obtain ⟨home, names, children', rfl⟩ := Schema.Node.exists_list_of_isList hlist
  -- without the array there are no entries on either side, and nothing to compare
  cases hx : get? ms (localName e.name) with
  | none =>
    rw [entriesOf_of_none hx, entriesOf_of_none (ha.sameNames.eq_none hx)]
    refine ⟨Schema.Node.stands_list_iff.2 ⟨.nil, fun _ hc => ?_, List.nodup_nil⟩, .nil⟩
    cases hc
  | some x =>
    obtain ⟨y, hy, hxy⟩ := hs.member hn hname hx
    obtain ⟨y', hy', hsame⟩ := ha.member hn.1 hname hx
    obtain rfl := Option.some.inj (hy.symm.trans hy')
    obtain ⟨xs, ys, rfl, rfl⟩ := hxy.eq_arr
    rw [entriesOf_of_get? hx, entriesOf_of_get? hy]
    exact ⟨hxy, Schema.Node.alike_list_iff.1 hsame⟩

/-- An entry takes the place of the one with its keys, or is added if there is none. The tree has
that entry at the same place as the document. Here the texts of keys are what matters: the tree may
hold a key in another form than the document. -/
theorem stands_setEntry {inner held : Object} (hsel : Selects list e)
    (h : Stands list false (.arr xs) (.arr ys)) (halike : List.Forall₂ (Alike list) xs ys)
    (hinner : Stands list true (.obj inner) (.obj held)) (hkeys : hasKeys held e.keys = true) :
    Stands list false (.arr (setEntry e.keys (.obj inner) xs))
      (.arr (setEntry e.keys (.obj held) ys)) := by
  have hindex : xs.findIdx? (isEntryWith e.keys) = ys.findIdx? (isEntryWith e.keys) :=
    findIdx?_congr (halike.imp fun _ _ hxy => isEntryWith_alike hxy hsel.fit)
  obtain ⟨home, keys, children, rfl, -⟩ := id hsel.fit
  obtain ⟨hentries, -, -⟩ := Schema.Node.stands_list_iff.1 h
  have htuple := hsel.hasKeys_iff.1 hkeys
  cases hfound : ys.findIdx? (isEntryWith e.keys) with
  | some i =>
    obtain ⟨hi, hy, -⟩ := List.findIdx?_eq_some_iff_getElem.1 hfound
    have hget := List.getElem?_eq_getElem hi
    obtain ⟨old, hold⟩ := (exists_obj_of_mem hentries).2 _ (List.mem_of_getElem? hget)
    rw [hold] at hy hget
    rw [setEntry_of_some (hindex.trans hfound), setEntry_of_some hfound]
    -- what is set has the keys of the entry that it replaces
    exact h.set hget hinner (htuple.trans (hsel.hasKeys_iff.1 hy).symm)
  | none =>
    rw [setEntry_of_none (hindex.trans hfound), setEntry_of_none hfound]
    refine h.concat hinner (Full.none_not_mem hsel.full hkeys) fun hmem => ?_
    -- no entry of the document has the keys
    obtain ⟨y, hy, hsame⟩ := List.mem_map.1 hmem
    obtain ⟨old, rfl⟩ := (exists_obj_of_mem hentries).2 y hy
    have hold : hasKeys old e.keys = true := hsel.hasKeys_iff.2 (hsame.trans htuple)
    exact Bool.false_ne_true ((List.findIdx?_eq_none_iff.1 hfound _ hy).symm.trans hold)

/-- **Setting what an element selects**, in a tree and in the document that it stands for. With the
lens laws this is all that a write does on its way up. -/
theorem stands_setFound (hs : Stands n entry (.obj ms) (.obj cs)) (ha : Alike n (.obj ms) (.obj cs))
    (hchild : n.child? e.name = some child) (hsel : e.isKeyed = true → Selects child e)
    (hw : Stands child e.isKeyed w c) (hselected : SelectedBy e c) :
    Stands n entry (.obj (setFound e w ms)) (.obj (setFound e c cs)) := by
  obtain ⟨children, hn, hname⟩ := hs.exists_child hchild
  cases he : e.isKeyed with
  | false =>
    rw [he] at hw
    rw [setFound_of_not_isKeyed he, setFound_of_not_isKeyed he]
    exact hs.insert hn hname hw
  | true =>
    rw [he] at hw
    rw [setFound_of_isKeyed he, setFound_of_isKeyed he]
    obtain ⟨hentries, halike⟩ := entries_stands hs ha hchild (hsel he).fit.isList
    -- what an element with keys selects is an entry
    obtain ⟨home, keys, cs', rfl, -⟩ := id (hsel he).fit
    obtain ⟨inner, held, rfl, rfl⟩ := hw.eq_obj .list
    exact hs.insert hn hname (stands_setEntry (hsel he) hentries halike hw (hselected he))

/-! ### Opening a child -/

theorem find?_forall₂ {α β : Type} {R : α → β → Prop} {f : α → Bool} {g : β → Bool} {xs : List α}
    {ys : List β} (h : List.Forall₂ R xs ys) (hfg : ∀ x y, R x y → f x = g y) :
    Option.Rel R (xs.find? f) (ys.find? g) := by
  induction h with
  | nil => exact .none
  | cons hxy _ ih =>
    rw [List.find?_cons, List.find?_cons, hfg _ _ hxy]
    split
    · exact .some hxy
    · exact ih

/-- What an element selects stands for what it selects in the document, if it tells entries that are
alike by the same texts. The two are found at the same place, or nothing is found in either. -/
theorem found?_rel (hs : Stands n entry (.obj ms) (.obj cs)) (ha : Alike n (.obj ms) (.obj cs))
    (hchild : n.child? e.name = some child) (hlist : e.isKeyed = true → child.isList = true)
    (hsame : e.isKeyed = true → ∀ ms cs, Alike child (.obj ms) (.obj cs) →
      hasKeys ms e.keys = hasKeys cs e.keys) :
    Option.Rel (fun x y => Stands child e.isKeyed x y ∧ Alike child x y) (found? ms e)
      (found? cs e) := by
  obtain ⟨children, hn, hname⟩ := hs.exists_child hchild
  cases he : e.isKeyed with
  | false =>
    rw [found?_of_not_isKeyed he, found?_of_not_isKeyed he]
    cases hx : get? ms (localName e.name) with
    | none =>
      rw [ha.sameNames.eq_none hx]
      exact .none
    | some x =>
      obtain ⟨y, hy, hxy⟩ := hs.member hn hname hx
      obtain ⟨y', hy', hsame⟩ := ha.member hn.1 hname hx
      obtain rfl := Option.some.inj (hy.symm.trans hy')
      rw [hy]
      exact .some ⟨hxy, hsame⟩
  | true =>
    obtain ⟨hstands, halike⟩ := entries_stands hs ha hchild (hlist he)
    rw [found?_of_isKeyed he, found?_of_isKeyed he]
    obtain ⟨home, keys, children', rfl⟩ := Schema.Node.exists_list_of_isList (hlist he)
    obtain ⟨hentries, -, -⟩ := Schema.Node.stands_list_iff.1 hstands
    -- entries at one place stand for each other and are alike, so the same one is found
    have hboth : List.Forall₂ (fun x y => Stands (.list home keys children') true x y ∧
        Alike (.list home keys children') x y) (entriesOf ms (localName e.name))
        (entriesOf cs (localName e.name)) :=
      forall₂_iff_getElem?.2 ⟨hentries.length_eq, fun i x y hx hy =>
        ⟨(forall₂_iff_getElem?.1 hentries).2 i x y hx hy,
          (forall₂_iff_getElem?.1 halike).2 i x y hx hy⟩⟩
    refine find?_forall₂ hboth fun x y ⟨hxy, hxy'⟩ => ?_
    obtain ⟨ms', cs', rfl, rfl⟩ := hxy.eq_obj .list
    exact hsame he ms' cs' hxy'

/-- **A step of a write goes somewhere.** The entries of a list are objects, so none of them is in
the way of another. -/
theorem exists_descend (hs : Stands n entry (.obj ms) (.obj cs))
    (hschema : childSchema n e = .ok child) (hlist : e.isKeyed = true → child.isList = true) :
    ∃ c, descend ms n e true = .ok (some (c, child)) := by
  refine descend_create hschema fun he w hw => ?_
  obtain ⟨children, hn, hname⟩ := hs.exists_child (child?_of_childSchema hschema)
  obtain ⟨y, -, hxy⟩ := hs.member hn hname hw
  obtain ⟨home, keys, children', rfl⟩ := Schema.Node.exists_list_of_isList (hlist he)
  obtain ⟨xs, ys, rfl, rfl⟩ := hxy.eq_arr
  obtain ⟨hentries, -, -⟩ := Schema.Node.stands_list_iff.1 hxy
  exact ⟨xs, rfl, (exists_obj_of_mem hentries).1⟩

/-- A child that a step has found or added: its members `inner`, which stand for `held`. In the
document these are the members of what the element selects, or what is added for it. The document
itself is not changed by a step; it is what the tree would be committed as. -/
structure Opened (child : Node) (e : Elem) (cs : Object) (c : Child) (inner held : Object) :
    Prop where
  value : c.value = .obj inner
  stands : Stands child e.isKeyed (.obj inner) (.obj held)
  alike : Alike child (.obj inner) (.obj held)
  selected : hasKeys held e.keys = true
  found : found? cs e = some (.obj held) ∨ found? cs e = none ∧ held = heldKeys child e.keys

/-- What is added for an element stands for its keys in held form. The new entry has them as numbers
or texts, whatever their kinds are. -/
theorem exists_fresh (hfree : child.Everywhere Schema.ColonFreeAt)
    (hbelow : child.HasMembers e.isKeyed children) (hsel : e.isKeyed = true → Selects child e) :
    ∃ inner, fresh child e = .obj inner ∧
      Stands child e.isKeyed (.obj inner) (.obj (heldKeys child e.keys)) ∧
      Alike child (.obj inner) (.obj (heldKeys child e.keys)) := by
  obtain ⟨hstands, -⟩ := stands_heldKeys hbelow hsel
  -- a fresh container is empty, a fresh entry holds its keys: as texts before the tree is read
  -- back, in canonical form after
  cases he : e.isKeyed with
  | true =>
    rw [he] at hstands
    obtain ⟨-, halike⟩ := (newEntry_alike (hsel he).fit).stands hfree hstands
    exact ⟨_, by rw [fresh, if_pos he]; rfl, hstands, halike⟩
  | false =>
    rw [he, keyMembers, heldKeys, keys_eq_nil he] at hstands
    rw [heldKeys, keys_eq_nil he]
    exact ⟨[], by rw [fresh, he]; rfl, hstands, .empty hbelow.1⟩

/-- **A step that may add what is missing opens a child.** The cases are those of what a step can go
to, followed in the tree and in the document at once. -/
theorem descend_opened (hfree : n.Everywhere Schema.ColonFreeAt)
    (hs : Stands n entry (.obj ms) (.obj cs)) (ha : Alike n (.obj ms) (.obj cs))
    (hchild : n.child? e.name = some child) (hbelow : child.HasMembers e.isKeyed children)
    (hsel : e.isKeyed = true → Selects child e) :
    ∃ c inner held, descend ms n e true = .ok (some (c, child)) ∧
      Opened child e cs c inner held := by
  obtain ⟨siblings, hn, hname⟩ := hs.exists_child hchild
  have hlist : e.isKeyed = true → child.isList = true := fun he => (hsel he).fit.isList
  obtain ⟨c, hc⟩ := exists_descend hs (childSchema_eq hchild fun he => (hsel he).fit) hlist
  obtain ⟨-, hat⟩ := descend_cases hc
  have hrel := found?_rel hs ha hchild hlist fun he ms cs hxy => hasKeys_alike hxy (hsel he).fit
  -- what is opened is there, or has been added
  rcases hat.value with hfound | ⟨hnone, hfresh⟩
  · rw [hfound] at hrel
    generalize hy : found? cs e = y at hrel
    cases hrel with
    | some hxy =>
      obtain ⟨inner, held, hvalue, rfl⟩ := hxy.1.eq_obj hbelow
      rw [hvalue] at hxy
      exact ⟨c, inner, held, hc, hvalue, hxy.1, hxy.2, hasKeys_of_found? hy, .inl hy⟩
  · rw [hnone] at hrel
    generalize hy : found? cs e = y at hrel
    cases hrel with
    | none =>
      obtain ⟨inner, hvalue, hstands, halike⟩ := exists_fresh (hfree.child hn.1 hname) hbelow hsel
      exact ⟨c, inner, _, hc, hfresh.trans hvalue, hstands, halike,
        (stands_heldKeys hbelow hsel).2, .inr ⟨hy, rfl⟩⟩

end Tree

end ConfigTree
