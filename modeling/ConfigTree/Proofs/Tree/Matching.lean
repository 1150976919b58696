import ConfigTree.Proofs.Tree.Listing

/-!
# Listing what a path matches

A path with wildcards matches the places that have its names and, for each key that it gives, the
same text. `matching` lists the nodes at these places.

* `Matches`: a path and the place of a node.
* `lists_matching`: the nodes that a path matches are listed, each once.
* `lists_leaves_matching`: so are the leaves at or below them.
-/

namespace ConfigTree.Tree

open ConfigTree.Path (Elem)
open Members (get?)
open Schema (Node NamesFreeAt)
open Schema.Node (KeyedAt Valid keyTuple)

variable {n child m : Node} {entry : Bool} {e f : Elem} {name : String} {ms inner : Object}
  {home : Option String} {keys : List String} {children : List (String × Node)} {xs : List Json}
  {w v : Json} {path rest elems place : List Elem}

/-! ### Nodes that a path matches -/

/-- An element of a path matches one of a place: it has the same name, and each of its keys is a
wildcard or has the same text. A key that it leaves out may have any text, as with a wildcard. -/
def ElemMatches (e f : Elem) : Prop :=
  localName e.name = f.name ∧ ∀ key ∈ e.keys, key.2 = wildcard ∨ get? f.keys key.1 = some key.2

/-- A path matches a place, element by element. So it matches places of its own length only, and
what is below them is listed separately. -/
def Matches (elems path : List Elem) : Prop := List.Forall₂ ElemMatches elems path

theorem hasKeys_wantedKeys : hasKeys ms (wantedKeys e) = true ↔
    ∀ key ∈ e.keys, key.2 = wildcard ∨ (get? ms key.1).map keyString = some key.2 := by
  rw [hasKeys_iff, wantedKeys]
  refine ⟨fun h key hkey => ?_, fun h key hkey => ?_⟩
  · by_cases hwild : key.2 = wildcard
    · exact .inl hwild
    · exact .inr (h key (List.mem_filter.2 ⟨hkey, by simpa using hwild⟩))
  · obtain ⟨hkey, hwild⟩ := List.mem_filter.1 hkey
    exact (h key hkey).resolve_left (by simpa using hwild)

/-- An element with keys of the list matches the entries that have its texts. This relates the
element of a place, which has all keys, to the test that the listing makes on an entry. -/
theorem elemMatches_entryElem (hname : localName e.name = name) (hlocal : localName name = name)
    (howns : ∀ key ∈ e.keys, key.1 ∈ keys) :
    ElemMatches e (entryElem name keys ms) ↔ hasKeys ms (wantedKeys e) = true := by
  rw [hasKeys_wantedKeys, ElemMatches, entryElem_name hlocal]
  refine ⟨fun h key hkey => ?_, fun h => ⟨hname, fun key hkey => ?_⟩⟩
  · have := h.2 key hkey
    rwa [get?_entryElem, if_pos (howns key hkey)] at this
  · rw [get?_entryElem, if_pos (howns key hkey)]
    exact h key hkey

/-- A node of valid data that a path matches. -/
def MatchIn (elems : List Elem) (n : Node) (w : Json) (path : List Elem) (m : Node) (v : Json) :
    Prop := Finds n w path m v ∧ Matches elems path

theorem matchIn_nil : MatchIn [] n w path m v ↔ path = [] ∧ m = n ∧ v = w := by
  constructor
  · rintro ⟨hfinds, hmatches⟩
    cases hmatches
    exact ⟨rfl, finds_nil.1 hfinds⟩
  · rintro ⟨rfl, rfl, rfl⟩
    exact ⟨finds_nil.2 ⟨rfl, rfl⟩, .nil⟩

/-- A node in a member of that name that a path matches: the first element of the path matches the
one that enters the member. -/
def MatchInMember (e : Elem) (elems : List Elem) (name : String) (child : Node) (w : Json)
    (path : List Elem) (m : Node) (v : Json) : Prop :=
  ∃ f inner rest, path = f :: rest ∧ Enters name child w f inner ∧ ElemMatches e f ∧
    MatchIn elems child inner rest m v

/-- A path matches in an object what it matches in the member of its first name. There is one such
member at most, unlike entries of a list. -/
theorem matchIn_cons (hnames : NamesFreeAt n) (hkeyed : n.Everywhere KeyedAt)
    (hshape : n.HasMembers entry children) (hvalid : Valid n entry (.obj ms)) :
    MatchIn (e :: elems) n (.obj ms) path m v ↔ ∃ w child,
      get? ms (localName e.name) = some w ∧ get? children (localName e.name) = some child ∧
      MatchInMember e elems (localName e.name) child w path m v := by
  constructor
  · rintro ⟨hfinds, hmatches⟩
    cases hmatches with
    | @cons _ f _ rest hhead hrest =>
      obtain ⟨name, w, child, inner, hw, hchild, henters, hfinds⟩ :=
        (finds_cons hnames hkeyed hshape hvalid).1 hfinds
      -- the pattern names the member, since the element that is matched bears the name it is stored
      -- under
      have hname : localName e.name = name := by
        rw [hhead.1, henters.name_eq (hnames.localName hshape.1 hchild)]
      subst hname
      exact ⟨w, child, hw, hchild, f, inner, rest, rfl, henters, hhead, hfinds, hrest⟩
  · rintro ⟨w, child, hw, hchild, f, inner, rest, rfl, henters, hhead, hfinds, hrest⟩
    exact ⟨(finds_cons hnames hkeyed hshape hvalid).2
      ⟨_, w, child, inner, hw, hchild, henters, hfinds⟩, .cons hhead hrest⟩

/-- In a member that is no list the rest of the path is matched. -/
theorem matchInMember_of_not_list (hlist : child.isList = false) (howns : child.OwnsKeys e) :
    MatchInMember e elems (localName e.name) child w path m v ↔
      Below [Elem.plain (localName e.name)] (MatchIn elems child w) path m v := by
  constructor
  · rintro ⟨f, inner, rest, rfl, henters, -, hmatch⟩
    cases henters with
    | member => exact ⟨rest, rfl, hmatch⟩
    | entry => cases hlist
  · rintro ⟨rest, rfl, hmatch⟩
    refine ⟨_, w, rest, rfl, .member hlist, ⟨rfl, fun key hkey => ?_⟩, hmatch⟩
    -- an element that names no list has no keys
    have he : e.isKeyed = false := Bool.eq_false_iff.2 fun he =>
      Bool.false_ne_true (hlist.symm.trans (isList_of_ownsKeys howns he))
    rw [keys_eq_nil he] at hkey
    cases hkey

/-! ### Lists of them -/

/-- The objects among the entries of a valid list are all of them, with different keys. The listing
takes the objects and drops the rest, which here is nothing. -/
theorem entries_objects (hvalid : Valid (.list home keys children) false (.arr xs)) :
    (∀ inner, inner ∈ xs.filterMap Json.obj? ↔ .obj inner ∈ xs) ∧
      (xs.filterMap Json.obj?).Pairwise fun a b =>
        keyTuple keys (.obj a) ≠ keyTuple keys (.obj b) := by
  obtain ⟨xs', heq, hentries, hdistinct⟩ := hvalid.exists_entries
  obtain rfl := Json.arr.inj heq
  refine ⟨fun inner => ?_, ?_⟩
  · rw [List.mem_filterMap]
    constructor
    · rintro ⟨x, hx, hinner⟩
      obtain ⟨ms, rfl, -⟩ := hentries x hx
      obtain rfl := Option.some.inj hinner
      exact hx
    · exact fun hx => ⟨.obj inner, hx, rfl⟩
  · -- the entries are told apart as values; that carries over to the objects because every entry is
    -- one
    refine (List.pairwise_map.1 hdistinct).filterMap Json.obj? ?_
    intro x y hne a ha b hb heq
    cases x with
    | obj ms =>
      cases y with
      | obj ms' =>
        obtain rfl := Option.some.inj ha
        obtain rfl := Option.some.inj hb
        exact hne heq
      | _ => cases hb
    | _ => cases ha

/-- The entries of a list that an element matches, and what the rest of the path matches in them.
The listing may fail in each entry; that it does not is part of what is given for them. -/
theorem lists_entries (hvalid : Valid (.list home keys children) false (.arr xs))
    (hname : localName e.name = name) (hlocal : localName name = name)
    (howns : ∀ key ∈ e.keys, key.1 ∈ keys)
    (h : ∀ inner, .obj inner ∈ xs → ∃ found,
      matchingFrom elems (place ++ [entryElem name keys inner]) (.obj inner)
        (.list home keys children) = .ok found ∧
      Lists (Below (place ++ [entryElem name keys inner])
        (MatchIn elems (.list home keys children) (.obj inner))) found) :
    ∃ founds, ((xs.filterMap Json.obj?).filter fun inner => hasKeys inner (wantedKeys e)).mapM
        (fun inner => matchingFrom elems (place ++ [entryElem name keys inner]) (.obj inner)
          (.list home keys children)) = .ok founds ∧
      Lists (Below place (MatchInMember e elems name (.list home keys children) (.arr xs)))
        founds.flatten := by
  obtain ⟨hmem, hdistinct⟩ := entries_objects hvalid
  -- each entry that matches has the list of what the rest of the path matches in it
  have hchosen : ∀ inner ∈ (xs.filterMap Json.obj?).filter fun inner =>
      hasKeys inner (wantedKeys e), .obj inner ∈ xs := fun inner hinner =>
    (hmem inner).1 (List.mem_filter.1 hinner).1
  obtain ⟨founds, hfounds⟩ := exists_forall₂ fun inner hinner => h inner (hchosen inner hinner)
  refine ⟨founds, mapM_eq_ok_iff.2 (hfounds.imp fun _ _ h => h.1), ?_⟩
  have hlists := Lists.flatten (hfounds.imp fun _ _ h => h.2)
    ((hdistinct.filter _).imp fun {a b} hne path m v m' v' => ?_)
  · refine hlists.congr fun path m v => ?_
    constructor
    · rintro ⟨inner, hinner, rest, rfl, hmatch⟩
      obtain ⟨hinner, hwanted⟩ := List.mem_filter.1 hinner
      exact ⟨_, List.append_assoc _ _ _, _, .obj inner, rest, rfl, .entry ((hmem inner).1 hinner),
        (elemMatches_entryElem hname hlocal howns).2 hwanted, hmatch⟩
    · rintro ⟨_, rfl, f, inner, rest, rfl, henters, hhead, hmatch⟩
      cases henters with
      | member hlist => cases hlist
      | @entry _ _ _ _ inner hx =>
        -- an entry that the element matches has the texts that it asks for, so it has been chosen
        have hwanted := (elemMatches_entryElem hname hlocal howns).1 hhead
        refine ⟨inner, List.mem_filter.2 ⟨(hmem inner).2 hx, hwanted⟩, rest, ?_, hmatch⟩
        rw [List.append_assoc, List.singleton_append]
  · rw [below_append, below_append]
    exact not_below_entryElem hne

/-- What a step of the listing makes of the member that the first element of the path names. -/
theorem lists_member (hvalid : Valid child false w) (howns : child.OwnsKeys e)
    (hlocal : localName (localName e.name) = localName e.name)
    (h : ∀ entry inner place, Valid child entry inner → (child.isList = true → entry = true) →
      ∃ found, matchingFrom elems place inner child = .ok found ∧
        Lists (Below place (MatchIn elems child inner)) found) (place : List Elem) :
    ∃ found, (match child.listKeys? with
        | none => matchingFrom elems (place ++ [Elem.plain (localName e.name)]) w child
        | some keys => (((w.arr?.getD []).filterMap Json.obj?).filter fun inner =>
            hasKeys inner (wantedKeys e)).mapM (fun inner =>
              matchingFrom elems (place ++ [entryElem (localName e.name) keys inner]) (.obj inner)
                child) >>= fun founds => .ok founds.flatten) = .ok found ∧
      Lists (Below place (MatchInMember e elems (localName e.name) child w)) found := by
  cases hlist : child.isList with
  | false =>
    rw [listKeys?_eq_none hlist]
    obtain ⟨found, hfound, hlists⟩ :=
      h false w (place ++ [Elem.plain (localName e.name)]) hvalid fun h => by
        rw [hlist] at h
        cases h
    refine ⟨found, hfound, hlists.congr fun path m v => ?_⟩
    rw [below_append]
    exact Below.congr fun path m v => (matchInMember_of_not_list hlist howns).symm
  | true =>
    obtain ⟨home, keys, children, rfl⟩ := Node.exists_list_of_isList hlist
    -- an entry is gone into as a node of the list's schema, with an element of its own
    obtain ⟨xs, rfl, hentries, -⟩ := hvalid.exists_entries
    obtain ⟨founds, hfounds, hlists⟩ := lists_entries hvalid rfl hlocal howns fun inner hx => by
      obtain ⟨_, heq, hinner, -⟩ := hentries _ hx
      obtain rfl := Json.obj.inj heq
      exact h true (.obj inner) (place ++ [entryElem (localName e.name) keys inner]) hinner
        fun _ => rfl
    refine ⟨founds.flatten, ?_, hlists⟩
    simp only [Node.listKeys?, Json.arr?, Option.getD_some, hfounds]
    rfl

/-- **The nodes of valid data that a path matches are listed, each once**, if the schema has the
path. The induction is on the path, with one step for the member that its first element names. -/
theorem lists_matching (hnames : n.Everywhere NamesFreeAt) (hkeyed : n.Everywhere KeyedAt)
    {origin : Option String} {target : Node × Option String}
    (hwalk : n.walk? origin elems = some target) (hvalid : Valid n entry w)
    (hlist : n.isList = true → entry = true) (place : List Elem) :
    ∃ found, matchingFrom elems place w n = .ok found ∧
      Lists (Below place (MatchIn elems n w)) found := by
  induction elems generalizing n entry w origin place with
  | nil => exact ⟨[⟨place, w, n⟩], rfl, lists_singleton fun path m v => matchIn_nil⟩
  | cons e elems ih =>
    obtain ⟨child, hchild, howns, hwalk⟩ := Node.walk?_cons hwalk
    obtain ⟨children, hn, hname⟩ := get?_of_child? hchild
    have hshape : n.HasMembers entry children := ⟨hn, hlist⟩
    obtain ⟨ms, rfl⟩ := hvalid.eq_obj hshape
    obtain ⟨-, hmembers⟩ := hvalid.exists_child hshape
    rw [matchingFrom, childSchema_of_ownsKeys hchild howns]
    dsimp only [bind, Except.bind]
    rw [member?, Json.obj?, Option.bind_some]
    cases hw : get? ms (localName e.name) with
    | none =>
      -- what is matched would be in that member
      refine ⟨[], rfl, lists_nil fun path m v => ?_⟩
      rintro ⟨rest, rfl, hmatch⟩
      obtain ⟨w, -, hw', -⟩ := (matchIn_cons hnames.here hkeyed hshape hvalid).1 hmatch
      cases hw.symm.trans hw'
    | some w =>
      obtain ⟨child', hchild', hwvalid⟩ := hmembers _ _ hw
      obtain rfl := Option.some.inj (hname.symm.trans hchild')
      obtain ⟨found, hfound, hlists⟩ := lists_member hwvalid howns (hnames.here.localName hn hname)
        (fun entry inner place hinner hentry =>
          ih (hnames.child hn hname) (hkeyed.child hn hname) hwalk hinner hentry place) place
      refine ⟨found, hfound, hlists.congr fun path m v => Below.congr fun path m v => ?_⟩
      -- what is matched is matched in this one member
      rw [matchIn_cons hnames.here hkeyed hshape hvalid]
      constructor
      · exact fun h => ⟨w, child, hw, hname, h⟩
      · rintro ⟨w', child', hw', hchild', h⟩
        obtain rfl := Option.some.inj (hw.symm.trans hw')
        obtain rfl := Option.some.inj (hname.symm.trans hchild')
        exact h

/-- **The leaves at or below the nodes that a path matches are listed, each once.** -/
theorem lists_leaves_matching (hnames : n.Everywhere NamesFreeAt) (hkeyed : n.Everywhere KeyedAt)
    {origin : Option String} {target : Node × Option String}
    (hwalk : n.walk? origin elems = some target) (hvalid : Valid n entry w)
    (hlist : n.isList = true → entry = true) : ∃ found, matching elems w n = .ok found ∧
      Lists (MatchIn elems n w) found ∧
      Lists (fun path m v => LeafIn n w path m v ∧
          ∃ front rest, path = front ++ rest ∧ Matches elems front)
        (found.flatMap fun node => leaves node.path node.schema node.value) := by
  obtain ⟨found, hfound, hlists⟩ := lists_matching hnames hkeyed hwalk hvalid hlist []
  -- below no place at all is anywhere
  have hmatches : Lists (MatchIn elems n w) found := by
    refine hlists.congr fun path m v => ?_
    constructor
    · rintro ⟨rest, rfl, h⟩
      exact h
    · exact fun h => ⟨path, rfl, h⟩
  refine ⟨found, hfound, hmatches, ?_⟩
  have hleaves : Lists (fun path m v => ∃ node ∈ found,
      Below node.path (LeafIn node.schema node.value) path m v)
      (found.flatMap fun node => leaves node.path node.schema node.value) :=
    Lists.flatMap (fun node hnode => ?_)
      (hmatches.places.imp_of_mem fun {a b} ha hb hne path m v m' v' h h' => ?_)
  · refine hleaves.congr fun path m v => ?_
    constructor
    -- a leaf below a node that is matched, and the other way round
    · rintro ⟨node, hnode, rest, rfl, hrest, hleaf⟩
      obtain ⟨hfinds, hmatch⟩ := (hmatches.mem node).1 hnode
      exact ⟨⟨finds_append.2 ⟨_, _, hfinds, hrest⟩, hleaf⟩, _, rest, rfl, hmatch⟩
    · rintro ⟨⟨hfinds, hleaf⟩, front, rest, rfl, hmatch⟩
      obtain ⟨k, u, hfront, hrest⟩ := finds_append.1 hfinds
      exact ⟨⟨front, u, k⟩, (hmatches.mem _).2 ⟨hfront, hmatch⟩, rest, rfl, hrest, hleaf⟩
  · obtain ⟨hfinds, -⟩ := (hmatches.mem node).1 hnode
    obtain ⟨entry', hvalid', hlist'⟩ := hfinds.valid hnames hkeyed hvalid hlist
    have hbelow := below?_of_lookup hfinds.2
    exact (lists_leaves (hnames.below? hbelow) (hkeyed.below? hbelow) hvalid').1 hlist' node.path
  -- all places that a path matches have its length, so none is part of another one
  · obtain ⟨rest, rfl, -⟩ := h
    obtain ⟨rest', hpath', -⟩ := h'
    have ha' := ((hmatches.mem a).1 ha).2.length_eq
    have hb' := ((hmatches.mem b).1 hb).2.length_eq
    exact hne (List.append_inj hpath' (ha'.symm.trans hb')).1

end ConfigTree.Tree
