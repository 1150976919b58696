import ConfigTree.Proofs.Store.Frame
import ConfigTree.Proofs.Tree.Matching

/-!
# What a path with wildcards finds

`matching` branches over the entries of a list, while `lookup` takes the first entry with the keys.
The two agree because the entries of a valid list have different keys: `matching` finds the nodes
whose places the path matches, each of them once, and `lookup` finds these nodes at their places.

* `Bare`, `AllKeys`: paths without modules, and paths with all keys of their lists.
* `concrete_iff`: places are the paths of the schema that are both.
* `lookup_bare`: a look-up does not need the modules of a path.
* `Matches.eq_bare`: a path with all keys and no wildcard matches one place, its own.
* `matching_places`: what `matching` finds.
-/

namespace ConfigTree.Tree

open ConfigTree.Path (Elem)
open Members (get?)
open Schema (Node NamesFreeAt)
open Schema.Node (KeyedAt Valid)

variable {n child : Node} {e f : Elem} {w : Json} {p q elems path : List Elem}
  {home : Option String} {target : Node × Option String}

/-! ### Places -/

/-- A path has names without modules. -/
def Bare (path : List Elem) : Prop := ∀ e ∈ path, localName e.name = e.name

/-- Each element of a path that names a list has all keys of the list. Such a path names one node at
most, so that a look-up of it does not choose. -/
def AllKeys : Node → List Elem → Prop
  | _, [] => True
  | n, e :: rest => ∀ child, n.child? e.name = some child → Full child e ∧ AllKeys child rest

theorem AllKeys.cons (h : AllKeys n (e :: elems)) (hchild : n.child? e.name = some child) :
    Full child e ∧ AllKeys child elems := h child hchild

/-- **The places are the paths of the schema without modules and with all keys.** The two ways of
saying it are used on different sides: a place is what the listing gives, and having a node in the
schema is what is asked of a request. -/
theorem concrete_iff (home : Option String) :
    Concrete n path ↔ (n.walk? home path).isSome ∧ Bare path ∧ AllKeys n path := by
  -- the home is carried along by the walk and never decides whether it succeeds, so it is free in
  -- the induction
  induction path generalizing n home with
  | nil => exact iff_of_true trivial ⟨rfl, fun e he => absurd he List.not_mem_nil, trivial⟩
  | cons e path ih =>
    constructor
    · rintro ⟨hname, child, hchild, hkeys, hrest⟩
      obtain ⟨howns, hfull⟩ := keys_iff.1 hkeys
      obtain ⟨hwalk, hbare, hall⟩ := (ih (child.home.or home)).1 hrest
      rw [Node.walk?_eq_of_ownsKeys hchild howns]
      refine ⟨hwalk, List.forall_mem_cons.2 ⟨hname, hbare⟩, fun child' hchild' => ?_⟩
      obtain rfl := Option.some.inj (hchild.symm.trans hchild')
      exact ⟨hfull, hall⟩
    · rintro ⟨hwalk, hbare, hall⟩
      obtain ⟨target, hwalk⟩ := Option.isSome_iff_exists.1 hwalk
      obtain ⟨child, hchild, howns, hrest⟩ := Node.walk?_cons hwalk
      obtain ⟨hname, hbare⟩ := List.forall_mem_cons.1 hbare
      obtain ⟨hfull, hall⟩ := hall.cons hchild
      exact ⟨hname, child, hchild, keys_iff.2 ⟨howns, hfull⟩,
        (ih _).2 ⟨Option.isSome_of_eq_some hrest, hbare, hall⟩⟩

/-! ### Paths without modules -/

/-- An element without the module of its name. -/
def bareElem (e : Elem) : Elem := ⟨localName e.name, e.keys, e.sorted⟩

@[simp] theorem bareElem_name (e : Elem) : (bareElem e).name = localName e.name := rfl

@[simp] theorem bareElem_keys (e : Elem) : (bareElem e).keys = e.keys := rfl

theorem found?_bareElem {ms : Object} (hlocal : localName (localName e.name) = localName e.name) :
    found? ms (bareElem e) = found? ms e := by
  unfold found? Elem.isKeyed
  rw [bareElem_name, bareElem_keys, hlocal]

/-- The schema has the child of an element under its name without the module. -/
theorem child?_bareElem (hlocal : localName (localName e.name) = localName e.name) :
    n.child? (bareElem e).name = n.child? e.name := by
  rw [Node.child?, Node.child?, bareElem_name, hlocal]

/-- **A look-up does not need the modules of a path**, if the schema has the path. It takes the
module off each name, and a name without one stays as it is. -/
theorem lookup_bare (hnames : n.Everywhere NamesFreeAt) (hwalk : n.walk? home p = some target)
    (w : Json) : lookup (p.map bareElem) w n = lookup p w n := by
  induction p generalizing n home w with
  | nil => rfl
  | cons e p ih =>
    obtain ⟨child, hchild, howns, hwalk⟩ := Node.walk?_cons hwalk
    obtain ⟨children, hn, hname⟩ := get?_of_child? hchild
    have hlocal := hnames.here.localName hn hname
    have hbare : n.child? (bareElem e).name = some child := by rw [child?_bareElem hlocal, hchild]
    cases w with
    | obj ms =>
      rw [List.map_cons, lookup_cons, lookup_cons, childSchema_of_ownsKeys hchild howns,
        childSchema_of_ownsKeys hbare howns, found?_bareElem hlocal]
      dsimp only [bind, Except.bind]
      cases found? ms e with
      | none => rfl
      | some x => exact ih (hnames.child hn hname) hwalk x
    -- what is no object has no members
    | _ =>
      rw [List.map_cons, lookup, lookup, childSchema_of_ownsKeys hchild howns,
        childSchema_of_ownsKeys hbare howns]
      rfl

/-- A path with all keys has a place: itself, without modules. -/
theorem concrete_bare (hnames : n.Everywhere NamesFreeAt) (hwalk : n.walk? home p = some target)
    (hall : AllKeys n p) : Concrete n (p.map bareElem) := by
  induction p generalizing n home with
  | nil => trivial
  | cons e p ih =>
    obtain ⟨child, hchild, howns, hwalk⟩ := Node.walk?_cons hwalk
    obtain ⟨children, hn, hname⟩ := get?_of_child? hchild
    have hlocal := hnames.here.localName hn hname
    obtain ⟨hfull, hall⟩ := hall.cons hchild
    refine ⟨hlocal, child, by rw [child?_bareElem hlocal, hchild], ?_,
      ih (hnames.child hn hname) hwalk hall⟩
    exact keys_iff.2 ⟨howns, hfull⟩

/-! ### What a path matches -/

/-- No key of a path is a wildcard. The text of a key may be a star all the same, in a tree; a path
cannot ask for it. -/
def Exact (path : List Elem) : Prop := ∀ e ∈ path, ∀ key ∈ e.keys, key.2 ≠ wildcard

/-- An element matches itself without its module. -/
theorem elemMatches_bareElem (e : Elem) : ElemMatches e (bareElem e) :=
  ⟨rfl, fun _ hkey => .inr (Members.get?_of_mem e.sorted hkey)⟩

theorem matches_bare (p : List Elem) : Matches p (p.map bareElem) :=
  List.forall₂_map_right_iff.2 (List.forall₂_same.2 fun e _ => elemMatches_bareElem e)

/-- An element with all keys and no wildcard matches no other element of a place. -/
theorem ElemMatches.eq_bareElem (h : ElemMatches e f) (howns : child.OwnsKeys e)
    (hfull : Full child e) (hexact : ∀ key ∈ e.keys, key.2 ≠ wildcard)
    (hkeys : ∀ key, (get? f.keys key).isSome ↔ key ∈ child.listKeys?.getD []) :
    f = bareElem e := by
  refine elem_ext h.1.symm fun key => ?_
  rw [bareElem_keys]
  cases hkey : get? e.keys key with
  | some text =>
    have hmem := Members.mem_of_get? hkey
    exact (h.2 _ hmem).resolve_left (hexact _ hmem)
  | none =>
    -- the two have the same keys, those of the node
    have hnot : key ∉ child.listKeys?.getD [] := by
      rw [← keys_iff.2 ⟨howns, hfull⟩ key, hkey]
      exact Bool.false_ne_true
    exact Option.not_isSome_iff_eq_none.1 fun hsome => hnot ((hkeys key).1 hsome)

/-- **A path with all keys and no wildcard matches just its own place.** Each element has the keys
of the one that it matches, and their texts. -/
theorem Matches.eq_bare (h : Matches p path) (hwalk : n.walk? home p = some target)
    (hnames : n.Everywhere NamesFreeAt) (hall : AllKeys n p) (hexact : Exact p)
    (hpath : Concrete n path) : path = p.map bareElem := by
  induction h generalizing n home with
  | nil => rfl
  | @cons e f p path hhead _ ih =>
    obtain ⟨child, hchild, howns, hwalk⟩ := Node.walk?_cons hwalk
    obtain ⟨children, hn, hname⟩ := get?_of_child? hchild
    obtain ⟨hfull, hall⟩ := hall.cons hchild
    obtain ⟨hexact, hrest⟩ := List.forall_mem_cons.1 hexact
    obtain ⟨-, child', hchild', hkeys, hpath⟩ := hpath
    -- the element of the place enters the same child
    have hsame : child' = child := by
      rw [← hhead.1, ← bareElem_name, child?_bareElem (hnames.here.localName hn hname)] at hchild'
      exact Option.some.inj (hchild'.symm.trans hchild)
    subst hsame
    rw [List.map_cons, hhead.eq_bareElem howns hfull hexact hkeys,
      ih hwalk (hnames.child hn hname) hall hrest hpath]

/-- What is listed for one place is one node at most: two would have the same place. -/
theorem Lists.eq_toList {R : List Elem → Node → Json → Prop} {found : List Located}
    {o : Option (Json × Node)} (h : Lists R found)
    (hR : ∀ path m v, R path m v ↔ path = p ∧ o = some (v, m)) :
    found = o.toList.map fun x => ⟨p, x.1, x.2⟩ := by
  cases o with
  | none =>
    refine List.eq_nil_iff_forall_not_mem.2 fun l hl => ?_
    obtain ⟨-, hnone⟩ := (hR _ _ _).1 ((h.mem l).1 hl)
    cases hnone
  | some x =>
    obtain ⟨v, m⟩ := x
    have hone : ∀ l ∈ found, l = ⟨p, v, m⟩ := by
      intro l hl
      obtain ⟨hpath, hsome⟩ := (hR _ _ _).1 ((h.mem l).1 hl)
      obtain ⟨hv, hm⟩ := Prod.mk.inj (Option.some.inj hsome)
      obtain ⟨path, value, schema⟩ := l
      rw [Located.mk.injEq]
      exact ⟨hpath, hv.symm, hm.symm⟩
    have hmem : (⟨p, v, m⟩ : Located) ∈ found := (h.mem _).2 ((hR _ _ _).2 ⟨rfl, rfl⟩)
    match found with
    | [] => cases hmem
    | [l] => rw [hone l List.mem_cons_self]; rfl
    | l :: l' :: found =>
      -- two nodes would have one place
      have hne := List.rel_of_pairwise_cons h.places (List.mem_cons_self (a := l'))
      rw [hone l List.mem_cons_self,
        hone l' (List.mem_cons_of_mem _ List.mem_cons_self)] at hne
      exact absurd rfl hne

/-- A look-up of a path that the schema has does not fail, in whatever tree. Where the tree has
another shape nothing is found. -/
theorem exists_lookup_of_walk? (hwalk : n.walk? home p = some target) (w : Json) :
    ∃ o, lookup p w n = .ok o := by
  induction p generalizing n home w with
  | nil => exact ⟨_, rfl⟩
  | cons e p ih =>
    obtain ⟨child, hchild, howns, hwalk⟩ := Node.walk?_cons hwalk
    have hschema := childSchema_of_ownsKeys hchild howns
    -- the schema has the rest of the path, so the look-up can only miss: at a member that is not
    -- there, or at data that is no object
    cases w with
    | obj ms =>
      cases hfound : found? ms e with
      | none => exact ⟨none, lookup_cons_of_missing hschema hfound p⟩
      | some x =>
        rw [lookup_cons_of_found hschema hfound]
        exact ih hwalk x
    | _ =>
      refine ⟨none, ?_⟩
      rw [lookup, hschema]
      rfl

/-- **What a path with wildcards finds in a valid tree.** If the schema has the path, then the nodes
that are found have different places, with all keys, and a look-up of a place finds its node. A
place is among these if there is a node and the path matches the place. A path with all keys and no
wildcard finds what a look-up of it finds. -/
theorem matching_places {s : Schema} {tree : Json} (hs : s.Loaded) (hnames : s.NamesFree)
    (htree : tree.Normal) (hvalid : s.validate (Subtree.root tree) = .ok ())
    (hp : (s.resolve? p).isSome) : ∃ found, matching p tree s.root = .ok found ∧
      (found.map fun l => l.path).Nodup ∧
      (∀ l ∈ found, ((s.resolve? l.path).isSome ∧ Bare l.path ∧ AllKeys s.root l.path) ∧
        lookup l.path tree s.root = .ok (some (l.value, l.schema))) ∧
      (∀ q, (s.resolve? q).isSome → Bare q → AllKeys s.root q →
        (q ∈ found.map (fun l => l.path) ↔
          (∃ v m, lookup q tree s.root = .ok (some (v, m))) ∧ Matches p q)) ∧
      (AllKeys s.root p → Exact p → ∃ o, lookup p tree s.root = .ok o ∧
        found = o.toList.map fun x => ⟨p.map bareElem, x.1, x.2⟩) := by
  have hroot := Schema.valid_root htree hvalid
  obtain ⟨children, hshape⟩ := hs.hasMembers
  obtain ⟨target, hwalk⟩ := Option.isSome_iff_exists.1 ((Option.isSome_map).symm.trans hp)
  obtain ⟨found, hfound, hlists, -⟩ :=
    lists_leaves_matching hnames hs.keyed hwalk hroot hshape.2
  have hplace : ∀ q, Concrete s.root q ↔ (s.resolve? q).isSome ∧ Bare q ∧ AllKeys s.root q := by
    intro q
    rw [concrete_iff s.root.home, Schema.resolve?, Node.resolve?, Option.isSome_map]
  refine ⟨found, hfound, List.pairwise_map.2 hlists.places, fun l hl => ?_,
    fun q hq hbare hkeys => ?_, fun hkeys hexact => ?_⟩
  · obtain ⟨⟨hconcrete, hlookup⟩, -⟩ := (hlists.mem l).1 hl
    exact ⟨(hplace _).1 hconcrete, hlookup⟩
  · rw [List.mem_map]
    constructor
    · rintro ⟨l, hl, rfl⟩
      obtain ⟨⟨-, hlookup⟩, hmatches⟩ := (hlists.mem l).1 hl
      exact ⟨⟨_, _, hlookup⟩, hmatches⟩
    · rintro ⟨⟨v, m, hlookup⟩, hmatches⟩
      have hconcrete := (hplace q).2 ⟨hq, hbare, hkeys⟩
      exact ⟨⟨q, v, m⟩, (hlists.mem _).2 ⟨⟨hconcrete, hlookup⟩, hmatches⟩, rfl⟩
  -- the one place that is matched has what the path itself finds
  · obtain ⟨o, ho⟩ := exists_lookup_of_walk? hwalk tree
    have hbare : lookup (p.map bareElem) tree s.root = .ok o :=
      (lookup_bare hnames hwalk tree).trans ho
    refine ⟨o, ho, hlists.eq_toList fun path m v => ?_⟩
    constructor
    · rintro ⟨⟨hconcrete, hlookup⟩, hmatches⟩
      obtain rfl := hmatches.eq_bare hwalk hnames hkeys hexact hconcrete
      exact ⟨rfl, Except.ok.inj (hbare.symm.trans hlookup)⟩
    · rintro ⟨rfl, rfl⟩
      exact ⟨⟨concrete_bare hnames hwalk hkeys, hbare⟩, matches_bare p⟩

/-! ### The ports of two servers -/

/-- The ports of all servers, by a wildcard. -/
def anyPort : List Elem := [Elem.ofKeys "server" [("port", "*")], Elem.plain "port"]

/-- Both ports are found at their places, and no other place is. -/
theorem matching_anyPort : ∃ found, matching anyPort Store.grownTree Store.serverSchema.root
      = .ok found ∧
    (found.map fun l => l.path) = [
      [Elem.ofKeys "server" [("port", "80")], Elem.plain "port"],
      [Elem.ofKeys "server" [("port", "8080")], Elem.plain "port"]] ∧
    ∀ l ∈ found, lookup l.path Store.grownTree Store.serverSchema.root
      = .ok (some (l.value, l.schema)) := by
  have hvalid : Store.serverSchema.validate (Subtree.root Store.grownTree) = .ok () := rfl
  obtain ⟨found, hfound, -, hplaces, -⟩ := matching_places Store.loaded_serverSchema
    Store.colonFree_serverSchema.namesFree Store.normal_grownTree hvalid (p := anyPort) rfl
  refine ⟨found, hfound, ?_, fun l hl => (hplaces l hl).2⟩
  obtain rfl := Except.ok.inj hfound
  decide

end ConfigTree.Tree
