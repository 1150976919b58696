import ConfigTree.Proofs.Tree.Finds

/-!
# Listing leaves

`leaves` lists the leaves of a subtree, and its recursion branches over members and entries. That a
list has exactly the nodes of some description, each place once, is put together from the lists of
the branches: their places differ in the element that enters the branch.

A list of nodes is specified by a relation between places, schemas and values, and the relation of a
branch is that of the node inside, with the elements on the way put in front (`Below`). The
recursion carries the place down and the relation does not mention it, so each lemma is for all
places at which the listing may have come to its node.

* `Lists`: what a list of nodes has. `Lists.flatten` and `Lists.flatMap` put lists together.
* `lists_leaves`: the leaves of valid data.
-/

namespace ConfigTree.Tree

open ConfigTree.Path (Elem)
open Members (get? Sorted)
open Schema (Node NamesFreeAt)
open Schema.Node (KeyedAt Valid keyTuple)

variable {n child m : Node} {entry : Bool} {e f : Elem} {name : String} {ms inner : Object}
  {home : Option String} {keys : List String} {children : List (String × Node)} {xs : List Json}
  {w v : Json} {path rest elems place : List Elem} {found : List Located}

/-! ### Lists of nodes -/

/-- A list has the nodes that `R` describes by place, schema and value, and each place once. The
order of the list is left open: it is that of the recursion, and nothing that uses the list depends
on it. -/
structure Lists (R : List Elem → Node → Json → Prop) (found : List Located) : Prop where
  mem : ∀ l, l ∈ found ↔ R l.path l.schema l.value
  places : found.Pairwise fun a b => a.path ≠ b.path

section

variable {R R' : List Elem → Node → Json → Prop}

theorem Lists.congr (h : Lists R found) (hR : ∀ path m v, R path m v ↔ R' path m v) :
    Lists R' found :=
  ⟨fun l => (h.mem l).trans (hR _ _ _), h.places⟩

theorem lists_nil (h : ∀ path m v, ¬ R path m v) : Lists R [] :=
  ⟨fun _ => iff_of_false List.not_mem_nil (h _ _ _), .nil⟩

/-- Lists of branches whose places are apart make up one list. What each branch describes is given
separately, for the branches of an object are about different nodes. -/
theorem Lists.flatten {α : Type} {xs : List α} {founds : List (List Located)}
    {R : α → List Elem → Node → Json → Prop}
    (h : List.Forall₂ (fun x found => Lists (R x) found) xs founds)
    (hapart : xs.Pairwise fun x y => ∀ path m v m' v', R x path m v → ¬ R y path m' v') :
    Lists (fun path m v => ∃ x ∈ xs, R x path m v) founds.flatten := by
  induction h with
  | nil => exact lists_nil fun path m v ⟨x, hx, _⟩ => absurd hx List.not_mem_nil
  | @cons x found xs founds hx _ ih =>
    obtain ⟨hapart, hrest⟩ := List.pairwise_cons.1 hapart
    have htail := ih hrest
    rw [List.flatten_cons]
    constructor
    · intro l
      rw [List.mem_append, hx.mem, htail.mem]
      exact (List.exists_mem_cons_iff (fun y => R y l.path l.schema l.value) x xs).symm
    · -- within one part the places differ by hypothesis; those of two parts differ because the
      -- parts speak of different paths
      rw [List.pairwise_append]
      refine ⟨hx.places, htail.places, fun a ha b hb heq => ?_⟩
      obtain ⟨y, hy, hb⟩ := (htail.mem b).1 hb
      rw [← heq] at hb
      exact hapart y hy _ _ _ _ _ ((hx.mem a).1 ha) hb

/-- The same for a listing that maps over its branches and cannot fail. -/
theorem Lists.flatMap {α : Type} {xs : List α} {f : α → List Located}
    {R : α → List Elem → Node → Json → Prop} (h : ∀ x ∈ xs, Lists (R x) (f x))
    (hapart : xs.Pairwise fun x y => ∀ path m v m' v', R x path m v → ¬ R y path m' v') :
    Lists (fun path m v => ∃ x ∈ xs, R x path m v) (xs.flatMap f) := by
  rw [List.flatMap_def]
  refine Lists.flatten ?_ hapart
  rw [List.forall₂_map_right_iff]
  exact List.forall₂_same.2 h

/-- The nodes of a description, below a place. The listing gives whole paths while its recursion
describes what is inside, so a description is moved down by this on the way up. -/
def Below (place : List Elem) (R : List Elem → Node → Json → Prop) (path : List Elem) (m : Node)
    (v : Json) : Prop := ∃ rest, path = place ++ rest ∧ R rest m v

/-- A place in two parts may be gone down in two steps. -/
theorem below_append : Below (place ++ elems) R path m v ↔
    Below place (Below elems R) path m v := by
  constructor
  · rintro ⟨rest, rfl, h⟩
    exact ⟨elems ++ rest, List.append_assoc _ _ _, rest, rfl, h⟩
  · rintro ⟨_, rfl, rest, rfl, h⟩
    exact ⟨rest, (List.append_assoc _ _ _).symm, h⟩

theorem Below.congr (hR : ∀ path m v, R path m v ↔ R' path m v) :
    Below place R path m v ↔ Below place R' path m v :=
  exists_congr fun rest => and_congr_right fun _ => hR rest m v

theorem below_exists {α : Type} {xs : List α} {R : α → List Elem → Node → Json → Prop} :
    Below place (fun path m v => ∃ x ∈ xs, R x path m v) path m v ↔
      ∃ x ∈ xs, Below place (R x) path m v := by
  constructor
  · rintro ⟨rest, hpath, x, hx, h⟩
    exact ⟨x, hx, rest, hpath, h⟩
  · rintro ⟨x, hx, rest, hpath, h⟩
    exact ⟨rest, hpath, x, hx, h⟩

/-- The node at a place is listed below it if it is all that is described. -/
theorem lists_singleton (h : ∀ path m' v, R path m' v ↔ path = [] ∧ m' = m ∧ v = w) :
    Lists (Below place R) [⟨place, w, m⟩] := by
  refine ⟨fun l => ?_, List.pairwise_singleton _ _⟩
  obtain ⟨path, value, schema⟩ := l
  rw [List.mem_singleton, Located.mk.injEq]
  constructor
  · rintro ⟨rfl, rfl, rfl⟩
    exact ⟨[], (List.append_nil _).symm, (h _ _ _).2 ⟨rfl, rfl, rfl⟩⟩
  · rintro ⟨rest, hpath, hR⟩
    obtain ⟨rfl, rfl, rfl⟩ := (h _ _ _).1 hR
    exact ⟨hpath.trans (List.append_nil _), rfl, rfl⟩

/-- Descriptions of different first elements stay apart below a place. The descriptions themselves
are not compared: it is enough that no element is the first one of both. -/
theorem not_below_of_head {R R' : List Elem → Node → Json → Prop} {m' : Node} {v' : Json}
    (hne : ∀ f g rest rest' m v m' v', R (f :: rest) m v → R' (g :: rest') m' v' → f ≠ g)
    (hR : ∀ m v, ¬ R [] m v) (h : Below place R path m v) : ¬ Below place R' path m' v' := by
  rintro ⟨rest', hpath', h'⟩
  obtain ⟨rest, rfl, h⟩ := h
  obtain rfl := List.append_cancel_left hpath'
  cases rest with
  | nil => exact hR m v h
  | cons f rest => exact hne f f rest rest m v m' v' h h' rfl

/-- Entries with different keys have different elements, so what is below them stays apart. This is
where the listing needs that the keys of entries differ; without it one place could be listed
twice. -/
theorem not_below_entryElem {other : Object} {R R' : List Elem → Node → Json → Prop} {m' : Node}
    {v' : Json} (hne : keyTuple keys (.obj inner) ≠ keyTuple keys (.obj other))
    (h : Below place (Below [entryElem name keys inner] R) path m v) :
    ¬ Below place (Below [entryElem name keys other] R') path m' v' := by
  refine not_below_of_head (fun f g rest rest' m v m' v' h h' heq => ?_) (fun m v h => ?_) h
  · obtain ⟨_, hpath, -⟩ := h
    obtain ⟨_, hpath', -⟩ := h'
    obtain ⟨rfl, -⟩ := List.cons.inj hpath
    obtain ⟨rfl, -⟩ := List.cons.inj hpath'
    exact hne (keyTuple_of_entryElem_eq heq)
  · obtain ⟨rest, hpath, -⟩ := h
    cases hpath

end

/-! ### Leaves -/

/-- A leaf or a leaf-list in the data of a node, at whatever depth. It is described by its place and
not by how the listing finds it. -/
def LeafIn (n : Node) (w : Json) (path : List Elem) (m : Node) (v : Json) : Prop :=
  Finds n w path m v ∧ m.isLeaf = true

/-- A leaf in a member of that name. If the member is a list, the first element of the place has the
keys of an entry, so the name alone is not on the way to any leaf. -/
def LeafInMember (name : String) (child : Node) (w : Json) : List Elem → Node → Json → Prop
  | [], _, _ => False
  | f :: rest, m, v => ∃ inner, Enters name child w f inner ∧ LeafIn child inner rest m v

theorem children?_of_isLeaf (h : n.isLeaf = true) : n.children? = none := by
  cases n with
  | leaf home kind => rfl
  | leafList home kind => rfl
  | container home children => cases h
  | list home keys children => cases h

theorem isLeaf_eq_false (h : n.children? = some children) : n.isLeaf = false := by
  cases hleaf : n.isLeaf with
  | false => rfl
  | true =>
    rw [children?_of_isLeaf hleaf] at h
    cases h

/-- A leaf has nothing in it but itself, at the end of the path. -/
theorem leafIn_of_isLeaf (h : n.isLeaf = true) :
    LeafIn n w path m v ↔ path = [] ∧ m = n ∧ v = w := by
  constructor
  · rintro ⟨hfinds, hleaf⟩
    cases path with
    | nil => exact ⟨rfl, finds_nil.1 hfinds⟩
    | cons f path =>
      -- nothing stands below a leaf
      obtain ⟨⟨-, child, hchild, -⟩, -⟩ := hfinds
      rw [Node.child?, children?_of_isLeaf h] at hchild
      cases hchild
  · rintro ⟨rfl, rfl, rfl⟩
    exact ⟨finds_nil.2 ⟨rfl, rfl⟩, h⟩

/-- The leaves in an object are those in its members. That the members are in order says that each
of them is found under its name. -/
theorem leafIn_obj (hnames : NamesFreeAt n) (hkeyed : n.Everywhere KeyedAt)
    (hshape : n.HasMembers entry children) (hvalid : Valid n entry (.obj ms)) :
    LeafIn n (.obj ms) path m v ↔ ∃ o ∈ ms, ∃ child, get? children o.1 = some child ∧
      LeafInMember o.1 child o.2 path m v := by
  obtain ⟨hsorted, -⟩ := hvalid.exists_child hshape
  unfold LeafIn
  cases path with
  | nil =>
    -- an object is no leaf itself
    refine iff_of_false ?_ fun ⟨o, _, child, _, h⟩ => h
    rintro ⟨hfinds, hleaf⟩
    obtain ⟨rfl, rfl⟩ := finds_nil.1 hfinds
    rw [isLeaf_eq_false hshape.1] at hleaf
    cases hleaf
  | cons f rest =>
    rw [finds_cons hnames hkeyed hshape hvalid]
    -- below, the first element of a place enters one of the members
    constructor
    · rintro ⟨⟨name, w, child, inner, hw, hchild, henters, hrest⟩, hleaf⟩
      exact ⟨(name, w), Members.mem_of_get? hw, child, hchild, inner, henters, hrest, hleaf⟩
    · rintro ⟨⟨name, w⟩, ho, child, hchild, inner, henters, hrest, hleaf⟩
      have hw := Members.get?_of_mem hsorted ho
      exact ⟨⟨name, w, child, inner, hw, hchild, henters, hrest⟩, hleaf⟩

/-- The leaves in a list are those in its entries. -/
theorem leafInMember_list : LeafInMember name (.list home keys children) (.arr xs) path m v ↔
    ∃ x ∈ xs, ∃ inner, x = .obj inner ∧ Below [entryElem name keys inner]
      (LeafIn (.list home keys children) (.obj inner)) path m v := by
  cases path with
  | nil =>
    refine iff_of_false id ?_
    rintro ⟨x, -, inner, -, rest, hpath, -⟩
    cases hpath
  | cons f rest =>
    constructor
    · rintro ⟨v', henters, hleaf⟩
      cases henters with
      | member hlist => cases hlist
      | @entry _ _ _ _ inner hx => exact ⟨_, hx, inner, rfl, rest, rfl, hleaf⟩
    · rintro ⟨x, hx, inner, rfl, rest', hpath, hleaf⟩
      obtain ⟨rfl, rfl⟩ := List.cons.inj hpath
      exact ⟨.obj inner, .entry hx, hleaf⟩

/-- The leaves in a member that is no list have its name in front. -/
theorem leafInMember_of_not_list (hlist : child.isList = false) :
    LeafInMember name child w path m v ↔ Below [Elem.plain name] (LeafIn child w) path m v := by
  cases path with
  | nil => exact iff_of_false id fun ⟨rest, hpath, _⟩ => by cases hpath
  | cons f rest =>
    constructor
    · rintro ⟨inner, henters, hleaf⟩
      cases henters with
      | member => exact ⟨rest, rfl, hleaf⟩
      | entry => cases hlist
    · rintro ⟨rest', hpath, hleaf⟩
      obtain ⟨rfl, rfl⟩ := List.cons.inj hpath
      exact ⟨w, .member hlist, hleaf⟩

theorem leaves_of_isLeaf (h : n.isLeaf = true) (w : Json) : leaves place n w = [⟨place, w, n⟩] := by
  cases w <;> simp [leaves, h]

theorem leaves_obj (h : n.isLeaf = false) : leaves place n (.obj ms) = memberLeaves place n ms := by
  rw [leaves, h]
  rfl

/-- The listing of members is a map over them, of which those that the schema does not know have no
leaves. -/
theorem memberLeaves_eq : memberLeaves place n ms = ms.flatMap fun o =>
    match n.child? o.1 with
    | some child => leaves (place ++ [Elem.plain o.1]) child o.2
    | none => [] := by
  induction ms with
  | nil => rw [memberLeaves, List.flatMap_nil]
  | cons o ms ih =>
    obtain ⟨name, w⟩ := o
    rw [memberLeaves, ih]
    rfl

/-- The listing of a list is a map over its entries. The recursion is given the place with the name
of the list and takes the name off again, for the element of an entry has both the name and the
keys. -/
theorem leaves_list : leaves (place ++ [Elem.plain name]) (.list home keys children) (.arr xs) =
    xs.flatMap fun x =>
      match x.obj? with
      | some inner =>
        memberLeaves (place ++ [entryElem name keys inner]) (.list home keys children) inner
      | none => [] := by
  -- the entries are listed one by one, under the name and the keys of each
  have hentries : ∀ xs, entryLeaves place name (.list home keys children) xs
      = xs.flatMap fun x =>
        match x.obj? with
        | some inner =>
          memberLeaves (place ++ [entryElem name keys inner]) (.list home keys children) inner
        | none => [] := by
    intro xs
    induction xs with
    | nil => rw [entryLeaves, List.flatMap_nil]
    | cons x xs ih =>
      rw [List.flatMap_cons, ← ih]
      cases x with
      | obj inner => rw [entryLeaves]; rfl
      | _ => simp [entryLeaves, Json.obj?]
  rw [leaves, List.getLast?_concat, List.dropLast_concat]
  exact hentries xs

theorem lists_of_isLeaf (h : n.isLeaf = true) (place : List Elem) :
    Lists (Below place (LeafIn n w)) (leaves place n w) := by
  rw [leaves_of_isLeaf h]
  exact lists_singleton fun path m v => leafIn_of_isLeaf h

/-- A member that is no list is listed as the node that it is, below the element of its name. -/
theorem lists_member_of_not_list (hlist : n.isList = false)
    (h : ∀ place, Lists (Below place (LeafIn n w)) (leaves place n w)) (place : List Elem)
    (name : String) :
    Lists (Below place (LeafInMember name n w)) (leaves (place ++ [Elem.plain name]) n w) := by
  refine (h (place ++ [Elem.plain name])).congr fun path m v => ?_
  rw [below_append]
  exact Below.congr fun rest m v => (leafInMember_of_not_list hlist).symm

/-- The leaves of an object are listed if those of each member are. The members branch by their
names. -/
theorem lists_leaves_obj (hnames : NamesFreeAt n) (hkeyed : n.Everywhere KeyedAt)
    (hshape : n.HasMembers entry children) (hvalid : Valid n entry (.obj ms))
    (h : ∀ o ∈ ms, ∀ child, get? children o.1 = some child → localName o.1 = o.1 → ∀ place,
      Lists (Below place (LeafInMember o.1 child o.2))
        (leaves (place ++ [Elem.plain o.1]) child o.2)) (place : List Elem) :
    Lists (Below place (LeafIn n (.obj ms))) (leaves place n (.obj ms)) := by
  obtain ⟨hsorted, hmembers⟩ := hvalid.exists_child hshape
  -- the schema knows each member, under a name that has no module
  have hchild : ∀ o ∈ ms, ∃ child, get? children o.1 = some child ∧ localName o.1 = o.1 := by
    intro o ho
    obtain ⟨child, hchild, -⟩ := hmembers o.1 o.2 (Members.get?_of_mem hsorted ho)
    exact ⟨child, hchild, hnames.localName hshape.1 hchild⟩
  rw [leaves_obj (isLeaf_eq_false hshape.1), memberLeaves_eq]
  have hlists : Lists (fun path m v => ∃ o ∈ ms, Below place (fun path m v =>
      ∃ child, get? children o.1 = some child ∧ LeafInMember o.1 child o.2 path m v) path m v)
      (ms.flatMap fun o => match n.child? o.1 with
        | some child => leaves (place ++ [Elem.plain o.1]) child o.2
        | none => []) := by
    refine Lists.flatMap (fun o ho => ?_) ?_
    · obtain ⟨child, hname, hlocal⟩ := hchild o ho
      have hthere : n.child? o.1 = some child := Node.child?_of_get? hshape.1 hlocal hname
      rw [hthere]
      refine (h o ho child hname hlocal place).congr fun path m v => Below.congr fun path m v => ?_
      constructor
      · exact fun h => ⟨child, hname, h⟩
      · rintro ⟨child', hname', h⟩
        obtain rfl := Option.some.inj (hname.symm.trans hname')
        exact h
    -- members have different names, and so have the elements that enter them
    · refine hsorted.imp_of_mem fun {o o'} ho ho' hlt path m v m' v' => ?_
      refine not_below_of_head (fun f g rest rest' m v m' v' h h' heq => ?_)
        fun m v ⟨child, _, h⟩ => h
      obtain ⟨child, -, inner, henters, -⟩ := h
      obtain ⟨child', -, inner', henters', -⟩ := h'
      obtain ⟨-, -, hlocal⟩ := hchild o ho
      obtain ⟨-, -, hlocal'⟩ := hchild o' ho'
      have hsame : o.1 = o'.1 := by
        rw [← henters.name_eq hlocal, heq, henters'.name_eq hlocal']
      exact String.lt_irrefl _ (hsame ▸ hlt)
  refine hlists.congr fun path m v => ?_
  rw [← below_exists]
  exact Below.congr fun path m v => (leafIn_obj hnames hkeyed hshape hvalid).symm

/-- The leaves of a list are listed if those of each entry are. The entries branch by their keys. -/
theorem lists_leaves_list (hvalid : Valid (.list home keys children) false (.arr xs))
    (h : ∀ inner, .obj inner ∈ xs → ∀ place,
      Lists (Below place (LeafIn (.list home keys children) (.obj inner)))
        (leaves place (.list home keys children) (.obj inner))) (place : List Elem) :
    Lists (Below place (LeafInMember name (.list home keys children) (.arr xs)))
      (leaves (place ++ [Elem.plain name]) (.list home keys children) (.arr xs)) := by
  obtain ⟨xs', heq, hentries, hdistinct⟩ := hvalid.exists_entries
  obtain rfl := Json.arr.inj heq
  rw [leaves_list]
  have hlists : Lists (fun path m v => ∃ x ∈ xs, Below place (fun path m v =>
      ∃ inner, x = .obj inner ∧ Below [entryElem name keys inner]
        (LeafIn (.list home keys children) (.obj inner)) path m v) path m v)
      (xs.flatMap fun x => match x.obj? with
        | some inner =>
          memberLeaves (place ++ [entryElem name keys inner]) (.list home keys children) inner
        | none => []) := by
    refine Lists.flatMap (fun x hx => ?_) ?_
    · obtain ⟨inner, rfl, -⟩ := hentries x hx
      have hentry := h inner hx (place ++ [entryElem name keys inner])
      rw [leaves_obj rfl] at hentry
      refine hentry.congr fun path m v => below_append.trans (Below.congr fun path m v => ?_)
      constructor
      · exact fun h => ⟨inner, rfl, h⟩
      · rintro ⟨_, heq, h⟩
        obtain rfl := Json.obj.inj heq
        exact h
    -- entries have different keys, and so have the elements that enter them
    · refine (List.pairwise_map.1 hdistinct).imp fun {x y} hne path m v m' v' h h' => ?_
      obtain ⟨rest, hpath, inner, rfl, h⟩ := h
      obtain ⟨rest', hpath', inner', rfl, h'⟩ := h'
      exact not_below_entryElem hne ⟨rest, hpath, h⟩ ⟨rest', hpath', h'⟩
  refine hlists.congr fun path m v => ?_
  rw [← below_exists]
  exact Below.congr fun path m v => leafInMember_list.symm

/-- **The leaves of valid data are listed, each once.** The place of a list without keys is that of
its name, and the keys of its entries are in the places of their leaves. The induction is on the
data being valid, with one case for each kind of node; it carries two statements, since a member
that is a list is not the place of anything by itself. -/
theorem lists_leaves (hnames : n.Everywhere NamesFreeAt) (hkeyed : n.Everywhere KeyedAt)
    (hvalid : Valid n entry w) :
    ((n.isList = true → entry = true) → ∀ place,
      Lists (Below place (LeafIn n w)) (leaves place n w)) ∧
    (entry = false → ∀ place name, localName name = name →
      Lists (Below place (LeafInMember name n w)) (leaves (place ++ [Elem.plain name]) n w)) := by
  -- the second part is for a list as a whole, whose place is that of the member it is
  induction hvalid with
  | leaf fits =>
    exact ⟨fun _ => lists_of_isLeaf rfl, fun _ place name _ =>
      lists_member_of_not_list rfl (lists_of_isLeaf rfl) place name⟩
  | leafList fits =>
    exact ⟨fun _ => lists_of_isLeaf rfl, fun _ place name _ =>
      lists_member_of_not_list rfl (lists_of_isLeaf rfl) place name⟩
  | @object n entry children ms shape sorted known members ih =>
    have hlists := lists_leaves_obj hnames.here hkeyed shape (.object shape sorted known members)
      fun o ho child hchild hlocal place =>
        (ih o.1 child o.2 hchild (Members.get?_of_mem sorted ho) (hnames.child shape.1 hchild)
          (hkeyed.child shape.1 hchild)).2 rfl place o.1 hlocal
    refine ⟨fun _ => hlists, fun hentry place name _ => ?_⟩
    have hlist : n.isList = false := by
      cases hlist : n.isList with
      | false => rfl
      | true => cases hentry.symm.trans (shape.2 hlist)
    exact lists_member_of_not_list hlist hlists place name
  | @list home keys children xs entries keyed distinct ih =>
    refine ⟨fun h => absurd (h rfl) Bool.false_ne_true, fun _ place name _ => ?_⟩
    exact lists_leaves_list (.list entries keyed distinct)
      (fun inner hx => (ih _ hx hnames hkeyed).1 fun _ => rfl) place

end ConfigTree.Tree
