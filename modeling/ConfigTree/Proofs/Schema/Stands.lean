import ConfigTree.Proofs.Schema.Check

/-!
# Data that stands for valid data

A document `w` stands for `c` at a node if `c` is valid and is the form in which `w` is held. The
checks speak of this in two passes over a document; `Node.Stands` says it once, with one case for
each kind of data, so that what an edit does to a tree can be followed case by case.

* `Stands.conform`, `Stands.validate`: both checks accept what stands for something.
* `stands_of_conform`: what the checks have accepted stands for itself.
* `Stands.depth_le`, `Stands.normal`: such a document is as deep as the schema at most, and in
  normal form.
* `Tidy.stands_of_conform`: a document with members that the schema knows, in their order, is
  accepted only if it stands for what it is held as.
-/

namespace ConfigTree.Schema.Node

open Members (get? Sorted SameNames InStep)

/-- A document stands for another at a node, as an entry of a list or as the node itself. Members
are compared by looking them up, since the two objects have the same names; entries by their places.
What is asked of keys is asked of the right side alone: on the left a key may have another form, and
another text. -/
inductive Stands : Node → Bool → Json → Json → Prop
  | leaf {home : Option String} {kind : ScalarKind} {entry : Bool} {w c : Json}
      (held : coerce? kind w = some (some c)) (fits : isOfKind kind c = true) :
      Stands (.leaf home kind) entry w c
  | leafList {home : Option String} {kind : ScalarKind} {entry : Bool} {xs cs : List Json}
      (held : List.Forall₂ (fun x c => coerce? kind x = some (some c)) xs cs)
      (fits : ∀ c ∈ cs, isOfKind kind c = true) :
      Stands (.leafList home kind) entry (.arr xs) (.arr cs)
  | object {n : Node} {entry : Bool} {children : List (String × Node)}
      {ms cs : List (String × Json)} (shape : n.HasMembers entry children)
      (sorted : Sorted ms) (sorted' : Sorted cs) (names : SameNames ms cs)
      (known : ∀ (name : String) (w : Json), get? ms name = some w → (get? children name).isSome)
      (members : ∀ (name : String) (child : Node) (w c : Json), get? children name = some child →
        get? ms name = some w → get? cs name = some c → Stands child false w c) :
      Stands n entry (.obj ms) (.obj cs)
  | list {home : Option String} {keys : List String} {children : List (String × Node)}
      {xs cs : List Json} (length : xs.length = cs.length)
      (entries : ∀ (i : Nat) (w c : Json), xs[i]? = some w → cs[i]? = some c →
        Stands (.list home keys children) true w c)
      (keyed : ∀ c ∈ cs, none ∉ keyTuple keys c) (distinct : (cs.map (keyTuple keys)).Nodup) :
      Stands (.list home keys children) false (.arr xs) (.arr cs)

variable {n child : Node} {entry : Bool} {w c : Json} {path name : String}
  {home : Option String} {kind : ScalarKind} {keys : List String}
  {children : List (String × Node)} {ms cs : List (String × Json)}

/-! ### What the cases say -/

/-- Data that has members stands for an object if it is an object itself. -/
theorem Stands.eq_obj (hn : n.HasMembers entry children) (h : Stands n entry w c) :
    ∃ ms cs, w = .obj ms ∧ c = .obj cs := by
  cases h with
  | leaf held fits => cases hn.1
  | leafList held fits => cases hn.1
  | object => exact ⟨_, _, rfl, rfl⟩
  | list => exact absurd (hn.2 rfl) Bool.false_ne_true

theorem Stands.eq_arr (h : Stands (.list home keys children) false w c) :
    ∃ xs cs, w = .arr xs ∧ c = .arr cs := by
  cases h with
  | object shape => exact absurd (shape.2 rfl) Bool.false_ne_true
  | list => exact ⟨_, _, rfl, rfl⟩

/-- An object stands for another if their members are in step. -/
theorem stands_object_iff (hn : n.HasMembers entry children) :
    Stands n entry (.obj ms) (.obj cs) ↔
      InStep (fun child w c => Stands child false w c) children ms cs := by
  constructor
  · intro h
    cases h with
    | leaf held fits => cases hn.1
    | object shape sorted sorted' names known members =>
      obtain rfl := Option.some.inj (hn.1.symm.trans shape.1)
      exact ⟨sorted, sorted', names, known, members⟩
  · exact fun h => .object hn h.sorted h.sorted' h.names h.known h.members

/-- The member that a member of a known node stands for. -/
theorem Stands.member (h : Stands n entry (.obj ms) (.obj cs)) (hn : n.HasMembers entry children)
    (hchild : get? children name = some child) (hw : get? ms name = some w) :
    ∃ c, get? cs name = some c ∧ Stands child false w c :=
  ((stands_object_iff hn).1 h).exists_right hchild hw

/-- An array of entries stands for another if each entry does, and no two of the other have the same
keys. The relation says it with places, which is what a nested induction can use; as a relation
between two lists it is easier to change. -/
theorem stands_list_iff {xs cs : List Json} :
    Stands (.list home keys children) false (.arr xs) (.arr cs) ↔
      List.Forall₂ (Stands (.list home keys children) true) xs cs ∧
        (∀ c ∈ cs, none ∉ keyTuple keys c) ∧ (cs.map (keyTuple keys)).Nodup := by
  rw [forall₂_iff_getElem?]
  constructor
  · intro h
    cases h with
    | list length entries keyed distinct => exact ⟨⟨length, entries⟩, keyed, distinct⟩
  · exact fun ⟨⟨length, entries⟩, keyed, distinct⟩ => .list length entries keyed distinct

/-- Nothing that stands for a document is null. No kind of scalar has a form for null, and the rest
are arrays and objects. -/
theorem Stands.isNull (h : Stands n entry w c) : w.isNull = false := by
  cases h with
  | leaf held fits =>
    cases w with
    | null => rename_i kind; cases kind <;> simp [coerce?] at held
    | _ => rfl
  | _ => rfl

/-! ### The checks accept it -/

/-- **What is stood for is valid.** The path only shows in messages, so the induction is for all of
them. -/
theorem Stands.validate (h : Stands n entry w c) (path : String) :
    validate path entry n c = .ok () := by
  induction h generalizing path with
  | leaf held fits => rw [validate_leaf, checkScalar_eq_ok_iff]; exact fits
  | leafList held fits => exact validate_leafList_iff.2 ⟨_, rfl, fits⟩
  | object shape sorted sorted' names known members ih =>
    -- each member on the right has one on the left, whose schema is known
    refine (validate_object_iff shape).2 ⟨_, rfl, fun m hm => ?_⟩
    have hc := Members.get?_of_mem sorted' hm
    obtain ⟨w, hw⟩ := names.symm.exists_right hc
    obtain ⟨child, hchild⟩ := Option.isSome_iff_exists.1 (known _ _ hw)
    exact ⟨child, hchild, ih _ _ _ _ hchild hw hc _⟩
  | list length entries keyed distinct ih =>
    refine validate_list_iff.2 ⟨_, rfl, fun c hc => ?_, distinct⟩
    obtain ⟨texts, htexts⟩ := exists_map_some_of_none_not_mem (keyed c hc)
    obtain ⟨i, hi⟩ := List.getElem?_of_mem hc
    obtain ⟨w, hw⟩ := exists_getElem?_of_length length.symm hi
    exact ⟨texts, htexts, ih i w c hw hi _⟩

/-- **What stands for a document is held as it.** That no name has a colon is needed for the names
of members alone: what a scalar is held as is part of the relation. -/
theorem Stands.conform (hfree : n.Everywhere ColonFreeAt) (h : Stands n entry w c)
    (path : String) : conform path entry n w = .ok c := by
  induction h generalizing path with
  | leaf held fits => rw [conform_leaf, canonicalScalar_eq_ok_iff]; exact held
  | leafList held fits => exact conform_leafList_iff.2 ⟨_, _, rfl, held, rfl⟩
  | object shape sorted sorted' names known members ih =>
    -- names of the schema have no module in front, so members keep their names and their order
    have hlocal : ∀ {name child}, get? _ name = some child → localName name = name :=
      fun hchild => hfree.here.localName shape.1 hchild
    have hstep := Members.forall₂_get?_of_sameNames sorted sorted' names
    have hheld : List.Forall₂ (MemberHeld path _) _ _ := hstep.imp fun m o ⟨heq, hm, ho⟩ => by
      obtain ⟨child, hchild⟩ := Option.isSome_iff_exists.1 (known _ _ hm)
      have hnull := (members _ _ _ _ hchild hm ho).isNull
      refine ⟨by rw [hlocal hchild, heq], hnull, child, heq ▸ hchild, ?_⟩
      exact ih _ _ _ _ hchild hm ho (hfree.child shape.1 hchild) _
    exact (conform_object_iff shape).2
      ⟨_, _, rfl, hheld, by rw [Members.ofList_of_sorted sorted']⟩
  | list length entries keyed distinct ih =>
    refine conform_list_iff.2 ⟨_, _, rfl, forall₂_iff_getElem?.2 ⟨length, ?_⟩, rfl⟩
    exact fun i w c hw hc => ih i w c hw hc hfree _

/-! ### What the checks have accepted -/

/-- Scalars of a kind are in their held form, one by one. -/
theorem forall₂_coerce?_of_isOfKind {cs : List Json} (hfree : ∀ v ∈ kind.values, ':' ∉ v.toList)
    (h : ∀ c ∈ cs, isOfKind kind c = true) :
    List.Forall₂ (fun x c => coerce? kind x = some (some c)) cs cs :=
  List.forall₂_same.2 fun c hc => coerce?_of_isOfKind hfree (h c hc)

/-- **What a payload is held as stands for itself, if it is valid.** Here enumerations matter too: a
valid value is held as itself only if its name has no colon. -/
theorem stands_of_conform (hfree : n.Everywhere ColonFreeAt) {raw c : Json} {path' : String}
    (hc : Node.conform path entry n raw = .ok c) (hv : Node.validate path' entry n c = .ok ()) :
    Stands n entry c c := by
  -- the induction is on the payload: what it is held as has its parts in their held form
  induction raw using Json.induction_on generalizing n entry path path' c with | step raw ih =>
  cases n, entry using cases_entry with
  | leaf home kind entry =>
    rw [validate_leaf, checkScalar_eq_ok_iff] at hv
    exact .leaf (coerce?_of_isOfKind (hfree.here.2 _ rfl) hv) hv
  | leafList home kind entry =>
    obtain ⟨cs, rfl, hfits⟩ := validate_leafList_iff.1 hv
    exact .leafList (forall₂_coerce?_of_isOfKind (hfree.here.2 _ rfl) hfits) hfits
  | list home keys children =>
    obtain ⟨xs, cs, rfl, hheld, rfl⟩ := conform_list_iff.1 hc
    obtain ⟨cs', heq, hvalid, hdistinct⟩ := validate_list_iff.1 hv
    obtain rfl := Json.arr.inj heq
    -- entries stand for themselves; that they have their keys is checked, not converted
    refine .list rfl (fun i w c hw hc => ?_) (fun c hc => ?_) hdistinct
    · obtain rfl := Option.some.inj (hw.symm.trans hc)
      obtain ⟨x, hx⟩ := exists_getElem?_of_length hheld.length_eq.symm hw
      obtain ⟨texts, -, hentry⟩ := hvalid _ (List.mem_of_getElem? hw)
      have hconform := (forall₂_iff_getElem?.1 hheld).2 i x w hx hw
      exact ih x (List.mem_of_getElem? hx) hfree hconform hentry
    · obtain ⟨texts, htexts, -⟩ := hvalid c hc
      rw [htexts]
      simp
  | object n entry children hn =>
    obtain ⟨ms, out, rfl, hheld, rfl⟩ := (conform_object_iff hn).1 hc
    obtain ⟨cs, heq, hvalid⟩ := (validate_object_iff hn).1 hv
    obtain rfl := Json.obj.inj heq
    have hsorted := Members.sorted_ofList out
    refine .object hn hsorted hsorted (fun _ => rfl) (fun name w hw => ?_) ?_
    · obtain ⟨child, hchild, -⟩ := hvalid _ (Members.mem_of_get? hw)
      exact Option.isSome_of_eq_some hchild
    · intro name child w c hchild hw hc
      obtain rfl := Option.some.inj (hw.symm.trans hc)
      have hmem := Members.mem_of_get? hw
      -- the held member has come from a member of the payload, to which the induction applies
      obtain ⟨m, hm, hlocal, -, child', hchild', hconform⟩ :=
        exists_mem_of_forall₂ hheld (Members.mem_of_mem_ofList hmem)
      obtain ⟨child'', hchild'', hv⟩ := hvalid _ hmem
      obtain rfl := Option.some.inj (hchild.symm.trans hchild')
      obtain rfl := Option.some.inj (hchild.symm.trans hchild'')
      exact ih _ (List.mem_map_of_mem hm) (hfree.child hn.1 hchild) hconform hv

/-- What stands for a document has that document stand for itself. -/
theorem Stands.held (hfree : n.Everywhere ColonFreeAt) (h : Stands n entry w c) :
    Stands n entry c c :=
  stands_of_conform hfree (h.conform hfree "") (h.validate "")

/-- A document stands for one document only, because the conversion gives one. -/
theorem Stands.unique (hfree : n.Everywhere ColonFreeAt) {c' : Json} (h : Stands n entry w c)
    (h' : Stands n entry w c') : c = c' :=
  Except.ok.inj ((h.conform hfree "").symm.trans (h'.conform hfree ""))

/-! ### Depth and order -/

/-- How deep data of a node can be. An entry is one level less deep than its list. -/
def reachOf (n : Node) (entry : Bool) : Nat :=
  match n with
  | .list _ _ children => reachChildren children + if entry then 1 else 2
  | n => n.reach

theorem reachOf_false (n : Node) : n.reachOf false = n.reach := by
  cases n <;> rfl

theorem HasMembers.reachOf (hn : n.HasMembers entry children) :
    n.reachOf entry = reachChildren children + 1 := by
  obtain ⟨hchildren, hentry⟩ := hn
  cases n with
  | container home cs => obtain rfl := Option.some.inj hchildren; rfl
  | list home keys cs =>
    obtain rfl := Option.some.inj hchildren
    obtain rfl := hentry rfl
    rfl
  | leaf home kind => cases hchildren
  | leafList home kind => cases hchildren

/-- **What stands for a document is no deeper than the schema lets it be.** With the bound on loaded
schemas this is why a tree can always be read back. -/
theorem Stands.depth_le (h : Stands n entry w c) : w.depth ≤ n.reachOf entry := by
  induction h with
  | leaf held fits =>
    rw [Json.depth_of_isScalar (isScalar_of_coerce? held)]
    exact Nat.zero_le _
  | leafList held fits =>
    refine Nat.succ_le_succ (Json.depthList_le fun x hx => ?_)
    obtain ⟨c, -, hheld⟩ := exists_mem_right_of_forall₂ held hx
    rw [Json.depth_of_isScalar (isScalar_of_coerce? hheld)]
  | object shape sorted sorted' names known members ih =>
    -- an object is one level deeper than its deepest member
    rw [shape.reachOf]
    refine Nat.succ_le_succ (Json.depthMembers_le fun m hm => ?_)
    have hw := Members.get?_of_mem sorted hm
    obtain ⟨c, hc⟩ := names.exists_right hw
    obtain ⟨child, hchild⟩ := Option.isSome_iff_exists.1 (known _ _ hw)
    calc m.2.depth ≤ child.reachOf false := ih _ _ _ _ hchild hw hc
      _ = child.reach := reachOf_false child
      _ ≤ reachChildren _ := reach_le_reachChildren hchild
  | list length entries keyed distinct ih =>
    refine Nat.succ_le_succ (Json.depthList_le fun x hx => ?_)
    obtain ⟨i, hi⟩ := List.getElem?_of_mem hx
    obtain ⟨c, hc⟩ := exists_getElem?_of_length length hi
    exact ih i x c hi hc

/-- The members of what stands for a document are in order at every object, so that its text is read
back as the document itself and not as another order of it. -/
theorem Stands.normal (h : Stands n entry w c) : w.Normal := by
  -- on how the tree stands for its document: wherever it has members, they are in order
  induction h with
  | leaf held fits => exact Json.normal_of_isScalar (isScalar_of_coerce? held)
  | leafList held fits =>
    refine Json.normalList_iff.2 fun x hx => ?_
    obtain ⟨c, -, hheld⟩ := exists_mem_right_of_forall₂ held hx
    exact Json.normal_of_isScalar (isScalar_of_coerce? hheld)
  | object shape sorted sorted' names known members ih =>
    refine ⟨sorted, Json.normalMembers_iff.2 fun m hm => ?_⟩
    have hw := Members.get?_of_mem sorted hm
    obtain ⟨c, hc⟩ := names.exists_right hw
    obtain ⟨child, hchild⟩ := Option.isSome_iff_exists.1 (known _ _ hw)
    exact ih _ _ _ _ hchild hw hc
  | list length entries keyed distinct ih =>
    refine Json.normalList_iff.2 fun x hx => ?_
    obtain ⟨i, hi⟩ := List.getElem?_of_mem hx
    obtain ⟨c, hc⟩ := exists_getElem?_of_length length hi
    exact ih i x c hi hc

/-! ### Data with its members in order -/

/-- Data whose objects have members that the schema knows, in their order. Whether its values are of
their kinds, and whether entries have their keys, is left open. The working copy is of this sort at
every moment of an edit, also when the edit goes on to fail. -/
inductive Tidy : Node → Json → Prop
  | value {n : Node} {w : Json} (shape : n.children? = none) (normal : w.Normal) : Tidy n w
  | object {n : Node} {children : List (String × Node)} {ms : List (String × Json)}
      (shape : n.children? = some children) (sorted : Sorted ms)
      (known : ∀ (name : String) (w : Json), get? ms name = some w → (get? children name).isSome)
      (members : ∀ (name : String) (child : Node) (w : Json), get? children name = some child →
        get? ms name = some w → Tidy child w) : Tidy n (.obj ms)
  | list {home : Option String} {keys : List String} {children : List (String × Node)}
      {xs : List Json} (entries : ∀ x ∈ xs, Tidy (.list home keys children) x) :
      Tidy (.list home keys children) (.arr xs)

theorem Tidy.normal (h : Tidy n w) : w.Normal := by
  induction h with
  | value shape normal => exact normal
  | object shape sorted known members ih =>
    refine ⟨sorted, Json.normalMembers_iff.2 fun m hm => ?_⟩
    have hw := Members.get?_of_mem sorted hm
    obtain ⟨child, hchild⟩ := Option.isSome_iff_exists.1 (known _ _ hw)
    exact ih _ _ _ hchild hw
  | list entries ih => exact Json.normalList_iff.2 ih

/-- Members whose names are known are held under their names and in their order. A payload may have
a module in front of a name and hold two members as one; tidy data cannot. -/
theorem exists_members_of_conform {path' : String} (hn : n.HasMembers entry children)
    (hfree : ColonFreeAt n) (sorted : Sorted ms)
    (known : ∀ name w, get? ms name = some w → (get? children name).isSome)
    (hc : Node.conform path entry n (.obj ms) = .ok c)
    (hv : Node.validate path' entry n c = .ok ()) :
    ∃ cs, c = .obj cs ∧ Sorted cs ∧ SameNames ms cs ∧
      ∀ name child w d, get? children name = some child → get? ms name = some w →
        get? cs name = some d → Node.conform (memberPath path name) false child w = .ok d ∧
          Node.validate (memberPath path' name) false child d = .ok () := by
  obtain ⟨ms', out, hw, hheld, rfl⟩ := (conform_object_iff hn).1 hc
  obtain rfl := Json.obj.inj hw
  obtain ⟨cs, heq, hvalid⟩ := (validate_object_iff hn).1 hv
  -- names of the schema have no module in front, so the members are held in their order
  have hstep : List.Forall₂ (fun m o => m.1 = o.1 ∧ MemberHeld path children m o) ms out := by
    refine List.forall₂_iff_zip.2 ⟨hheld.length_eq, fun {m o} hmem => ?_⟩
    have hmember := List.forall₂_zip hheld hmem
    have hm := Members.get?_of_mem sorted (List.of_mem_zip hmem).1
    obtain ⟨child, hchild⟩ := Option.isSome_iff_exists.1 (known _ _ hm)
    exact ⟨(hmember.1.trans (hfree.localName hn.1 hchild)).symm, hmember⟩
  have hnames := hstep.imp fun _ _ h => h.1
  have hsorted := Members.sorted_of_forall₂ sorted hnames
  rw [Members.ofList_of_sorted hsorted] at heq ⊢
  obtain rfl := Json.obj.inj heq
  refine ⟨out, rfl, hsorted, Members.sameNames_of_forall₂ hnames, ?_⟩
  intro name child w d hchild hw hd
  obtain ⟨-, -, child', hchild', hconform⟩ := Members.rel_of_get? hstep hw hd
  obtain ⟨child'', hchild'', hcheck⟩ := hvalid _ (Members.mem_of_get? hd)
  obtain rfl := Option.some.inj (hchild.symm.trans hchild')
  obtain rfl := Option.some.inj (hchild.symm.trans hchild'')
  exact ⟨hconform, hcheck⟩

/-- **Tidy data that the checks accept stands for what it is held as.** So a commit may be followed
case by case although it is two recursions over the working copy. -/
theorem Tidy.stands_of_conform {path' : String} (hfree : n.Everywhere ColonFreeAt) (h : Tidy n w)
    (hc : Node.conform path entry n w = .ok c) (hv : Node.validate path' entry n c = .ok ()) :
    Stands n entry w c := by
  induction h generalizing entry path path' c with
  | @value n w shape =>
    cases n, entry using cases_entry with
    | leaf home kind entry =>
      rw [conform_leaf, canonicalScalar_eq_ok_iff] at hc
      rw [validate_leaf, checkScalar_eq_ok_iff] at hv
      exact .leaf hc hv
    | leafList home kind entry =>
      obtain ⟨xs, cs, rfl, hheld, rfl⟩ := conform_leafList_iff.1 hc
      obtain ⟨cs', heq, hfits⟩ := validate_leafList_iff.1 hv
      obtain rfl := Json.arr.inj heq
      exact .leafList hheld hfits
    | list home keys children => cases shape
    | object n entry children hn => cases hn.1.symm.trans shape
  | @object n children ms shape sorted known members ih =>
    -- only nodes with members are left for an object
    cases n, entry using cases_entry with
    | leaf home kind entry => cases shape
    | leafList home kind entry => cases shape
    | list home keys children =>
      obtain ⟨xs, cs, hw, -⟩ := conform_list_iff.1 hc
      cases hw
    | object n entry children' hn =>
      obtain rfl := Option.some.inj (shape.symm.trans hn.1)
      obtain ⟨cs, rfl, hsorted, hnames, hmembers⟩ :=
        exists_members_of_conform hn hfree.here sorted known hc hv
      refine .object hn sorted hsorted hnames known fun name child w d hchild hw hd => ?_
      obtain ⟨hconform, hcheck⟩ := hmembers name child w d hchild hw hd
      exact ih name child w hchild hw (hfree.child shape hchild) hconform hcheck
  | @list home keys children xs entries ih =>
    -- an array is no entry
    cases entry with
    | true =>
      obtain ⟨ms, hw⟩ := isObject_of_conform .list hc
      cases hw
    | false =>
      obtain ⟨xs', cs, hw, hheld, rfl⟩ := conform_list_iff.1 hc
      obtain rfl := Json.arr.inj hw
      obtain ⟨cs', heq, hvalid, hdistinct⟩ := validate_list_iff.1 hv
      obtain rfl := Json.arr.inj heq
      refine .list hheld.length_eq (fun i x c hx hc => ?_) (fun c hmem => ?_) hdistinct
      · obtain ⟨texts, -, hcheck⟩ := hvalid c (List.mem_of_getElem? hc)
        exact ih x (List.mem_of_getElem? hx) hfree ((forall₂_iff_getElem?.1 hheld).2 i x c hx hc)
          hcheck
      · obtain ⟨texts, htexts, -⟩ := hvalid c hmem
        rw [htexts]
        simp

end ConfigTree.Schema.Node
