import ConfigTree.Schema.Validate
import ConfigTree.Proofs.Scalar

/-!
# What the checks accept

When a payload has a held form, and when data is valid, for each kind of node. The recursions of
`Node.conform` and `Node.validate` over members and entries become statements about all members and
all entries. Everything that is said of payloads and of configurations elsewhere is said in these
terms: no other module opens the two recursions.

* `conform_object_iff`, `conform_list_iff`, `conform_leafList_iff`: the held form of a payload.
* `validate_object_iff`, `validate_list_iff`, `validate_leafList_iff`: valid data. For a list,
  `keyTuple` has what tells its entries apart.

The recursions carry the text of a path along, for messages, and stop at the first fault. The
statements here are about success, so neither of this appears in them.
-/

namespace ConfigTree.Schema.Node

variable {path name : String} {entry : Bool} {n : Node} {home : Option String} {keys : List String}
  {children : List (String × Node)} {kind : ScalarKind}

/-! ### Kinds of nodes -/

/-- Data of a node is an object: of a container, or of an entry of a list. A list itself has
children too, but its data is an array; the flag says whether an entry is meant. Containers and
entries are treated alike by either check, so they are one case here. -/
def HasMembers (n : Node) (entry : Bool) (children : List (String × Node)) : Prop :=
  n.children? = some children ∧ (n.isList = true → entry = true)

theorem HasMembers.container : HasMembers (.container home children) entry children :=
  ⟨rfl, fun h => (nomatch h)⟩

theorem HasMembers.list : HasMembers (.list home keys children) true children :=
  ⟨rfl, fun _ => rfl⟩

/-- A node's data has members, is a list, or consists of scalars. Proofs about the two checks split
their cases by this rather than by the constructors of nodes. -/
theorem cases_entry {motive : Node → Bool → Prop}
    (object : ∀ n entry children, HasMembers n entry children → motive n entry)
    (list : ∀ home keys children, motive (.list home keys children) false)
    (leaf : ∀ home kind entry, motive (.leaf home kind) entry)
    (leafList : ∀ home kind entry, motive (.leafList home kind) entry) (n : Node) (entry : Bool) :
    motive n entry := by
  cases n with
  | container home children => exact object _ _ _ .container
  | list home keys children =>
    -- a list stands for one of its entries or for all of them
    cases entry with
    | true => exact object _ _ _ .list
    | false => exact list home keys children
  | leaf home kind => exact leaf home kind entry
  | leafList home kind => exact leafList home kind entry

/-! ### Held forms -/

/-- A member of a payload and the member that it is held as. The name loses its module, the value is
converted by the child of that name, and a value that is null is refused: there is nothing that
could be held for it. -/
def MemberHeld (path : String) (children : List (String × Node)) (m o : String × Json) : Prop :=
  o.1 = localName m.1 ∧ m.2.isNull = false ∧ ∃ child, Members.get? children o.1 = some child ∧
    conform (memberPath path o.1) false child m.2 = .ok o.2

/-- The members of a payload are converted one by one, in the order of the payload. Nothing is said
of repetitions here; they are settled when the members are put in order. -/
theorem conformMembers_iff {ms out : List (String × Json)} :
    conformMembers path children ms = .ok out ↔ List.Forall₂ (MemberHeld path children) ms out := by
  induction ms generalizing out with
  | nil =>
    rw [conformMembers, List.forall₂_nil_left_iff]
    exact ⟨fun h => (Except.ok.inj h).symm, fun h => congrArg _ h.symm⟩
  | cons m ms ih =>
    obtain ⟨name, j⟩ := m
    rw [conformMembers, List.forall₂_cons_left_iff]
    -- a member is refused if its name is not known or its value is null
    cases hchild : Members.get? children (localName name) with
    | none =>
      refine ⟨fun h => (nomatch h), ?_⟩
      rintro ⟨o, out, ⟨hname, -, child, hget, -⟩, -, -⟩
      rw [hname, hchild] at hget
      cases hget
    | some child =>
      cases hnull : j.isNull with
      | true =>
        refine ⟨fun h => (nomatch h), ?_⟩
        rintro ⟨o, out, ⟨-, hj, -⟩, -, -⟩
        rw [hnull] at hj
        cases hj
      | false =>
        simp only [Bool.false_eq_true, if_false]
        constructor
        · intro h
          obtain ⟨held, hheld, h⟩ := bind_eq_ok_iff.1 h
          obtain ⟨rest, hrest, h⟩ := bind_eq_ok_iff.1 h
          exact ⟨(localName name, held), rest, ⟨rfl, hnull, child, hchild, hheld⟩, ih.1 hrest,
            (Except.ok.inj h).symm⟩
        · rintro ⟨⟨name', held⟩, rest, ⟨hname, -, child', hchild', hheld⟩, hrest, rfl⟩
          dsimp only at hname
          subst hname
          obtain rfl := Option.some.inj (hchild.symm.trans hchild')
          exact bind_eq_ok_iff.2 ⟨held, hheld, bind_eq_ok_iff.2 ⟨rest, ih.2 hrest, rfl⟩⟩

/-- Containers and entries convert an object in the same way: its members are converted, and put in
the order of their names. -/
theorem conform_obj (hn : HasMembers n entry children) (ms : List (String × Json)) :
    conform path entry n (.obj ms)
      = (conformMembers path children ms).map fun out => .obj (Members.ofList out) := by
  obtain ⟨hchildren, hentry⟩ := hn
  -- a container and an entry are read in the same way
  cases n with
  | container home cs =>
    obtain rfl := Option.some.inj hchildren
    rw [conform]
  | list home keys cs =>
    obtain rfl := Option.some.inj hchildren
    obtain rfl := hentry rfl
    rw [conform, if_pos rfl]
  | leaf home kind => cases hchildren
  | leafList home kind => cases hchildren

/-- Where members are expected, nothing but an object is taken. -/
theorem isObject_of_conform (hn : HasMembers n entry children) {j c : Json}
    (h : conform path entry n j = .ok c) : ∃ ms, j = .obj ms := by
  obtain ⟨hchildren, hentry⟩ := hn
  cases n with
  | container home cs => cases j <;> simp_all [conform]
  | list home keys cs =>
    obtain rfl := hentry rfl
    cases j <;> simp_all [conform]
  | leaf home kind => cases hchildren
  | leafList home kind => cases hchildren

/-- The held form of a payload at a node with members. The members are held one by one, and then put
in order, where the last one of a name stays. -/
theorem conform_object_iff (hn : HasMembers n entry children) {j c : Json} :
    conform path entry n j = .ok c ↔ ∃ ms out, j = .obj ms ∧
      List.Forall₂ (MemberHeld path children) ms out ∧ c = .obj (Members.ofList out) := by
  constructor
  · intro h
    obtain ⟨ms, rfl⟩ := isObject_of_conform hn h
    rw [conform_obj hn, map_eq_ok_iff] at h
    obtain ⟨out, hout, rfl⟩ := h
    exact ⟨ms, out, rfl, conformMembers_iff.1 hout, rfl⟩
  · rintro ⟨ms, out, rfl, hout, rfl⟩
    rw [conform_obj hn, map_eq_ok_iff]
    exact ⟨out, conformMembers_iff.2 hout, rfl⟩

/-- Entries are converted one by one, and each is an object. The keys are not looked at: whether
there are any is left to the second check. -/
theorem conformEntries_iff {xs cs : List Json} :
    conformEntries path children xs = .ok cs ↔
      List.Forall₂ (fun x c => conform path true (.list home keys children) x = .ok c) xs cs := by
  -- on the entries: the mutual recursion for lists becomes a relation between two lists
  induction xs generalizing cs with
  | nil =>
    rw [conformEntries, List.forall₂_nil_left_iff]
    exact ⟨fun h => (Except.ok.inj h).symm, fun h => congrArg _ h.symm⟩
  | cons x xs ih =>
    rw [List.forall₂_cons_left_iff]
    constructor
    · intro h
      cases x with
      | obj ms =>
        rw [conformEntries] at h
        obtain ⟨out, hout, h⟩ := bind_eq_ok_iff.1 h
        obtain ⟨rest, hrest, h⟩ := bind_eq_ok_iff.1 h
        refine ⟨.obj (Members.ofList out), rest, ?_, ih.1 hrest, (Except.ok.inj h).symm⟩
        rw [conform_obj .list, hout]
        rfl
      | _ => simp [conformEntries] at h
    · rintro ⟨c, rest, hc, hrest, rfl⟩
      obtain ⟨ms, rfl⟩ := isObject_of_conform .list hc
      rw [conform_obj .list, map_eq_ok_iff] at hc
      obtain ⟨out, hout, rfl⟩ := hc
      rw [conformEntries]
      exact bind_eq_ok_iff.2 ⟨out, hout, bind_eq_ok_iff.2 ⟨rest, ih.2 hrest, rfl⟩⟩

/-- The held form of a payload at a list: each entry is held as an object of its members. -/
theorem conform_list_iff {j c : Json} :
    conform path false (.list home keys children) j = .ok c ↔ ∃ xs cs, j = .arr xs ∧
      List.Forall₂ (fun x c => conform path true (.list home keys children) x = .ok c) xs cs ∧
      c = .arr cs := by
  constructor
  · intro h
    cases j with
    | arr xs =>
      rw [conform, if_neg Bool.false_ne_true, map_eq_ok_iff] at h
      obtain ⟨cs, hcs, rfl⟩ := h
      exact ⟨xs, cs, rfl, conformEntries_iff.1 hcs, rfl⟩
    -- only an array is read as a list
    | _ => simp [conform] at h
  · rintro ⟨xs, cs, rfl, hcs, rfl⟩
    rw [conform, if_neg Bool.false_ne_true, conformEntries_iff.2 hcs]
    rfl

@[simp] theorem conform_leaf {j : Json} :
    conform path entry (.leaf home kind) j = canonicalScalar path kind j := by
  cases j <;> simp [conform]

/-- A leaf-list is converted item by item, and its items are scalars of one kind. -/
theorem conform_leafList_iff {j c : Json} :
    conform path entry (.leafList home kind) j = .ok c ↔ ∃ xs cs, j = .arr xs ∧
      List.Forall₂ (fun x c => coerce? kind x = some (some c)) xs cs ∧ c = .arr cs := by
  constructor
  · intro h
    cases j with
    | arr xs =>
      rw [conform, map_eq_ok_iff] at h
      obtain ⟨cs, hcs, rfl⟩ := h
      rw [mapM_eq_ok_iff] at hcs
      exact ⟨xs, cs, rfl, hcs.imp fun _ _ => canonicalScalar_eq_ok_iff.1, rfl⟩
    | _ => simp [conform] at h
  · rintro ⟨xs, cs, rfl, hcs, rfl⟩
    have hmap : xs.mapM (canonicalScalar path kind) = .ok cs :=
      mapM_eq_ok_iff.2 (hcs.imp fun _ _ => canonicalScalar_eq_ok_iff.2)
    rw [conform, hmap]
    rfl

/-! ### Valid data -/

/-- Members are valid if each has a child of its name, by which its value is valid. The name is
looked up as it stands, since data has no modules in its names. -/
theorem validateMembers_iff {ms : List (String × Json)} :
    validateMembers path children ms = .ok () ↔ ∀ m ∈ ms, ∃ child,
      Members.get? children m.1 = some child ∧
        validate (memberPath path m.1) false child m.2 = .ok () := by
  induction ms with
  | nil => exact ⟨fun _ _ hm => (nomatch hm), fun _ => rfl⟩
  | cons m ms ih =>
    obtain ⟨name, j⟩ := m
    rw [validateMembers, List.forall_mem_cons]
    -- the recursion stops at the first member that is refused
    cases hchild : Members.get? children name with
    | none =>
      refine ⟨fun h => (nomatch h), ?_⟩
      rintro ⟨⟨child, hget, -⟩, -⟩
      cases hget
    | some child =>
      constructor
      · intro h
        obtain ⟨_, hj, h⟩ := bind_eq_ok_iff.1 h
        exact ⟨⟨child, rfl, hj⟩, ih.1 h⟩
      · rintro ⟨⟨child', hchild', hj⟩, h⟩
        obtain rfl := Option.some.inj hchild'
        exact bind_eq_ok_iff.2 ⟨(), hj, ih.2 h⟩

/-- Valid data of a node with members. Nothing is asked about which members there are: any may be
missing, but for the keys of an entry, which its list asks for. -/
theorem validate_object_iff (hn : HasMembers n entry children) {c : Json} :
    validate path entry n c = .ok () ↔ ∃ ms, c = .obj ms ∧ ∀ m ∈ ms, ∃ child,
      Members.get? children m.1 = some child ∧
        validate (memberPath path m.1) false child m.2 = .ok () := by
  -- at a container and at an entry it is the members that are checked
  have hobj : validate path entry n c = .ok () ↔
      ∃ ms, c = .obj ms ∧ validateMembers path children ms = .ok () := by
    obtain ⟨hchildren, hentry⟩ := hn
    cases n with
    | container home cs =>
      obtain rfl := Option.some.inj hchildren
      cases c <;> simp [validate]
    | list home keys cs =>
      obtain rfl := Option.some.inj hchildren
      obtain rfl := hentry rfl
      cases c <;> simp [validate]
    | leaf home kind => cases hchildren
    | leafList home kind => cases hchildren
  rw [hobj]
  simp only [validateMembers_iff]

@[simp] theorem validate_leaf {c : Json} :
    validate path entry (.leaf home kind) c = checkScalar path kind c := by
  cases c <;> simp [validate]

/-- Valid data of a leaf-list: an array of scalars, all of the kind. Repetitions are allowed. -/
theorem validate_leafList_iff {c : Json} :
    validate path entry (.leafList home kind) c = .ok () ↔
      ∃ cs, c = .arr cs ∧ ∀ x ∈ cs, isOfKind kind x = true := by
  cases c with
  | arr cs =>
    have hall : cs.forM (checkScalar path kind) = .ok () ↔ ∀ x ∈ cs, isOfKind kind x = true :=
      forM_eq_ok_iff.trans (forall₂_congr fun _ _ => checkScalar_eq_ok_iff)
    rw [validate, hall]
    simp
  | _ => simp [validate]

/-- What tells an entry from the others: for each key its text, where the entry has it. Entries are
compared by these texts and not by the scalars, as the elements of paths are. -/
def keyTuple (keys : List String) (j : Json) : List (Option String) :=
  keys.map fun key => (j.obj?.bind fun ms => Members.get? ms key).map keyString

/-- An entry with all keys has a list of texts. -/
theorem exists_map_some_of_none_not_mem {ts : List (Option String)} (h : none ∉ ts) :
    ∃ texts : List String, ts = texts.map some := by
  induction ts with
  | nil => exact ⟨[], rfl⟩
  | cons t ts ih =>
    obtain ⟨texts, rfl⟩ := ih fun hmem => h (List.mem_cons_of_mem _ hmem)
    cases t with
    | none => exact absurd List.mem_cons_self h
    | some t => exact ⟨t :: texts, rfl⟩

/-- The check takes the texts of an entry in the order of the keys, and fails at the first that is
missing. -/
theorem keyTexts_iff {ms : List (String × Json)} {texts : List String} :
    keyTexts path ms keys = .ok texts ↔ keyTuple keys (.obj ms) = texts.map some := by
  induction keys generalizing texts with
  | nil =>
    rw [keyTexts]
    constructor
    · intro h
      rw [← Except.ok.inj h]
      rfl
    · intro h
      rw [List.map_eq_nil_iff.1 h.symm]
  | cons key keys ih =>
    rw [keyTexts]
    cases hkey : Members.get? ms key with
    | none =>
      -- a key that is missing has no text on either side
      refine ⟨fun h => (nomatch h), fun h => ?_⟩
      cases texts with
      | nil => cases h
      | cons t ts => simp [keyTuple, Json.obj?, hkey] at h
    | some held =>
      simp only [map_eq_ok_iff, ih]
      constructor
      · rintro ⟨texts, htexts, rfl⟩
        rw [List.map_cons, ← htexts]
        simp [keyTuple, Json.obj?, hkey]
      · intro h
        cases texts with
        | nil => cases h
        | cons t ts =>
          simp only [keyTuple, Json.obj?, Option.bind_some, List.map_cons, hkey, Option.map_some,
            List.cons.injEq, Option.some.injEq] at h
          exact ⟨ts, h.2, by rw [h.1]⟩

theorem map_some_inj {as bs : List String} (h : as.map some = bs.map some) : as = bs :=
  List.map_injective_iff.2 (fun _ _ => Option.some.inj) h

/-- One step of the check over entries: the texts of the entry are not among those seen so far, and
from then on they are. -/
theorem validateEntries_obj_iff {seen : List (List String)} {ms : List (String × Json)}
    {xs : List Json} : validateEntries path keys children seen (.obj ms :: xs) = .ok () ↔
      ∃ texts, keyTuple keys (.obj ms) = texts.map some ∧ texts ∉ seen ∧
        validateMembers (entryPath path texts) children ms = .ok () ∧
        validateEntries path keys children (texts :: seen) xs = .ok () := by
  rw [validateEntries, bind_eq_ok_iff]
  refine exists_congr fun texts => and_congr keyTexts_iff ?_
  by_cases hseen : texts ∈ seen
  · simp [hseen, throw, throwThe, MonadExceptOf.throw, bind, Except.bind]
  · have hunit : ∀ x : Except TreeError Unit, (∃ u, x = .ok u) ↔ x = .ok () :=
      fun x => ⟨fun ⟨_, h⟩ => h, fun h => ⟨(), h⟩⟩
    simp [hseen, bind_eq_ok_iff, hunit]

/-- The entries of a list are checked one after another, but what is asked of them does not depend
on the order. The induction is over the entries, for any texts seen before them: an entry is new to
those, and each one is new to the entries in front of it, which together says that no two have the
same. -/
theorem validateEntries_iff (home : Option String) {seen : List (List String)} {xs : List Json} :
    validateEntries path keys children seen xs = .ok () ↔
      (∀ x ∈ xs, ∃ texts, keyTuple keys x = texts.map some ∧ texts ∉ seen ∧
        validate (entryPath path texts) true (.list home keys children) x = .ok ()) ∧
      (xs.map (keyTuple keys)).Nodup := by
  -- the entries seen so far are generalized: each step adds the texts of one
  induction xs generalizing seen with
  | nil => exact ⟨fun _ => ⟨fun _ hx => absurd hx List.not_mem_nil, List.nodup_nil⟩, fun _ => rfl⟩
  | cons x xs ih =>
    rw [List.forall_mem_cons, List.map_cons, List.nodup_cons]
    cases x with
    | obj ms =>
      rw [validateEntries_obj_iff]
      constructor
      · rintro ⟨texts, htexts, hseen, hms, hrest⟩
        obtain ⟨hall, hnodup⟩ := ih.1 hrest
        refine ⟨⟨⟨texts, htexts, hseen, ?_⟩, fun y hy => ?_⟩, ?_, hnodup⟩
        · rw [validate, if_pos rfl, hms]
        · obtain ⟨texts', htexts', hseen', hvalid⟩ := hall y hy
          exact ⟨texts', htexts', fun h => hseen' (List.mem_cons_of_mem _ h), hvalid⟩
        -- an entry with the same texts would have been seen before
        · intro hmem
          obtain ⟨y, hy, heq⟩ := List.mem_map.1 hmem
          obtain ⟨texts', htexts', hseen', -⟩ := hall y hy
          have hsame : texts' = texts := map_some_inj (by rw [← htexts', heq, htexts])
          exact hseen' (hsame ▸ List.mem_cons_self)
      · rintro ⟨⟨⟨texts, htexts, hseen, hvalid⟩, hall⟩, hnew, hnodup⟩
        rw [validate, if_pos rfl] at hvalid
        refine ⟨texts, htexts, hseen, hvalid, ih.2 ⟨fun y hy => ?_, hnodup⟩⟩
        obtain ⟨texts', htexts', hseen', hvalid'⟩ := hall y hy
        refine ⟨texts', htexts', fun hmem => ?_, hvalid'⟩
        rcases List.mem_cons.1 hmem with rfl | hmem
        · exact hnew (List.mem_map.2 ⟨y, hy, by rw [htexts', htexts]⟩)
        · exact hseen' hmem
    | _ => simp [validateEntries, validate]

/-- Valid data of a list: each entry is valid and has all keys, and no two have the same texts. -/
theorem validate_list_iff {c : Json} :
    validate path false (.list home keys children) c = .ok () ↔ ∃ cs, c = .arr cs ∧
      (∀ x ∈ cs, ∃ texts, keyTuple keys x = texts.map some ∧
        validate (entryPath path texts) true (.list home keys children) x = .ok ()) ∧
      (cs.map (keyTuple keys)).Nodup := by
  cases c with
  | arr cs =>
    rw [validate, if_neg Bool.false_ne_true, validateEntries_iff home]
    simp
  | _ => simp [validate]

end ConfigTree.Schema.Node

namespace ConfigTree.Schema

/-- What a payload is read as at a place: the place is in the schema, the payload is a document, and
the document has a held form there. Whether the data is valid is not asked here; a payload is
checked when it has been written. -/
theorem unmarshal_eq_ok_iff {s : Schema} {r : Json.Reader} {location : List Path.Elem}
    {payload : ByteArray} {c : Subtree} :
    s.unmarshal r location payload = .ok c ↔ ∃ found raw, s.nodeAt location = .ok found ∧
      Json.parseBytes? r payload = some raw ∧
      found.1.conform (Path.textOf location) (Subtree.isEntryPlace location) raw = .ok c.data ∧
      c.location = location := by
  unfold unmarshal
  rw [bind_eq_ok_iff]
  refine exists_congr fun found => ?_
  -- the node of the place is looked up first, and then the payload is read
  cases hparse : Json.parseBytes? r payload with
  | none =>
    refine iff_of_false (fun h => ?_) ?_
    · cases h.2
    · rintro ⟨_, -, hsome, -⟩
      cases hsome
  | some raw =>
    constructor
    · rintro ⟨hfound, h⟩
      obtain ⟨data, hdata, h⟩ := bind_eq_ok_iff.1 h
      obtain rfl := Except.ok.inj h
      exact ⟨raw, hfound, rfl, hdata, rfl⟩
    · rintro ⟨_, hfound, hraw, hdata, rfl⟩
      obtain rfl := Option.some.inj hraw
      exact ⟨hfound, bind_eq_ok_iff.2 ⟨c.data, hdata, rfl⟩⟩

end ConfigTree.Schema
