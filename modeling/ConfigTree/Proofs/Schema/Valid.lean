import ConfigTree.Proofs.Schema.Check
import ConfigTree.Proofs.Json.Basic

/-!
# Valid data

`Node.Valid` says in one case for each kind of data what `Node.validate` checks, and that members
are in order. Unlike `Node.Stands` it does not ask that data is in its held form, so it holds of
what has been checked whatever the names of the schema are.

* `valid_of_validate`: what the check accepts is valid, if it is in normal form.
* `normal_of_conform`: what a payload is held as is in normal form.
-/

namespace ConfigTree

/-- What a scalar is held as is a scalar: no kind makes an array or an object of what it is
given. -/
theorem isScalar_of_held {kind : ScalarKind} {w c : Json} (h : coerce? kind w = some (some c)) :
    c.isScalar = true := by
  -- the form is a constructor of scalars, applied to what has been read from the payload
  have hmap : ∀ {α : Type} (f : α → Json) (x : Option α), (∀ a, (f a).isScalar = true) →
      x.map f = some c → c.isScalar = true := by
    intro α f x hf hx
    obtain ⟨a, -, rfl⟩ := Option.map_eq_some_iff.1 hx
    exact hf a
  have hnum := fun x => hmap Json.num x fun _ => rfl
  cases kind with
  | string =>
    cases w with
    | str s | num n | bool b =>
      obtain rfl := Option.some.inj (Option.some.inj h)
      rfl
    | _ => cases h
  | int bits =>
    cases w with
    | num n | str s => exact hnum _ (Option.some.inj h)
    | _ => cases h
  | uint bits =>
    cases w with
    | num n | str s => exact hnum _ (Option.some.inj h)
    | _ => cases h
  | bool =>
    cases w with
    | bool b =>
      obtain rfl := Option.some.inj (Option.some.inj h)
      rfl
    | str s => exact hmap Json.bool (Text.bool? s) (fun _ => rfl) (Option.some.inj h)
    | _ => cases h
  | decimal =>
    cases w with
    | num n =>
      obtain rfl := Option.some.inj (Option.some.inj h)
      rfl
    | str s =>
      have hread := Option.some.inj h
      split at hread
      · obtain rfl := Option.some.inj hread
        rfl
      · cases hread
    | _ => cases h
  | enumeration values | binary =>
    cases w with
    | str s =>
      obtain rfl := Option.some.inj (Option.some.inj h)
      rfl
    | _ => cases h

namespace Schema.Node

open Members (get? Sorted)

/-- Data is valid at a node, as an entry of a list or as the node itself. It is what `validate`
accepts, with the order of members, which that check does not look at; a tree that the store holds
has both. -/
inductive Valid : Node → Bool → Json → Prop
  | leaf {home : Option String} {kind : ScalarKind} {entry : Bool} {c : Json}
      (fits : isOfKind kind c = true) : Valid (.leaf home kind) entry c
  | leafList {home : Option String} {kind : ScalarKind} {entry : Bool} {cs : List Json}
      (fits : ∀ c ∈ cs, isOfKind kind c = true) : Valid (.leafList home kind) entry (.arr cs)
  | object {n : Node} {entry : Bool} {children : List (String × Node)} {ms : List (String × Json)}
      (shape : n.HasMembers entry children) (sorted : Sorted ms)
      (known : ∀ (name : String) (w : Json), get? ms name = some w → (get? children name).isSome)
      (members : ∀ (name : String) (child : Node) (w : Json), get? children name = some child →
        get? ms name = some w → Valid child false w) : Valid n entry (.obj ms)
  | list {home : Option String} {keys : List String} {children : List (String × Node)}
      {cs : List Json} (entries : ∀ c ∈ cs, Valid (.list home keys children) true c)
      (keyed : ∀ c ∈ cs, none ∉ keyTuple keys c) (distinct : (cs.map (keyTuple keys)).Nodup) :
      Valid (.list home keys children) false (.arr cs)

variable {n child : Node} {entry : Bool} {w c raw : Json} {path name : String}
  {home : Option String} {kind : ScalarKind} {keys : List String}
  {children : List (String × Node)} {ms : List (String × Json)} {xs : List Json}

/-! ### What the cases say -/

theorem Valid.eq_obj (hn : n.HasMembers entry children) (h : Valid n entry w) :
    ∃ ms, w = .obj ms := by
  cases h with
  | leaf fits => cases hn.1
  | leafList fits => cases hn.1
  | object => exact ⟨_, rfl⟩
  | list => exact absurd (hn.2 rfl) Bool.false_ne_true

/-- What valid data has under a name that the schema has is valid there. -/
theorem Valid.member (h : Valid n entry (.obj ms)) (hn : n.children? = some children)
    (hchild : get? children name = some child) (hw : get? ms name = some w) :
    Valid child false w := by
  cases h with
  | leaf fits => cases hn
  | object shape sorted known members =>
    obtain rfl := Option.some.inj (hn.symm.trans shape.1)
    exact members name child w hchild hw

/-- The members of valid data are valid at the children that the schema has for them. -/
theorem Valid.exists_child (h : Valid n entry (.obj ms)) (hn : n.HasMembers entry children) :
    Sorted ms ∧ ∀ name w, get? ms name = some w →
      ∃ child, get? children name = some child ∧ Valid child false w := by
  cases h with
  | leaf fits => cases hn.1
  | object shape sorted known members =>
    obtain rfl := Option.some.inj (hn.1.symm.trans shape.1)
    refine ⟨sorted, fun name w hw => ?_⟩
    obtain ⟨child, hchild⟩ := Option.isSome_iff_exists.1 (known name w hw)
    exact ⟨child, hchild, members name child w hchild hw⟩

/-- The entries of a valid list are valid objects, with all keys, and no two have the same texts. -/
theorem Valid.exists_entries (h : Valid (.list home keys children) false w) : ∃ xs, w = .arr xs ∧
    (∀ x ∈ xs, ∃ ms, x = .obj ms ∧ Valid (.list home keys children) true (.obj ms) ∧
      none ∉ keyTuple keys (.obj ms)) ∧ (xs.map (keyTuple keys)).Nodup := by
  cases h with
  | object shape => exact absurd (shape.2 rfl) Bool.false_ne_true
  | list entries keyed distinct =>
    refine ⟨_, rfl, fun x hx => ?_, distinct⟩
    have hvalid := entries x hx
    obtain ⟨ms, rfl⟩ := hvalid.eq_obj .list
    exact ⟨ms, rfl, hvalid, keyed _ hx⟩

/-! ### What the check accepts -/

/-- **What the check accepts is valid**, if its members are in order. The induction is on the data
and not on the node: an entry of a list is checked by the same node as its list. -/
theorem valid_of_validate (hc : c.Normal) (h : n.validate path entry c = .ok ()) :
    Valid n entry c := by
  induction c using Json.induction_on generalizing n entry path with | step c ih =>
  cases n, entry using cases_entry with
  | leaf home kind entry =>
    rw [validate_leaf, checkScalar_eq_ok_iff] at h
    exact .leaf h
  | leafList home kind entry =>
    obtain ⟨cs, rfl, hfits⟩ := validate_leafList_iff.1 h
    exact .leafList hfits
  | list home keys children =>
    obtain ⟨cs, rfl, hentries, hdistinct⟩ := validate_list_iff.1 h
    have hnormal := Json.normalList_iff.1 hc
    -- an entry that has been checked has all keys
    refine .list (fun x hx => ?_) (fun x hx => ?_) hdistinct
    · obtain ⟨texts, -, hentry⟩ := hentries x hx
      exact ih x hx (hnormal x hx) hentry
    · obtain ⟨texts, htexts, -⟩ := hentries x hx
      rw [htexts]
      simp
  | object n entry children hn =>
    obtain ⟨ms, rfl, hmembers⟩ := (validate_object_iff hn).1 h
    obtain ⟨hsorted, hnormal⟩ := hc
    refine .object hn hsorted (fun name w hw => ?_) fun name child w hchild hw => ?_
    · obtain ⟨child, hchild, -⟩ := hmembers _ (Members.mem_of_get? hw)
      exact Option.isSome_of_eq_some hchild
    · have hmem := Members.mem_of_get? hw
      obtain ⟨child', hchild', hvalid⟩ := hmembers _ hmem
      obtain rfl := Option.some.inj (hchild.symm.trans hchild')
      exact ih w (List.mem_map.2 ⟨_, hmem, rfl⟩) (Json.normalMembers_iff.1 hnormal _ hmem) hvalid

/-- **What a payload is held as is in normal form.** Members are put in order whatever order the
payload has them in, and a scalar has no parts. -/
theorem normal_of_conform (h : n.conform path entry raw = .ok c) : c.Normal := by
  -- the induction is on the payload, whose parts are held as the parts of what it is held as
  induction raw using Json.induction_on generalizing n entry path c with | step raw ih =>
  cases n, entry using cases_entry with
  | leaf home kind entry =>
    rw [conform_leaf, canonicalScalar_eq_ok_iff] at h
    exact Json.normal_of_isScalar (isScalar_of_held h)
  | leafList home kind entry =>
    obtain ⟨xs, cs, rfl, hheld, rfl⟩ := conform_leafList_iff.1 h
    refine Json.normalList_iff.2 fun x hx => ?_
    obtain ⟨_, -, hx⟩ := exists_mem_of_forall₂ hheld hx
    exact Json.normal_of_isScalar (isScalar_of_held hx)
  | list home keys children =>
    obtain ⟨xs, cs, rfl, hheld, rfl⟩ := conform_list_iff.1 h
    refine Json.normalList_iff.2 fun x hx => ?_
    obtain ⟨y, hy, hconform⟩ := exists_mem_of_forall₂ hheld hx
    exact ih y hy hconform
  | object n entry children hn =>
    obtain ⟨ms, out, rfl, hheld, rfl⟩ := (conform_object_iff hn).1 h
    refine ⟨Members.sorted_ofList out, Json.normalMembers_iff.2 fun o ho => ?_⟩
    obtain ⟨m, hm, -, -, child, -, hconform⟩ :=
      exists_mem_of_forall₂ hheld (Members.mem_of_mem_ofList ho)
    exact ih m.2 (List.mem_map.2 ⟨m, hm, rfl⟩) hconform

end Schema.Node

/-- A whole tree that the check accepts is valid. This is the form in which the invariant of the
store is used. -/
theorem Schema.valid_root {s : Schema} {tree : Json} (htree : tree.Normal)
    (h : s.validate (Subtree.root tree) = .ok ()) : s.root.Valid false tree :=
  Schema.Node.valid_of_validate htree h

end ConfigTree
