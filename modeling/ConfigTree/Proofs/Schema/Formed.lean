import ConfigTree.Proofs.Json.ReadBack
import ConfigTree.Proofs.Schema.Alike
import ConfigTree.Proofs.Schema.Valid

/-!
# Data in the form that its node asks for

Edits move the values of leaves around and never look into them. So what they keep can be said with
what is asked of such values left open. `Node.Formed` is this form: objects and arrays where the
schema has them, with names that it knows, and values of which a predicate holds where it has
leaves. A `Form` says what that predicate is, and whether more is asked for: that lists are arrays,
and that entries are told apart by their keys.

* `Formed.imp`: what has one form has any that asks for less.
* `Formed.insert`, `Formed.erase`, `Formed.set`, `Formed.concat`, `Formed.remove`: changes of
  members and entries that keep the form.
* `Valid.formed`: what the checks accept has the form `valid`.
* `formed_of_stands`, `Formed.stands_self`: data of the form `valid` is what stands for itself.
* `Formed.exists_stands`: data of the form `legible` stands for some document.
* `Formed.tidy`: data of the form `ordered` has its members in order.
* `Formed.shaped`: data of the form `loose` that has a held form is `shaped`.
-/

namespace ConfigTree.Schema.Node

open Members (get? Sorted SameNames InStep)

/-! ### Forms -/

/-- Whether a value has no objects, right inside it neither. Values of leaves and leaf-lists are of
this sort even before they are checked, and it keeps an edit from finding members in them. -/
def isFlat : Json → Bool
  | .obj _ => false
  | .arr xs => xs.all fun x => !x.isObject
  | _ => true

/-- What is asked of data, beside that its objects have members that the schema knows. The edits are
proved to keep any form that admits valid values; what they are used for is then a matter of which
form is put in. -/
structure Form where
  /-- What holds of the value of a leaf or a leaf-list. -/
  value : Node → Json → Prop
  /-- Whether entries have all their keys, and no two of a list have the same. -/
  keys : Prop
  /-- Whether a list is an array. Otherwise an object may stand there. -/
  lists : Prop

/-- A valid value of a leaf or a leaf-list. Nodes with children have no values of their own, so the
form of a tree is asked of its values here and of everything else by its constructors. -/
def IsValue : Node → Json → Prop
  | .leaf _ kind, w => isOfKind kind w = true
  | .leafList _ kind, w => ∃ xs, w = .arr xs ∧ ∀ x ∈ xs, isOfKind kind x = true
  | _, _ => False

/-- A value of a leaf that is held as a valid one with the same text, or a valid value of a
leaf-list. A key that a path has given is of this sort and may not be valid: it stands as a number
or a text, whatever its kind is. -/
def ReadsAsValue : Node → Json → Prop
  | .leaf _ kind, w => ∃ c, coerce? kind w = some (some c) ∧ isOfKind kind c = true ∧
      keyString c = keyString w
  | n, w => IsValue n w

namespace Form

/-- The form of a configuration: values are valid, entries have their keys, and lists are arrays. It
is what a committed tree has, and the strongest of these. -/
def valid : Form := ⟨IsValue, True, True⟩

/-- The form of a tree that is read as a configuration with the same keys. Its values need not be in
held form, only be read as valid ones, which is what an edit brings into a configuration. -/
def legible : Form := ⟨ReadsAsValue, True, True⟩

/-- Objects and arrays where the schema has them, whatever the values are. It is enough for finding
one's way in a tree. -/
def shaped : Form := ⟨fun _ _ => True, False, True⟩

/-- The same, but for objects where the schema has lists. An element without keys takes a list for a
container, so an edit that fails later may leave an object there. -/
def loose : Form := ⟨fun _ _ => True, False, False⟩

/-- The same, with values whose own members are in order. Every edit keeps this form, and it is all
that is needed to say what a tree stands for once it has been read. -/
def ordered : Form := ⟨fun _ w => w.Normal, False, False⟩

/-- Valid values are ones of the form. A form that admits them is one that every configuration
has. -/
def Admits (F : Form) : Prop :=
  ∀ n w, ColonFreeAt n → IsValue n w → F.value n w

end Form

/-- Data has a form at a node, as an entry of a list or as the node itself. A node without children
has a value of which the form says what it is; one with children has an object or, if it is a list,
an array of entries. -/
inductive Formed (F : Form) : Node → Bool → Json → Prop
  | value {n : Node} {entry : Bool} {w : Json} (shape : n.children? = none)
      (flat : isFlat w = true) (holds : F.value n w) : Formed F n entry w
  | object {n : Node} {entry : Bool} {children : List (String × Node)} {ms : List (String × Json)}
      (shape : n.children? = some children) (place : F.lists → n.isList = true → entry = true)
      (sorted : Sorted ms)
      (known : ∀ (name : String) (w : Json), get? ms name = some w → (get? children name).isSome)
      (members : ∀ (name : String) (child : Node) (w : Json), get? children name = some child →
        get? ms name = some w → Formed F child false w) : Formed F n entry (.obj ms)
  | list {home : Option String} {keys : List String} {children : List (String × Node)}
      {xs : List Json} (entries : ∀ x ∈ xs, Formed F (.list home keys children) true x)
      (keyed : F.keys → ∀ x ∈ xs, none ∉ keyTuple keys x)
      (distinct : F.keys → (xs.map (keyTuple keys)).Nodup) :
      Formed F (.list home keys children) false (.arr xs)

theorem isFlat_of_isScalar {w : Json} (h : w.isScalar = true) : isFlat w = true := by
  cases w with
  | arr xs => cases h
  | obj ms => cases h
  | _ => rfl

theorem isFlat_of_isValue {n : Node} {w : Json} (h : IsValue n w) : isFlat w = true := by
  cases n with
  | leaf home kind => exact isFlat_of_isScalar (isScalar_of_isOfKind h)
  | leafList home kind =>
    obtain ⟨xs, rfl, hxs⟩ := h
    refine List.all_eq_true.2 fun x hx => ?_
    have hx := isScalar_of_isOfKind (hxs x hx)
    cases x with
    | obj ms => cases hx
    | _ => rfl
  | container home children => cases h
  | list home keys children => cases h

variable {F G : Form} {n child : Node} {entry : Bool} {w c x : Json}
  {name : String} {home : Option String} {keys : List String}
  {children : List (String × Node)} {ms cs : List (String × Json)} {xs ys : List Json}

/-! ### What the cases say -/

/-- Only a node with children has an object. -/
theorem Formed.exists_children (h : Formed F n entry (.obj ms)) :
    ∃ children, n.children? = some children := by
  cases h with
  | value shape flat => cases flat
  | object shape => exact ⟨_, shape⟩

/-- What an object of a form has to be. The flag of an entry only matters where the form asks for
arrays. -/
theorem formed_object_iff (hn : n.children? = some children) :
    Formed F n entry (.obj ms) ↔ (F.lists → n.isList = true → entry = true) ∧ Sorted ms ∧
      (∀ name w, get? ms name = some w → (get? children name).isSome) ∧
      ∀ name child w, get? children name = some child → get? ms name = some w →
        Formed F child false w := by
  constructor
  · intro h
    cases h with
    | value shape flat => cases flat
    | object shape place sorted known members =>
      obtain rfl := Option.some.inj (hn.symm.trans shape)
      exact ⟨place, sorted, known, members⟩
  · rintro ⟨place, sorted, known, members⟩
    exact .object hn place sorted known members

/-- At a node with members there is an object. -/
theorem Formed.eq_obj (hn : n.HasMembers entry children) (h : Formed F n entry w) :
    ∃ ms, w = .obj ms := by
  cases h with
  | value shape => cases hn.1.symm.trans shape
  | object => exact ⟨_, rfl⟩
  | list => exact absurd (hn.2 rfl) Bool.false_ne_true

/-- A list is an array. -/
theorem Formed.eq_arr (h : Formed F n false w) (hF : F.lists) (hlist : n.isList = true) :
    ∃ xs, w = .arr xs := by
  cases h with
  | value shape =>
    obtain ⟨home, keys, children, rfl⟩ := exists_list_of_isList hlist
    cases shape
  | object shape place => exact absurd (place hF hlist) Bool.false_ne_true
  | list => exact ⟨_, rfl⟩

theorem formed_list_iff : Formed F (.list home keys children) false (.arr xs) ↔
    (∀ x ∈ xs, Formed F (.list home keys children) true x) ∧
      (F.keys → (∀ x ∈ xs, none ∉ keyTuple keys x) ∧ (xs.map (keyTuple keys)).Nodup) := by
  constructor
  · intro h
    cases h with
    | value shape => cases shape
    | list entries keyed distinct => exact ⟨entries, fun hk => ⟨keyed hk, distinct hk⟩⟩
  · rintro ⟨entries, hkeys⟩
    exact .list entries (fun hk => (hkeys hk).1) fun hk => (hkeys hk).2

/-- The schema knows what is there. -/
theorem Formed.exists_child (h : Formed F n entry (.obj ms))
    (hw : get? ms (localName name) = some w) :
    ∃ child, n.child? name = some child ∧ Formed F child false w := by
  obtain ⟨children, hn⟩ := h.exists_children
  obtain ⟨-, -, known, members⟩ := (formed_object_iff hn).1 h
  obtain ⟨child, hname⟩ := Option.isSome_iff_exists.1 (known _ _ hw)
  exact ⟨child, Option.bind_eq_some_iff.2 ⟨children, hn, hname⟩, members _ child w hname hw⟩

/-- What is under a name that the schema knows has the form of that child. -/
theorem Formed.member (h : Formed F n entry (.obj ms)) (hchild : n.child? name = some child)
    (hw : get? ms (localName name) = some w) : Formed F child false w := by
  obtain ⟨children, hn, hname⟩ := Option.bind_eq_some_iff.1 hchild
  exact ((formed_object_iff hn).1 h).2.2.2 _ child w hname hw

/-- **What has one form has any that asks for less.** A property of all nodes may be used on the
way, for what is asked of values may depend on it. -/
theorem Formed.imp {A : Node → Prop} (hA : n.Everywhere A)
    (hvalue : ∀ n w, A n → F.value n w → G.value n w) (hkeys : G.keys → F.keys)
    (hlists : G.lists → F.lists) (h : Formed F n entry w) : Formed G n entry w := by
  induction h with
  | value shape flat holds => exact .value shape flat (hvalue _ _ hA.here holds)
  | object shape place sorted known members ih =>
    exact .object shape (fun hG => place (hlists hG)) sorted known fun name child w hchild hw =>
      ih name child w hchild hw (hA.child shape hchild)
  | list entries keyed distinct ih =>
    exact .list (fun x hx => ih x hx hA) (fun hG => keyed (hkeys hG)) fun hG => distinct (hkeys hG)

/-- Valid data has every form that admits valid values. -/
theorem Formed.of_valid (hF : F.Admits) (hfree : n.Everywhere ColonFreeAt)
    (h : Formed .valid n entry w) : Formed F n entry w :=
  Formed.imp (F := .valid) hfree hF (fun _ => trivial) (fun _ => trivial) h

/-! ### Changes of members -/

theorem Formed.empty (hn : n.children? = some children)
    (hplace : F.lists → n.isList = true → entry = true) : Formed F n entry (.obj []) :=
  .object hn hplace Members.sorted_nil (fun _ _ hw => (by cases hw)) fun _ _ _ _ hw => (by cases hw)

/-- A member takes the place of the one of its name, or is added, where its value has the form of
the child. The name may have a module in front; the member stands under what is left of it. -/
theorem Formed.insert (h : Formed F n entry (.obj ms)) (hchild : n.child? name = some child)
    (hw : Formed F child false w) :
    Formed F n entry (.obj (Members.insert ms (localName name) w)) := by
  obtain ⟨children, hn, hname⟩ := Option.bind_eq_some_iff.1 hchild
  obtain ⟨place, sorted, known, members⟩ := (formed_object_iff hn).1 h
  refine .object hn place (Members.sorted_insert _ _ sorted) (fun key v hv => ?_)
    fun key child' v hchild' hv => ?_
  · rw [Members.get?_insert] at hv
    split at hv
    · next heq => exact heq ▸ Option.isSome_of_eq_some hname
    · exact known key v hv
  · -- the member of the name is the new one, and the others are as before
    rw [Members.get?_insert] at hv
    split at hv
    · next heq =>
      obtain rfl := Option.some.inj hv
      obtain rfl := Option.some.inj (hname.symm.trans (heq ▸ hchild'))
      exact hw
    · exact members key child' v hchild' hv

/-- A member is taken out. No member has to be there, so the form is kept; whether an entry still
has its keys is a matter of its list. -/
theorem Formed.erase (h : Formed F n entry (.obj ms)) (name : String) :
    Formed F n entry (.obj (Members.erase ms name)) := by
  obtain ⟨children, hn⟩ := h.exists_children
  obtain ⟨place, sorted, known, members⟩ := (formed_object_iff hn).1 h
  -- what is left has been there before
  have hleft : ∀ {key v}, get? (Members.erase ms name) key = some v → get? ms key = some v := by
    intro key v hv
    rw [Members.get?_erase] at hv
    split at hv
    · cases hv
    · exact hv
  exact .object hn place (Members.sorted_erase _ sorted)
    (fun key v hv => known key v (hleft hv))
    fun key child v hchild hv => members key child v hchild (hleft hv)

/-- Members that are added one after another to members that are there. -/
theorem Formed.insertAll {new : List (String × Json)} (h : Formed F n entry (.obj ms))
    (hnew : Formed F n entry (.obj new)) :
    Formed F n entry (.obj (Members.insertAll ms new)) := by
  obtain ⟨children, hn⟩ := h.exists_children
  obtain ⟨place, sorted, known, members⟩ := (formed_object_iff hn).1 h
  obtain ⟨-, sorted', known', members'⟩ := (formed_object_iff hn).1 hnew
  refine .object hn place (Members.sorted_insertAll new sorted) (fun key v hv => ?_)
    fun key child v hchild hv => ?_
  · rw [Members.get?_insertAll sorted', Option.or_eq_some_iff] at hv
    rcases hv with hv | ⟨-, hv⟩
    · exact known' key v hv
    · exact known key v hv
  · rw [Members.get?_insertAll sorted', Option.or_eq_some_iff] at hv
    rcases hv with hv | ⟨-, hv⟩
    · exact members' key child v hchild hv
    · exact members key child v hchild hv

/-! ### Changes of entries -/

/-- An entry takes the place of one with the same keys. So the keys of the list stay different
without being compared again. -/
theorem Formed.set {i : Nat} (h : Formed F (.list home keys children) false (.arr xs))
    (hx : xs[i]? = some x) (hw : Formed F (.list home keys children) true w)
    (htuple : F.keys → keyTuple keys w = keyTuple keys x) :
    Formed F (.list home keys children) false (.arr (xs.set i w)) := by
  cases h with
  | value shape => cases shape
  | list entries keyed distinct =>
    refine .list (fun y hy => ?_) (fun hk y hy => ?_) fun hk => ?_
    · rcases List.mem_or_eq_of_mem_set hy with hy | rfl
      · exact entries y hy
      · exact hw
    · rcases List.mem_or_eq_of_mem_set hy with hy | rfl
      · exact keyed hk y hy
      · exact htuple hk ▸ keyed hk x (List.mem_of_getElem? hx)
    · -- with the same keys the entries are as different as before
      rw [map_set_of_eq hx (htuple hk)]
      exact distinct hk

/-- An entry is added whose keys no other one has. Where the form does not ask for keys, nothing has
to be known of them. -/
theorem Formed.concat (h : Formed F (.list home keys children) false (.arr xs))
    (hw : Formed F (.list home keys children) true w) (hkeys : F.keys → none ∉ keyTuple keys w)
    (hnew : F.keys → keyTuple keys w ∉ xs.map (keyTuple keys)) :
    Formed F (.list home keys children) false (.arr (xs ++ [w])) := by
  cases h with
  | value shape => cases shape
  | list entries keyed distinct =>
    refine .list (fun y hy => ?_) (fun hk y hy => ?_) fun hk => ?_
    · rcases List.mem_append.1 hy with hy | hy
      · exact entries y hy
      · exact List.mem_singleton.1 hy ▸ hw
    · rcases List.mem_append.1 hy with hy | hy
      · exact keyed hk y hy
      · exact List.mem_singleton.1 hy ▸ hkeys hk
    · -- the new keys are none of those that there are
      rw [List.map_append, List.map_singleton]
      exact List.nodup_append.2 ⟨distinct hk, List.pairwise_singleton _ _, fun a ha b hb heq =>
        hnew hk (List.mem_singleton.1 hb ▸ heq ▸ ha)⟩

/-- One entry is taken out, and the others are left in any order, as they are when the last one
takes its place. -/
theorem Formed.remove (h : Formed F (.list home keys children) false (.arr xs))
    (hperm : (x :: ys).Perm xs) : Formed F (.list home keys children) false (.arr ys) := by
  cases h with
  | value shape => cases shape
  | list entries keyed distinct =>
    have hmem : ∀ y ∈ ys, y ∈ xs := fun y hy => hperm.subset (List.mem_cons_of_mem x hy)
    refine .list (fun y hy => entries y (hmem y hy)) (fun hk y hy => keyed hk y (hmem y hy))
      fun hk => ?_
    exact (List.nodup_cons.1 ((hperm.map (keyTuple keys)).nodup_iff.2 (distinct hk))).2

/-- **Valid data has the form of a configuration**, whatever the names of the schema are. -/
theorem Valid.formed (h : Valid n entry w) : Formed .valid n entry w := by
  induction h with
  | @leaf home kind _ _ fits =>
    have hvalue : IsValue (.leaf home kind) _ := fits
    exact .value rfl (isFlat_of_isValue hvalue) hvalue
  | @leafList home kind _ cs fits =>
    have hvalue : IsValue (.leafList home kind) (.arr cs) := ⟨cs, rfl, fits⟩
    exact .value rfl (isFlat_of_isValue hvalue) hvalue
  | object shape sorted known members ih =>
    exact .object shape.1 (fun _ => shape.2) sorted known ih
  | list entries keyed distinct ih => exact .list ih (fun _ => keyed) fun _ => distinct

/-! ### Data that stands for itself -/

/-- **The document that data stands for has the form that is asked for.** -/
theorem formed_of_stands (h : Stands n entry w c) : Formed .valid n entry c := by
  -- on how the data stands for the document, of which the right side is what is checked
  induction h with
  | @leaf home kind _ _ _ held fits =>
    have hvalue : IsValue (.leaf home kind) _ := fits
    exact .value rfl (isFlat_of_isValue hvalue) hvalue
  | @leafList home kind _ _ cs held fits =>
    have hvalue : IsValue (.leafList home kind) (.arr cs) := ⟨cs, rfl, fits⟩
    exact .value rfl (isFlat_of_isValue hvalue) hvalue
  | object shape sorted sorted' names known members ih =>
    refine .object shape.1 (fun _ => shape.2) sorted' (fun name c hc => ?_)
      fun name child c hchild hc => ?_
    · obtain ⟨w, hw⟩ := names.symm.exists_right hc
      exact known name w hw
    · obtain ⟨w, hw⟩ := names.symm.exists_right hc
      exact ih name child w c hchild hw hc
  | list length entries keyed distinct ih =>
    refine .list (fun c hc => ?_) (fun _ => keyed) fun _ => distinct
    obtain ⟨i, hi⟩ := List.getElem?_of_mem hc
    obtain ⟨w, hw⟩ := exists_getElem?_of_length length.symm hi
    exact ih i w c hw hi

/-- **Data of this form with valid values stands for itself.** The converse of the above: the form
`valid` and standing for oneself are the same. -/
theorem Formed.stands_self (hfree : n.Everywhere ColonFreeAt)
    (h : Formed .valid n entry w) : Stands n entry w w := by
  -- on the form of the data: what has been checked is read as itself
  induction h with
  | @value n entry w shape flat holds =>
    cases n with
    | leaf home kind => exact .leaf (coerce?_of_isOfKind (hfree.here.2 _ rfl) holds) holds
    | leafList home kind =>
      obtain ⟨xs, rfl, hxs⟩ := holds
      exact .leafList (forall₂_coerce?_of_isOfKind (hfree.here.2 _ rfl) hxs) hxs
    | container home children => cases shape
    | list home keys children => cases shape
  | object shape place sorted known members ih =>
    refine .object ⟨shape, place trivial⟩ sorted sorted (fun _ => rfl) known ?_
    intro name child w w' hchild hw hw'
    obtain rfl := Option.some.inj (hw.symm.trans hw')
    exact ih name child w hchild hw (hfree.child shape hchild)
  | list entries keyed distinct ih =>
    refine .list rfl (fun i w w' hw hw' => ?_) (keyed trivial) (distinct trivial)
    obtain rfl := Option.some.inj (hw.symm.trans hw')
    exact ih w (List.mem_of_getElem? hw) hfree

/-- A valid value is held as itself. -/
theorem readsAsValue_of_isValue (hfree : ColonFreeAt n) (h : IsValue n w) : ReadsAsValue n w := by
  cases n with
  | leaf home kind => exact ⟨w, coerce?_of_isOfKind (hfree.2 _ rfl) h, h, rfl⟩
  | leafList home kind => exact h
  | container home children => cases h
  | list home keys children => cases h

/-- A value that is held as a valid one stands for that one. -/
theorem exists_stands_of_readsAsValue (hfree : n.Everywhere ColonFreeAt)
    (hn : n.children? = none) (hflat : isFlat w = true) (h : ReadsAsValue n w) :
    ∃ c, Stands n entry w c ∧ Alike n w c := by
  cases n with
  | leaf home kind =>
    -- the text of a leaf may be spelled in another way than the value that it is read as
    obtain ⟨c, hheld, hfits, htext⟩ := h
    have hc := coerce?_of_isOfKind (hfree.here.2 _ rfl) hfits
    refine ⟨c, .leaf hheld hfits, .leaf (isScalar_of_coerce? hheld) (isScalar_of_coerce? hc)
      htext.symm (hheld.trans hc.symm) fun c' hc' => ?_⟩
    rw [← Option.some.inj (Option.some.inj (hheld.symm.trans hc')), htext]
  | leafList home kind =>
    have hvalue : Formed .valid (.leafList home kind) entry w := .value rfl hflat h
    have hself := hvalue.stands_self hfree
    exact ⟨w, hself, .of_stands hfree hself⟩
  | container home children => cases hn
  | list home keys children => cases hn

/-- An object stands for one whose members its own stand for. It is put together from the documents
of the members, which have the names and the order of the members themselves. -/
theorem exists_stands_object (hn : n.HasMembers entry children) (hsorted : Sorted ms)
    (h : ∀ m ∈ ms, ∃ child c, get? children m.1 = some child ∧ Stands child false m.2 c ∧
      Alike child m.2 c) : ∃ c, Stands n entry (.obj ms) c ∧ Alike n (.obj ms) c := by
  -- the members of the document, one for each member of the data
  obtain ⟨cs, hcs⟩ : ∃ cs, List.Forall₂ (fun m c : String × Json => m.1 = c.1 ∧ ∃ child,
      get? children m.1 = some child ∧ Stands child false m.2 c.2 ∧ Alike child m.2 c.2)
      ms cs := by
    refine exists_forall₂ fun m hm => ?_
    obtain ⟨child, c, hchild, hc⟩ := h m hm
    exact ⟨(m.1, c), rfl, child, hchild, hc⟩
  have hstep :
      InStep (fun child w c => Stands child false w c ∧ Alike child w c) children ms cs :=
    Members.inStep_iff_forall₂.2 ⟨hsorted, hcs⟩
  refine ⟨.obj cs, ?_, ?_⟩
  · exact .object hn hsorted hstep.sorted' hstep.names hstep.known
      fun name child w c hchild hw hc => (hstep.members name child w c hchild hw hc).1
  · exact .object hn.1 hsorted hstep.sorted' hstep.names hstep.known
      fun name child w c hchild hw hc => (hstep.members name child w c hchild hw hc).2

/-- A list stands for one whose entries its own stand for. The texts of the keys are the same, so
they tell those entries apart too. -/
theorem exists_stands_list (hkeyed : (Node.list home keys children).KeyedAt)
    (hkeys : ∀ x ∈ xs, none ∉ keyTuple keys x) (hdistinct : (xs.map (keyTuple keys)).Nodup)
    (h : ∀ x ∈ xs, ∃ c, Stands (.list home keys children) true x c ∧
      Alike (.list home keys children) x c) :
    ∃ c, Stands (.list home keys children) false (.arr xs) c ∧
      Alike (.list home keys children) (.arr xs) c := by
  obtain ⟨cs, hcs⟩ := exists_forall₂ h
  -- keys are told by their texts, which the entries have in common with what they stand for
  have htuples : List.Forall₂ (fun x c => keyTuple keys x = keyTuple keys c) xs cs := by
    refine hcs.imp fun x c ⟨hstands, halike⟩ => ?_
    obtain ⟨ms, vs, rfl, rfl⟩ := hstands.eq_obj .list
    exact halike.keyTuple hkeyed
  refine ⟨.arr cs, stands_list_iff.2 ⟨hcs.imp fun _ _ h => h.1, fun c hc => ?_, ?_⟩,
    alike_list_iff.2 (hcs.imp fun _ _ h => h.2)⟩
  · obtain ⟨x, hx, htuple⟩ := exists_mem_of_forall₂ htuples hc
    exact htuple ▸ hkeys x hx
  · have heq : xs.map (keyTuple keys) = cs.map (keyTuple keys) := by
      rw [← List.forall₂_eq_eq_eq, List.forall₂_map_left_iff, List.forall₂_map_right_iff]
      exact htuples
    exact heq ▸ hdistinct

/-- **Data of this form with values that are held as valid ones stands for some document.** So a
commit of the working copy succeeds. Keys are leaves, which is where it is needed that what is held
has the same text: entries that differ still do. -/
theorem Formed.exists_stands (hkeyed : n.Everywhere KeyedAt) (hfree : n.Everywhere ColonFreeAt)
    (h : Formed .legible n entry w) : ∃ c, Stands n entry w c ∧ Alike n w c := by
  -- on the form of the data, which says at each node how it is read
  induction h with
  | value shape flat holds => exact exists_stands_of_readsAsValue hfree shape flat holds
  | object shape place sorted known members ih =>
    refine exists_stands_object ⟨shape, place trivial⟩ sorted fun m hm => ?_
    have hw := Members.get?_of_mem sorted hm
    obtain ⟨child, hchild⟩ := Option.isSome_iff_exists.1 (known _ _ hw)
    obtain ⟨c, hc⟩ := ih m.1 child m.2 hchild hw (hkeyed.child shape hchild)
      (hfree.child shape hchild)
    exact ⟨child, c, hchild, hc⟩
  | list entries keyed distinct ih =>
    exact exists_stands_list hkeyed.here (keyed trivial) (distinct trivial)
      fun x hx => ih x hx hkeyed hfree

/-! ### Data that is read again -/

/-- Data of this form has its members in order. -/
theorem Formed.tidy (h : Formed .ordered n entry w) : Tidy n w := by
  induction h with
  | value shape flat holds => exact .value shape holds
  | object shape place sorted known members ih => exact .object shape sorted known ih
  | list entries keyed distinct ih => exact .list ih

/-- **Data that is read again and has a held form then has lists where the schema has them.** What
numbers are read as does not matter, since only the shape is said. -/
theorem Formed.shaped {r : Json.Reader} {path : String} {j : Json}
    (hfree : n.Everywhere ColonFreeAt) (h : Formed .loose n entry w) (hread : w.ReadAs r j)
    (hheld : n.conform path entry j = .ok c) : Formed .shaped n entry w := by
  induction h generalizing path j c with
  | value shape flat => exact .value shape flat trivial
  | @object n entry children ms shape place sorted known members ih =>
    obtain ⟨ks, rfl, hks⟩ := hread.obj sorted
    -- an object has no held form where a list should be
    have hplace : n.isList = true → entry = true := by
      intro hlist
      obtain ⟨home, keys, children, rfl⟩ := exists_list_of_isList hlist
      cases entry with
      | true => rfl
      | false =>
        obtain ⟨_, _, heq, -⟩ := conform_list_iff.1 hheld
        cases heq
    refine .object shape (fun _ => hplace) sorted known fun name child w hchild hw => ?_
    obtain ⟨_, out, heq, hout, -⟩ := (conform_object_iff ⟨shape, hplace⟩).1 hheld
    obtain rfl := Json.obj.inj heq
    obtain ⟨k, hk, hname, hread⟩ := exists_mem_right_of_forall₂ hks (Members.mem_of_get? hw)
    obtain ⟨o, -, ho, -, child', hchild', hheld'⟩ := exists_mem_right_of_forall₂ hout hk
    -- the name is one of the schema's, which has no module in front
    dsimp only at hname
    rw [ho, ← hname, hfree.here.localName shape hchild] at hchild'
    obtain rfl := Option.some.inj (hchild.symm.trans hchild')
    exact ih name child w hchild hw (hfree.child shape hchild) hread hheld'
  | list entries keyed distinct ih =>
    obtain ⟨js, rfl, hjs⟩ := hread.arr
    obtain ⟨_, cs, heq, hcs, -⟩ := conform_list_iff.1 hheld
    obtain rfl := Json.arr.inj heq
    refine .list (fun x hx => ?_) (fun hkeys => hkeys.elim) fun hkeys => hkeys.elim
    obtain ⟨j, hj, hread⟩ := exists_mem_right_of_forall₂ hjs hx
    obtain ⟨c, -, hheld⟩ := exists_mem_right_of_forall₂ hcs hj
    exact ih x hx hfree hread hheld

end ConfigTree.Schema.Node
