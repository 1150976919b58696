import ConfigTree.Proofs.Tree.Frame
import ConfigTree.Proofs.Tree.Step

/-!
# What a write adds on its way

A write adds what its path needs: an entry with the keys of its element, or an empty container. So
that the tree keeps its form, the keys have to have it, and where entries are told apart by keys the
element has to have them all. Without keys a container is added also where the schema has a list,
which is why the tree may be `loose` then.

* `Fits`: a path whose keys have the form of a tree.
* `adds_of_fits`: what is added along such a path has the form.
* `modifyAt_create`: a write comes to the end of its path, or to a list that it names without keys.
-/

namespace ConfigTree

open ConfigTree.Path (Elem)
open Members (get? Sorted)
open Schema (Node)
open Schema.Node (Form Formed)

/-- The key that a new entry gets from a text has a form. -/
def Schema.Node.Form.KeyText (F : Form) (text : String) (kind : ScalarKind) : Prop :=
  ∀ home, F.value (.leaf home kind) (keyValue text (some kind))

namespace Tree

variable {F : Form} {n below list child : Node} {entry : Bool} {e last : Elem}
  {elems parent : List Elem} {ms ms' : Object} {w : Json} {home : Option String}
  {found : Node × Option String} {children : List (String × Node)}

/-- Something stands below a node that a path goes on from. -/
theorem exists_children_of_walk? (h : n.walk? home elems = some found) (hne : elems ≠ []) :
    ∃ children, n.children? = some children := by
  obtain ⟨e, rest, rfl⟩ := List.exists_cons_of_ne_nil hne
  obtain ⟨child, hchild, -⟩ := Node.walk?_cons h
  obtain ⟨children, hn, -⟩ := get?_of_child? hchild
  exact ⟨children, hn⟩

/-! ### What is added for an element -/

/-- A new entry has the form of one, if its keys have theirs. It has no other members, so nothing
has to be known of them. -/
theorem formed_newEntry (hkeyed : list.KeyedAt) (hfree : Schema.ColonFreeAt list)
    (howns : list.OwnsKeys e) (he : e.isKeyed = true)
    (htexts : ∀ key ∈ e.keys, ∀ leaf kind, list.child? key.1 = some leaf →
      leaf.scalar? = some kind → F.KeyText key.2 kind) :
    Formed F list true (newEntry list e) := by
  obtain ⟨home, keys, children, rfl⟩ := exists_list_of_ownsKeys howns he
  -- each member is a key that the element gives, and keys are leaves
  have hkey : ∀ {name w}, get? (keyMembers (.list home keys children) e) name = some w →
      ∃ home kind, get? children name = some (.leaf home kind) ∧
        Formed F (.leaf home kind) false w := by
    intro name w hw
    rw [get?_keyMembers] at hw
    obtain ⟨text, htext, rfl⟩ := Option.map_eq_some_iff.1 hw
    have hmem := Members.mem_of_get? htext
    obtain ⟨-, -, home', kind, hleaf, hchild⟩ := exists_leaf_of_ownsKeys hkeyed hfree howns hmem
    refine ⟨home', kind, hleaf, ?_⟩
    rw [hchild]
    exact .value rfl (Schema.Node.isFlat_of_isScalar (isScalar_keyValue _ _))
      (htexts _ hmem _ kind hchild rfl home')
  refine .object rfl (fun _ _ => rfl) (sorted_keyMembers _ e) (fun name w hw => ?_)
    fun name child w hchild hw => ?_
  · obtain ⟨home', kind, hleaf, -⟩ := hkey hw
    exact Option.isSome_of_eq_some hleaf
  · obtain ⟨home', kind, hleaf, hformed⟩ := hkey hw
    exact Option.some.inj (hleaf.symm.trans hchild) ▸ hformed

/-- What is added for an element has the form of the node that it names. -/
theorem formed_fresh (hkeyed : below.KeyedAt) (hfree : Schema.ColonFreeAt below)
    (howns : below.OwnsKeys e) (hbelow : below.children? = some children)
    (hplace : F.lists → below.isList = true → e.isKeyed = true)
    (htexts : ∀ key ∈ e.keys, ∀ leaf kind, below.child? key.1 = some leaf →
      leaf.scalar? = some kind → F.KeyText key.2 kind) :
    Formed F below e.isKeyed (fresh below e) := by
  unfold fresh
  split
  · next he => exact he ▸ formed_newEntry hkeyed hfree howns he htexts
  · exact .empty hbelow hplace

/-! ### Paths that fit -/

/-- A path that a write may take in trees of a form. The keys that it gives have the form. Where
entries are told apart by keys, it has all keys of the lists that it goes through, with texts in
stored form, and it does not end in a key, whose new text could be that of another entry. -/
structure Fits (F : Form) (n : Node) (elems : List Elem) : Prop where
  texts : EachKey F.KeyText n elems
  selects : F.keys → SelectsEntries n elems
  stored : F.keys → StoredKeys n elems
  noKey : F.keys → ¬ EndsInKey n elems

/-- Where entries are not told apart by keys, any path will do whose keys have the form. -/
theorem fits_of_not_keys (hF : ¬ F.keys) (htexts : ∀ text kind, F.KeyText text kind) (n : Node)
    (elems : List Elem) : Fits F n elems :=
  ⟨eachKey_of_forall htexts n elems, fun hkeys => (hF hkeys).elim, fun hkeys => (hF hkeys).elim,
    fun hkeys => (hF hkeys).elim⟩

theorem Fits.tail (h : Fits F n (e :: elems)) (hchild : n.child? e.name = some child) :
    Fits F child elems where
  texts := (h.texts child hchild).2
  selects hF := (h.selects hF child hchild).2
  stored hF := (h.stored hF child hchild).2
  noKey hF hends := h.noKey hF (hends.cons hchild)

theorem Fits.of_append {rest : List Elem} (h : Fits F n (elems ++ rest))
    (hbelow : n.below? elems = some below) : Fits F below rest := by
  induction elems generalizing n with
  | nil => exact Option.some.inj hbelow ▸ h
  | cons e elems ih =>
    obtain ⟨child, hchild, hbelow⟩ := Option.bind_eq_some_iff.1 hbelow
    exact ih (h.tail hchild) hbelow

/-- An element that is not the last one has all keys of its list. -/
theorem Fits.full (h : Fits F n (e :: elems)) (hne : elems ≠ []) (hF : F.keys)
    (hchild : n.child? e.name = some child) : Full child e :=
  (h.selects hF child hchild).1.resolve_left fun hlast => hne hlast.1

theorem Fits.keysFit (h : Fits F n (e :: elems)) (hkeyed : child.KeyedAt)
    (hfree : Schema.ColonFreeAt child) (hF : F.keys) (hchild : n.child? e.name = some child)
    (howns : child.OwnsKeys e) (he : e.isKeyed = true) : KeysFit child e :=
  keysFit_of_ownsKeys hkeyed hfree howns he (h.stored hF child hchild).1

/-- **What is added along a path that fits has the form of the tree.** The induction is on the path;
at each of its elements but the last one a container or an entry may be added. -/
theorem adds_of_fits (hkeyed : n.Everywhere Node.KeyedAt)
    (hfree : n.Everywhere Schema.ColonFreeAt) (hlists : F.lists → F.keys)
    (hwalk : n.walk? home (parent ++ [last]) = some found)
    (hfits : Fits F n (parent ++ [last])) : Adds F n parent := by
  induction parent generalizing n home with
  | nil => trivial
  | cons e parent ih =>
    intro below hschema
    obtain ⟨c, hchild, howns, hrest⟩ := Node.walk?_cons hwalk
    obtain rfl := Option.some.inj ((child?_of_childSchema hschema).symm.trans hchild)
    obtain ⟨children, hn, hname⟩ := get?_of_child? hchild
    have hkeyed' := hkeyed.child hn hname
    have hfree' := hfree.child hn hname
    have hne : parent ++ [last] ≠ [] := List.append_ne_nil_of_right_ne_nil _ (List.cons_ne_nil _ _)
    -- the path goes on, so the node has children
    obtain ⟨cs, hcs⟩ := exists_children_of_walk? hrest hne
    refine ⟨⟨?_, fun hF => ⟨howns, ?_, fun _ => hfits.full hne hF hchild⟩⟩,
      ih hkeyed' hfree' hrest (hfits.tail hchild)⟩
    · exact formed_fresh hkeyed'.here hfree'.here howns hcs
        (fun hF => (hasMembers_of_full hkeyed'.here hcs (hfits.full hne (hlists hF) hchild)).2)
        (hfits.texts below hchild).1
    · exact selectedBy_fresh (hfits.keysFit hkeyed'.here hfree'.here hF hchild howns)

/-! ### Where a write comes to -/

/-- At a node with children there are objects and arrays. -/
theorem eq_obj_or_arr (h : Formed F n entry w) (hn : n.children? = some children) :
    (∃ ms, w = .obj ms) ∨ ∃ xs, w = .arr xs := by
  cases h with
  | value shape => cases hn.symm.trans shape
  | object => exact .inl ⟨_, rfl⟩
  | list => exact .inr ⟨_, rfl⟩

/-- What is added for an element is an object, which stands for an entry at least. -/
theorem exists_formed_fresh (hkeyed : below.KeyedAt) (hfree : Schema.ColonFreeAt below)
    (howns : below.OwnsKeys e) (hbelow : below.children? = some children) :
    ∃ inner, fresh below e = .obj inner ∧ Formed .shaped below true (.obj inner) := by
  unfold fresh
  split
  · next he =>
    exact ⟨_, rfl, formed_newEntry hkeyed hfree howns he fun _ _ _ _ _ _ _ => trivial⟩
  · exact ⟨[], rfl, .empty hbelow fun _ _ => rfl⟩

/-- An element with keys selects an entry, or one is added. -/
theorem exists_entry (h : Formed F n entry (.obj ms)) (hF : F.lists)
    (hschema : childSchema n e = .ok list) (he : e.isKeyed = true) :
    ∃ c old, findOrCreate ms list e true = .ok (some c) ∧ c.value = .obj old := by
  obtain ⟨c, hstep⟩ := descend_create hschema (NamesList.of_formed h hF hschema)
  refine ⟨c, ?_⟩
  rw [← descend_keyed_iff hschema he]
  rcases (descend_cases hstep).2.value with hfound | ⟨-, hfresh⟩
  · obtain ⟨home, keys, children, rfl⟩ := exists_list_of_childSchema hschema he
    obtain ⟨old, hold⟩ := (he ▸ formed_found h hschema hfound).eq_obj .list
    exact ⟨old, hstep, hold⟩
  · exact ⟨_, hstep, by rw [hfresh, fresh, if_pos he]; rfl⟩

/-- **A write comes to the end of its path**, where it makes its change, or to a list that the path
names without keys and goes on from. There it finds an array where it looks for members, and fails.
A list that is missing is not told from a container, and the write goes on in an object in its
place. -/
theorem modifyAt_create {β : Type} {g : Object → Node → β × Object}
    (hkeyed : n.Everywhere Node.KeyedAt) (hfree : n.Everywhere Schema.ColonFreeAt)
    (h : Formed .shaped n entry (.obj ms))
    (hwalk : n.walk? home (parent ++ [last]) = some found) :
    (∃ e xs, modifyAt true g parent ms n = .error (.notObject e (.arr xs))) ∨
      ∃ ms' inner m entry, modifyAt true g parent ms n = .ok ((g inner m).1, ms') ∧
        n.below? parent = some m ∧ Formed .shaped m entry (.obj inner) := by
  induction parent generalizing n entry ms home with
  | nil => exact .inr ⟨_, ms, n, entry, rfl, rfl, h⟩
  | cons e parent ih =>
    obtain ⟨below, hchild, howns, hrest⟩ := Node.walk?_cons hwalk
    have hschema := childSchema_of_ownsKeys hchild howns
    obtain ⟨children, hn, hname⟩ := get?_of_child? hchild
    have hkeyed' := hkeyed.child hn hname
    have hfree' := hfree.child hn hname
    obtain ⟨cs, hcs⟩ := exists_children_of_walk? hrest
      (List.append_ne_nil_of_right_ne_nil _ (List.cons_ne_nil _ _))
    obtain ⟨c, hstep⟩ := descend_create hschema (NamesList.of_formed h trivial hschema)
    -- what is found is an object or an array, and what is added is an object
    have hvalue : (∃ inner entry, c.value = .obj inner ∧ Formed .shaped below entry (.obj inner)) ∨
        ∃ xs, c.value = .arr xs := by
      rcases (descend_cases hstep).2.value with hfound | ⟨-, hfresh⟩
      · have hformed := formed_found h hschema hfound
        rcases eq_obj_or_arr hformed hcs with ⟨inner, hinner⟩ | harr
        · exact .inl ⟨inner, _, hinner, hinner ▸ hformed⟩
        · exact .inr harr
      · obtain ⟨inner, hinner, hformed⟩ := exists_formed_fresh hkeyed'.here hfree'.here howns hcs
        exact .inl ⟨inner, true, hfresh.trans hinner, hformed⟩
    rw [modifyAt, hstep]
    -- an array stops the write, in an object it goes on
    rcases hvalue with ⟨inner, entry', hinner, hformed⟩ | ⟨xs, harr⟩
    · simp only [hinner]
      rcases ih hkeyed' hfree' hformed hrest with
        ⟨f, xs, hblocked⟩ | ⟨ms', last', m, b, hmodify, hm, hlast⟩
      · exact .inl ⟨f, xs, by rw [hblocked]; rfl⟩
      · refine .inr ⟨_, last', m, b, by rw [hmodify]; rfl, ?_, hlast⟩
        rw [Node.below?_cons hchild, hm]
    · simp only [harr]
      exact .inl ⟨e, xs, rfl⟩

end Tree

end ConfigTree
