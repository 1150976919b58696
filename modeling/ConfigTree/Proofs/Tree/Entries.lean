import ConfigTree.Proofs.Tree.Along

/-!
# Taking a list apart

An entry that is cut off leaves its list with the others, and the last one takes the list with it,
and with the list the containers above that are empty then. In both cases cutting off the list comes
to the same after the entry has gone as it did before. This is what stays the same while entries are
taken out one by one, in whatever order.

* `dropFound_eq_putFound`: inside one node, taking out an entry is a change of the list.
* `along_cut_last_entry`: cutting off the last entry is cutting off the list.
* `along_cut_entry`: an entry that is not the last one is cut off, and the list is still there.
-/

namespace ConfigTree.Tree

open ConfigTree.Path (Elem)
open Members (get? Sorted)
open Schema (Node)
open Schema.Node (Form Formed)

variable {F : Form} {n list : Node} {entry : Bool} {e f last : Elem} {ms : Object} {xs : List Json}
  {x : Json} {above : List Elem} {home : Option String} {found : Node × Option String}

/-! ### Inside one node -/

/-- An element with keys selects an entry of what another one, without keys, names as a whole. The
two may write the name with different modules, or with none. -/
structure EntryOf (f last : Elem) : Prop where
  name : localName f.name = localName last.name
  keyed : f.isKeyed = true
  plain : last.isKeyed = false

theorem EntryOf.child? (h : EntryOf f last) : n.child? f.name = n.child? last.name := by
  rw [Node.child?, Node.child?, h.name]

theorem EntryOf.entriesOf (h : EntryOf f last) (hlist : found? ms last = some (.arr xs)) :
    entriesOf ms (localName f.name) = xs := by
  rw [found?_of_not_isKeyed h.plain] at hlist
  rw [h.name, entriesOf_of_get? hlist]

/-- **Taking out an entry is a change of the list**, which goes if it has no other entries. -/
theorem dropFound_eq_putFound (h : EntryOf f last) (hlist : found? ms last = some (.arr xs)) :
    dropFound f ms = putFound last (listOf (dropEntry f.keys xs)) ms := by
  rw [dropFound, h.entriesOf hlist, h.keyed, Bool.true_and, h.name, listOf]
  cases hleft : dropEntry f.keys xs with
  | nil => exact ((putFound_none_of_found hlist).trans (dropFound_of_not_isKeyed h.plain)).symm
  | cons y ys => exact (setFound_of_not_isKeyed h.plain).symm

/-- What is cut off at the end of a path inside the node where it ends. -/
theorem along_cut_singleton (hchild : n.child? e.name = some list) :
    Change.cut.along [e] n ms = putFound e none ms := by
  rw [Change.along_cons hchild]
  rfl

/-- Cutting off an entry inside the node that has the list. -/
theorem along_cut_entry_singleton (h : EntryOf f last) (hchild : n.child? last.name = some list)
    (hlist : found? ms last = some (.arr xs)) (hx : xs.find? (isEntryWith f.keys) = some x) :
    Change.cut.along [f] n ms = putFound last (listOf (dropEntry f.keys xs)) ms := by
  have hfound : found? ms f = some x := by
    rw [found?_of_isKeyed h.keyed, h.entriesOf hlist, hx]
  rw [along_cut_singleton (h.child?.trans hchild), putFound_none_of_found hfound,
    dropFound_eq_putFound h hlist]

/-! ### Along a path -/

/-- What the first element of a path selects, if a list is found at the end of the path. -/
theorem exists_inner_of_list
    (hlookup : lookup (e :: above ++ [last]) (.obj ms) n = .ok (some (.arr xs, list))) :
    ∃ child inner, childSchema n e = .ok child ∧ found? ms e = some (.obj inner) ∧ inner ≠ [] ∧
      lookup (above ++ [last]) (.obj inner) child = .ok (some (.arr xs, list)) := by
  obtain ⟨v, child, hschema, hfound, hrest⟩ := exists_found_of_lookup hlookup
  obtain ⟨inner, rfl, hne⟩ := exists_inner_of_lookup
    (List.append_ne_nil_of_right_ne_nil above (List.cons_ne_nil last [])) hrest
  exact ⟨child, inner, hschema, hfound, hne, hrest⟩

/-- **Cutting off the last entry of a list is cutting off the list.** No list is left empty, so
nothing on the way up can tell the two apart. -/
theorem along_cut_last_entry (h : EntryOf f last)
    (hlookup : lookup (above ++ [last]) (.obj ms) n = .ok (some (.arr xs, list)))
    (hx : xs.find? (isEntryWith f.keys) = some x) (hleft : dropEntry f.keys xs = []) :
    Change.cut.along (above ++ [f]) n ms = Change.cut.along (above ++ [last]) n ms := by
  -- the two cuts meet at the list: removing its last entry and removing the list leave the same
  -- there, and everything above follows from that
  induction above generalizing n ms with
  | nil =>
    obtain ⟨v, child, hschema, hlist, hv⟩ := exists_found_of_lookup hlookup
    obtain ⟨rfl, rfl⟩ := Prod.mk.inj (Option.some.inj (Except.ok.inj hv))
    have hchild := child?_of_childSchema hschema
    rw [List.nil_append, List.nil_append, along_cut_entry_singleton h hchild hlist hx, hleft,
      along_cut_singleton hchild]
    rfl
  | cons e above ih =>
    obtain ⟨child, inner, hschema, hfound, -, hrest⟩ := exists_inner_of_list hlookup
    have hchild := child?_of_childSchema hschema
    rw [Change.along_cons_concat _ _ _ hchild, Change.along_cons_concat _ _ _ hchild, alterFound,
      alterFound, hfound, Change.through_cut_some, Change.through_cut_some, ih hrest]

/-- Changes inside a container or an entry of which the first leaves something there, and does not
matter to the second. Then it does not matter to what the second makes of the container either: what
is empty in the end is the same. -/
theorem alterFound_through_cut_cut {A B : Object → Object} {fresh inner : Object} (hs : Sorted ms)
    (hfound : found? ms e = some (.obj inner)) (hinner : inner ≠ []) (hleft : B inner ≠ [])
    (hselected : SelectedBy e (.obj (B inner))) (hsame : A (B inner) = A inner) :
    alterFound e (Change.cut.through e.keys fresh A)
        (setFound e (.obj (B inner)) ms)
      = alterFound e (Change.cut.through e.keys fresh A) ms := by
  have hthrough : Change.cut.through e.keys fresh A (some (.obj (B inner)))
      = Change.cut.through e.keys fresh A (some (.obj inner)) := by
    rw [Change.through_cut_some, Change.through_cut_some, hsame,
      List.isEmpty_eq_false_iff.2 hinner, List.isEmpty_eq_false_iff.2 hleft]
  rw [alterFound, found?_setFound hselected, alterFound, hfound, hthrough]
  -- the last change of what the element selects counts
  refine putFound_putFound (u := some (.obj (B inner))) hs (fun v hv => ?_) fun he => ⟨fun hu => ?_,
    fun ho => ?_⟩
  · exact Option.some.inj hv ▸ hselected
  · cases hu
  · have hkeys : e.keys.isEmpty = false := by simpa [Elem.isKeyed] using he
    cases Change.through_eq_none hkeys ho

/-- **An entry that is not the last one is cut off.** The list is left with the other entries, and
cutting off the list then comes to what it would have come to before. This is the step of an
induction over the entries that are cut off. -/
theorem along_cut_entry (hkeyed : n.Everywhere Node.KeyedAt) (hformed : Formed F n entry (.obj ms))
    (h : EntryOf f last) (hpath : n.walk? home (above ++ [f]) = some found)
    (hkey : ¬ EndsInKey n (above ++ [f]))
    (hlookup : lookup (above ++ [last]) (.obj ms) n = .ok (some (.arr xs, list)))
    (hx : xs.find? (isEntryWith f.keys) = some x) (hleft : dropEntry f.keys xs ≠ []) :
    lookup (above ++ [last]) (.obj (Change.cut.along (above ++ [f]) n ms)) n
        = .ok (some (.arr (dropEntry f.keys xs), list)) ∧
      Change.cut.along (above ++ [last]) n (Change.cut.along (above ++ [f]) n ms)
        = Change.cut.along (above ++ [last]) n ms := by
  induction above generalizing n entry ms home with
  | nil =>
    obtain ⟨v, child, hschema, hlist, hv⟩ := exists_found_of_lookup hlookup
    obtain ⟨rfl, rfl⟩ := Prod.mk.inj (Option.some.inj (Except.ok.inj hv))
    have hchild := child?_of_childSchema hschema
    obtain ⟨children, hn, -⟩ := get?_of_child? hchild
    have hsorted := ((Schema.Node.formed_object_iff hn).1 hformed).2.1
    have hlistOf : listOf (dropEntry f.keys xs) = some (.arr (dropEntry f.keys xs)) := by
      rw [listOf, List.isEmpty_eq_false_iff.2 hleft, if_neg Bool.false_ne_true]
    have hplain : ∀ v, SelectedBy last v := fun v hl => by cases h.plain.symm.trans hl
    rw [List.nil_append, List.nil_append, along_cut_entry_singleton h hchild hlist hx, hlistOf]
    refine ⟨lookup_cons_of_found hschema (found?_setFound (hplain _)) [], ?_⟩
    rw [along_cut_singleton hchild, along_cut_singleton hchild]
    exact putFound_putFound hsorted (fun v _ => hplain v) fun hl => by
      cases h.plain.symm.trans hl
  | cons e above ih =>
    obtain ⟨child, inner, hschema, hfound, hne, hrest⟩ := exists_inner_of_list hlookup
    obtain ⟨c, hchild, howns, hpath⟩ := Node.walk?_cons hpath
    obtain rfl := Option.some.inj ((child?_of_childSchema hschema).symm.trans hchild)
    obtain ⟨children, hn, hname⟩ := get?_of_child? hchild
    have hsorted := ((Schema.Node.formed_object_iff hn).1 hformed).2.1
    have hkeyed' := hkeyed.child hn hname
    have hkey' : ¬ EndsInKey child (above ++ [f]) := fun hends => hkey (hends.cons hchild)
    obtain ⟨hlist, hsame⟩ := ih hkeyed' (formed_found hformed hschema hfound) hpath hkey' hrest
    -- the list is still there, so the container is not empty, and an entry has kept its keys
    obtain ⟨_, hinner, hleft'⟩ := exists_inner_of_lookup
      (List.append_ne_nil_of_right_ne_nil above (List.cons_ne_nil last [])) hlist
    obtain rfl := Json.obj.inj hinner
    have hselected : SelectedBy e (.obj (Change.cut.along (above ++ [f]) child inner)) := fun _ =>
      (keepsKeys_along hkeyed'.here hpath hkey').hasKeys howns (hasKeys_of_found? hfound)
    have hstep : Change.cut.along (e :: above ++ [f]) n ms
        = setFound e (.obj (Change.cut.along (above ++ [f]) child inner)) ms := by
      rw [Change.along_cons_concat _ _ _ hchild, alterFound, hfound,
        Change.through_cut_of_ne hleft']
      rfl
    rw [hstep]
    refine ⟨?_, ?_⟩
    · rw [List.cons_append, lookup_cons_of_found hschema (found?_setFound hselected), hlist]
    · rw [Change.along_cons_concat _ _ _ hchild, Change.along_cons_concat _ _ _ hchild]
      exact alterFound_through_cut_cut hsorted hfound hne hleft' hselected hsame

end ConfigTree.Tree
