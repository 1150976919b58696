import ConfigTree.Proofs.Store.Delete
import ConfigTree.Proofs.Tree.Create

/-!
# What edits keep

While the edits of a request are applied, the working copy keeps a form that is weaker than that of
a configuration. Which one that is depends on the paths of the edits: `Edit.Fits` says what is asked
of them.

* `formed_putAt`, `formed_deleteAt`: putting data at a path and deleting a node keep the form.
* `formed_apply`: so does an edit.
-/

namespace ConfigTree.Edit

open ConfigTree.Path (Elem)
open ConfigTree.Tree (Object KeysFit Full Fits EndsInKey childSchema found? newEntry)
open Members (get? Sorted)
open Schema (Node)
open Schema.Node (Form Formed Stands)

variable {F : Form} {s : Schema} {r : Json.Reader} {n list target : Node} {entry : Bool}
  {e last : Elem} {mode : WriteMode} {place name : String} {ms ms' old new members : Object}
  {d : Json} {p : Path} {home : Option String} {found : Node × Option String}

/-! ### Writing a child -/

theorem formed_putMember (h : Formed F n entry (.obj ms)) (hchild : n.child? name = some target)
    (hd : Formed F target false d) :
    Formed F n entry (.obj (putMember mode (localName name) d ms)) := by
  unfold putMember
  split
  · next new old hold => exact h.insert hchild ((h.member hchild hold).insertAll hd)
  · exact h.insert hchild hd

theorem formed_entryMembers (hkeys : Formed F list true (newEntry list e))
    (hold : Formed F list true (.obj old)) (hnew : Formed F list true (.obj new))
    (h : entryMembers mode list e place old new = .ok members) :
    Formed F list true (.obj members) := by
  unfold entryMembers at h
  split at h
  · cases h
  · obtain rfl := Except.ok.inj h
    obtain ⟨children, hchildren⟩ := hnew.exists_children
    -- a replacement starts again, an update from the entry that there is
    cases mode with
    | replace => exact ((Formed.empty hchildren fun _ _ => rfl).insertAll hkeys).insertAll hnew
    | update => exact (hold.insertAll hkeys).insertAll hnew

/-- Writing an entry keeps the form, if its element has all keys of the list. With fewer the entry
that is written may get the keys of another one, and the list two entries with the same. -/
theorem formed_putEntry (h : Formed F n entry (.obj ms)) (hschema : childSchema n e = .ok list)
    (he : e.isKeyed = true) (howns : list.OwnsKeys e)
    (hentry : Formed F list true (newEntry list e)) (hd : Formed F list true d) (hnormal : d.Normal)
    (hkeys : F.keys → KeysFit list e ∧ Full list e)
    (hput : putEntry mode list e place d ms = .ok ms') : Formed F n entry (.obj ms') := by
  obtain ⟨old, new, members, hopened, rfl, hmembers, rfl⟩ := exists_entry_of_putEntry he hput
  have hhas : F.keys → Tree.hasKeys members e.keys = true := fun hF =>
    hasKeys_of_entryMembers (hkeys hF).1 hnormal.1 hmembers
  rcases hopened with hthere | ⟨hnone, hfresh⟩
  · -- the entry that there is has the same keys
    have hold := Tree.formed_found h hschema hthere
    rw [he] at hold
    refine Tree.formed_setFound h hschema hthere
      (he ▸ formed_entryMembers hentry hold hd hmembers) fun hF keys hlist => ?_
    obtain ⟨home, keys', children, rfl⟩ := Tree.exists_list_of_childSchema hschema he
    obtain rfl := Option.some.inj hlist
    have hfull := (hkeys hF).2
    rw [hfull.keyTuple (hhas hF), hfull.keyTuple (Tree.hasKeys_of_found? hthere)]
  · have hmembers := formed_entryMembers hentry (hfresh ▸ hentry) hd hmembers
    exact Tree.formed_addFound h hschema hnone (he ▸ hmembers) fun hF _ =>
      ⟨hhas hF, howns, (hkeys hF).2⟩

/-- **Writing a child keeps the form** of the node that it is in, and the keys of that node if it is
an entry. -/
theorem formed_putInside (hkeyed : n.Everywhere Node.KeyedAt)
    (hfree : n.Everywhere Schema.ColonFreeAt) (hfits : Fits F n [last])
    (h : Formed F n entry (.obj ms)) (hchild : n.child? last.name = some target)
    (howns : target.OwnsKeys last) (hd : Formed F target last.isKeyed d) (hnormal : d.Normal)
    (hput : putInside mode last place d ms n = (.ok (), ms')) :
    Formed F n entry (.obj ms') ∧ (F.keys → Tree.KeepsKeys n ms ms') := by
  obtain ⟨children, hn, hname⟩ := Tree.get?_of_child? hchild
  have hkeyed' := (hkeyed.child hn hname).here
  have hfree' := (hfree.child hn hname).here
  have hfit : F.keys → last.isKeyed = true → KeysFit target last := fun hF =>
    hfits.keysFit hkeyed' hfree' hF hchild howns
  refine ⟨?_, fun hF keys hkeys key hmem => ?_⟩
  · rw [putInside_eq_ok_iff, putChild] at hput
    cases he : last.isKeyed with
    | true =>
      rw [he, if_pos rfl, hchild] at hput
      rw [he] at hd
      have hfull : F.keys → Full target last := fun hF =>
        (hfits.selects hF target hchild).1.resolve_left fun hlast =>
          Bool.false_ne_true (hlast.2.symm.trans he)
      exact formed_putEntry h (Tree.childSchema_of_ownsKeys hchild howns) he howns
        (Tree.formed_newEntry hkeyed' hfree' howns he (hfits.texts target hchild).1) hd hnormal
        (fun hF => ⟨hfit hF he, hfull hF⟩) hput
    | false =>
      rw [he, if_neg Bool.false_ne_true] at hput
      obtain rfl := Except.ok.inj hput
      exact formed_putMember h hchild (he ▸ hd)
  · -- nothing but the child changes, and that is no key
    refine get?_putInside hput fun heq => ?_
    exact hfits.noKey hF ⟨[], last, n, keys, rfl, rfl, hkeys, heq ▸ hmem⟩

/-! ### Edits of a tree -/

/-- **Putting data at a path keeps the form of a tree.** The form is a parameter, because the copy
need not be valid between the edits, and different results ask for different things of it. -/
theorem formed_putAt (hs : s.Loaded) (hfree : s.ColonFree) (hlists : F.lists → F.keys)
    (h : Formed F s.root false (.obj ms)) (hwalk : s.root.walk? home p.elems = some found)
    (hfits : Fits F s.root p.elems) (hd : Formed F found.1 (Subtree.isEntryPlace p.elems) d)
    (hnormal : d.Normal) (hput : putAt s mode p d ms = .ok ms') :
    Formed F s.root false (.obj ms') := by
  cases hsplit : p.splitLast? with
  | none =>
    -- at the root the data is the whole tree
    unfold putAt at hput
    rw [hsplit] at hput
    rw [splitLast?_eq_none hsplit] at hwalk hd
    obtain rfl := Option.some.inj hwalk
    cases d with
    | obj members => exact Except.ok.inj hput ▸ hd
    | _ => cases hput
  | some split =>
    obtain ⟨parent, last⟩ := split
    have hplace : Subtree.isEntryPlace p.elems = last.isKeyed := by
      simp [Subtree.isEntryPlace, splitLast?_eq_some hsplit]
    rw [hplace] at hd
    rw [splitLast?_eq_some hsplit] at hwalk hfits
    have hmodify := modifyAt_of_putAt hsplit hput
    refine (Tree.formed_modifyAt hs.keyed h
      (fun _ => Tree.adds_of_fits hs.keyed hfree hlists hwalk hfits) hmodify
      fun m entry inner inner' hm hinner hout => ?_).1
    -- the node that is changed is the one above the end of the path
    obtain ⟨m', home', hm', hlast⟩ := Node.walk?_append hwalk
    obtain rfl := Option.some.inj (hm.symm.trans hm')
    obtain ⟨target, hchild, howns, heq⟩ := Node.walk?_cons hlast
    obtain rfl := Option.some.inj heq
    exact formed_putInside (hs.keyed.below? hm) (hfree.below? hm) (hfits.of_append hm) hinner hchild
      howns hd hnormal hout

/-- **Deleting a node keeps the form of a tree**, if it is no key where entries are told apart by
keys. -/
theorem formed_deleteAt {flag : Bool} (hs : s.Loaded) (h : Formed F s.root false (.obj ms))
    (hkey : F.keys → ¬ EndsInKey s.root p.elems) (hdelete : deleteAt s p ms = .ok (flag, ms')) :
    Formed F s.root false (.obj ms') := by
  cases hsplit : p.splitLast? with
  | none =>
    unfold deleteAt at hdelete
    rw [hsplit] at hdelete
    obtain ⟨-, rfl⟩ := Prod.mk.inj (Except.ok.inj hdelete)
    obtain ⟨children, hn, hplace⟩ := hs.hasMembers
    exact .empty hn fun _ => hplace
  | some split =>
    obtain ⟨parent, last⟩ := split
    rw [splitLast?_eq_some hsplit] at hkey
    rw [deleteAt_eq hsplit] at hdelete
    -- only a deletion that takes something out is pruned, any other leaves the tree as it is
    split at hdelete
    · exact (Prod.mk.inj (Except.ok.inj hdelete)).2 ▸ h
    · cases hdelete
    · exact (Prod.mk.inj (Except.ok.inj hdelete)).2 ▸ h
    · next changed hmodify =>
      obtain ⟨hchanged, -⟩ := Tree.formed_drop drops_removeInside hs.keyed h hkey hmodify
      split at hdelete
      · cases hdelete
      · next pruned hprune =>
        obtain ⟨-, rfl⟩ := Prod.mk.inj (Except.ok.inj hdelete)
        exact (Tree.formed_prune hs.keyed hchanged hprune).1

/-- What is asked of the path of an edit in trees of a form. Only a write may add something, so only
its path is asked about the texts of its keys. -/
def Fits (F : Form) (s : Schema) : Edit → Prop
  | .delete p => F.keys → ¬ EndsInKey s.root p.elems
  | .write _ p _ => Tree.Fits F s.root p.elems

/-- Where entries are not told apart by keys any path will do whose keys have the form. -/
theorem fits_of_not_keys (edit : Edit) (hF : ¬ F.keys)
    (htexts : ∀ text kind, F.KeyText text kind) : edit.Fits F s := by
  cases edit with
  | delete p => exact fun hkeys => (hF hkeys).elim
  | write mode p value => exact Tree.fits_of_not_keys hF htexts _ _

/-- **An edit keeps the form of a tree**, if its path fits and the form admits valid values. So by
induction every copy in the course of a request has the form, if all its edits fit. -/
theorem formed_apply {edit : Edit} {flag : Bool} (hs : s.Loaded) (hfree : s.ColonFree)
    (hF : F.Admits) (hlists : F.lists → F.keys) (hfits : edit.Fits F s)
    (h : Formed F s.root false (.obj ms)) (happly : edit.apply s r ms = .ok (flag, ms')) :
    Formed F s.root false (.obj ms') := by
  cases edit with
  | delete p => exact formed_deleteAt hs h hfits happly
  | write mode p value =>
    obtain ⟨changed, hwrite, heq⟩ := map_eq_ok_iff.1 happly
    obtain ⟨-, rfl⟩ := Prod.mk.inj heq
    obtain ⟨-, d, hdata, hput⟩ := writeAt_eq_ok_iff.1 hwrite
    -- the data is valid where it is put
    obtain ⟨target, home, hnode, hstands⟩ := stands_of_dataAt hfree hdata
    have hwalk := walk?_of_nodeAt hnode
    have hfree' := hfree.below? (Node.below?_of_walk? hwalk)
    have hd := (Schema.Node.formed_of_stands hstands).of_valid hF hfree'
    exact formed_putAt hs hfree hlists h hwalk hfits hd hstands.normal hput

end ConfigTree.Edit
