import ConfigTree.Tree.Delete
import ConfigTree.Proofs.Tree.Frame
import ConfigTree.Proofs.Tree.Step

/-!
# Deletion

Taking out an entry moves the last one to its place. What is left is the same list in another order,
so the keys, which tell entries apart, still select the same ones. A list goes with its last entry,
and then the containers go that this leaves empty, the deepest first.

* `swapRemove_perm`: what is left of a list.
* `deleteEntry_of_found`: an entry that is found is taken out, as `dropFound` says.
* `found?_dropFound`, `found?_dropFound_of_apart`: the entry is not found any more, and others are
  as before.
* `Cuts`: what a path leads to is gone, with the containers above it that are empty then.
* `formed_drop`: taking out what a path leads to keeps the form of a tree.
-/

namespace ConfigTree.Tree

open ConfigTree.Path (Elem)
open Members (get? Sorted)
open Schema (Node)
open Schema.Node (Form Formed keyTuple)

variable {F : Form} {n below m : Node} {entry : Bool} {e f last : Elem}
  {parent p q : List Elem} {ms ms' inner inner' : Object} {xs : List Json} {v w : Json}

/-! ### Items -/

/-- The item that is taken out, with those that are left, is the list in another order. -/
theorem swapRemove_perm {α : Type} {items : List α} {i : Nat} {x : α} (h : items[i]? = some x) :
    (x :: swapRemove items i).Perm items := by
  obtain ⟨hi, rfl⟩ := List.getElem?_eq_some_iff.1 h
  obtain ⟨front, back, rfl⟩ : ∃ front back, items = front ++ [back] :=
    ⟨_, _, (List.dropLast_concat_getLast (List.ne_nil_of_length_pos (by omega))).symm⟩
  simp only [swapRemove, List.getLast?_concat]
  by_cases hfront : i < front.length
  · rw [List.set_append_left _ _ hfront, List.dropLast_concat, List.getElem_append_left hfront]
    -- the last item takes the place of the one that is taken out
    calc
      (front[i] :: front.set i back).Perm (front[i] :: back :: front.eraseIdx i) :=
        (List.set_perm_cons_eraseIdx hfront back).cons _
      _ |>.Perm (back :: front[i] :: front.eraseIdx i) := .swap _ _ _
      _ |>.Perm (back :: front) := (List.getElem_cons_eraseIdx_perm hfront).cons _
      _ |>.Perm (front ++ [back]) := (List.perm_append_singleton _ _).symm
  · obtain rfl : i = front.length := by
      rw [List.length_append, List.length_singleton] at hi
      omega
    rw [List.set_append_right _ _ (Nat.le_refl _), Nat.sub_self, List.set_cons_zero,
      List.dropLast_concat, List.getElem_concat_length rfl]
    exact (List.perm_append_singleton _ _).symm

/-- What only one item can be is found in a list as it is in another order of it. Taking out an
entry changes the order of the others, so this is where it matters that keys tell them apart. -/
theorem find?_eq_of_perm {α : Type} {p : α → Bool} {items items' : List α}
    (h : items.Perm items') (hone : ∀ x ∈ items, ∀ y ∈ items, p x = true → p y = true → x = y) :
    items.find? p = items'.find? p := by
  cases hx : items.find? p with
  | none =>
    refine (List.find?_eq_none.2 fun y hy => ?_).symm
    exact List.find?_eq_none.1 hx y (h.mem_iff.2 hy)
  | some x =>
    have hmem := List.mem_of_find?_eq_some hx
    obtain ⟨y, hy⟩ := Option.isSome_iff_exists.1
      (List.find?_isSome.2 ⟨x, h.mem_iff.1 hmem, List.find?_some hx⟩)
    rw [hy, hone x hmem y (h.mem_iff.2 (List.mem_of_find?_eq_some hy)) (List.find?_some hx)
      (List.find?_some hy)]

/-! ### Taking out what an element selects -/

/-- Takes the first entry with the keys out of a list. -/
def dropEntry (keys : List (String × String)) (xs : List Json) : List Json :=
  match xs.findIdx? (isEntryWith keys) with
  | some i => swapRemove xs i
  | none => xs

theorem dropEntry_perm {keys : List (String × String)}
    (h : xs.find? (isEntryWith keys) = some v) : (v :: dropEntry keys xs).Perm xs := by
  obtain ⟨i, hindex, hget⟩ := exists_findIdx?_of_find? h
  rw [dropEntry, hindex]
  exact swapRemove_perm hget

/-- Takes out what an element selects. A list goes with its last entry, so that no list is ever left
empty by a deletion. -/
def dropFound (e : Elem) (ms : Object) : Object :=
  let left := dropEntry e.keys (entriesOf ms (localName e.name))
  if e.isKeyed && !left.isEmpty then Members.insert ms (localName e.name) (.arr left)
  else Members.erase ms (localName e.name)

theorem dropFound_of_not_isKeyed (he : e.isKeyed = false) :
    dropFound e ms = Members.erase ms (localName e.name) := by
  rw [dropFound, he]
  rfl

theorem get?_dropFound_of_ne {key : String} (h : key ≠ localName e.name) :
    get? (dropFound e ms) key = get? ms key := by
  unfold dropFound
  dsimp only
  split
  · rw [Members.get?_insert, if_neg (Ne.symm h)]
  · rw [Members.get?_erase, if_neg (Ne.symm h)]

theorem entriesOf_dropFound (he : e.isKeyed = true) :
    entriesOf (dropFound e ms) (localName e.name)
      = dropEntry e.keys (entriesOf ms (localName e.name)) := by
  unfold dropFound
  dsimp only
  rw [he, Bool.true_and]
  cases hleft : dropEntry e.keys (entriesOf ms (localName e.name)) with
  | nil =>
    -- the list is gone, so it has no entries either
    refine entriesOf_of_none ?_
    rw [List.isEmpty_nil, Bool.not_true, if_neg Bool.false_ne_true, Members.get?_erase, if_pos rfl]
  | cons x xs => exact entriesOf_insert

/-- **An entry that is found is taken out.** The code counts the entries before it takes one out,
and drops the list if there is one only; that is the same as looking at what is left. -/
theorem deleteEntry_of_found (he : e.isKeyed = true) (h : found? ms e = some v) :
    deleteEntry ms e = .ok (true, dropFound e ms) := by
  obtain ⟨xs, i, hget, hindex, hv⟩ := exists_arr_of_found he h
  -- the list has one entry more than what is left, so it was the last one if nothing is left
  have hlength := (swapRemove_perm hv).length_eq
  rw [List.length_cons] at hlength
  simp only [deleteEntry, hget, hindex, dropFound, entriesOf_of_get? hget, dropEntry, he,
    Bool.true_and]
  cases hleft : swapRemove xs i with
  | nil => rw [if_pos (by rw [← hlength, hleft]; rfl)]; rfl
  | cons x rest =>
    rw [hleft, List.length_cons] at hlength
    rw [if_neg (by omega)]
    rfl

/-- Where a list is missing or has no such entry there is nothing to take out. -/
theorem deleteEntry_of_missing (he : e.isKeyed = true) (h : found? ms e = none)
    (hlist : ∀ w, get? ms (localName e.name) = some w → ∃ xs, w = .arr xs) :
    deleteEntry ms e = .ok (false, ms) := by
  cases hget : get? ms (localName e.name) with
  | none => simp only [deleteEntry, hget]
  | some w =>
    obtain ⟨xs, rfl⟩ := hlist w hget
    rw [found?_of_isKeyed he, entriesOf_of_get? hget] at h
    simp only [deleteEntry, hget, findIdx?_eq_none_of_find? h]

/-- Something else than a list is refused, whatever it is. This is an error, unlike a missing list,
even though nothing would be found there either. -/
theorem deleteEntry_of_other (hget : get? ms (localName e.name) = some w) (hw : w.arr? = none) :
    deleteEntry ms e = .error (.wrongNode e.text .notKeyedList) := by
  unfold deleteEntry
  dsimp only
  rw [hget]
  cases w with
  | arr xs => cases hw
  | _ => rfl

/-- Taking out what an element selects keeps the form of a tree: the entries that are left are as
many of the same, and no member has to be there. -/
theorem formed_dropFound (h : Formed F n entry (.obj ms)) (hfound : found? ms e = some v) :
    Formed F n entry (.obj (dropFound e ms)) := by
  obtain ⟨below, hschema⟩ := exists_childSchema_of_found h hfound
  have hchild := child?_of_childSchema hschema
  unfold dropFound
  dsimp only
  split
  · next hleft =>
    obtain ⟨he, -⟩ := Bool.and_eq_true_iff.1 hleft
    rw [found?_of_isKeyed he] at hfound
    obtain ⟨home, keys, children, rfl⟩ := exists_list_of_childSchema hschema he
    exact h.insert hchild ((formed_entriesOf h hchild).remove (dropEntry_perm hfound))
  · exact h.erase _

/-! ### What is left -/

/-- An element with all keys selects at most one entry of a list, where the keys tell entries
apart. -/
theorem Full.unique {home : Option String} {keys : List String} {children : List (String × Node)}
    (hfull : Full (.list home keys children) e) (hF : F.keys)
    (h : Formed F (.list home keys children) false (.arr xs)) {x y : Json} (hx : x ∈ xs)
    (hy : y ∈ xs) (hxkeys : isEntryWith e.keys x = true) (hykeys : isEntryWith e.keys y = true) :
    x = y := by
  obtain ⟨hentries, hkeys⟩ := Schema.Node.formed_list_iff.1 h
  obtain ⟨a, rfl⟩ := (hentries x hx).eq_obj .list
  obtain ⟨b, rfl⟩ := (hentries y hy).eq_obj .list
  refine List.inj_on_of_nodup_map (hkeys hF).2 hx hy ?_
  rw [hfull.keyTuple hxkeys, hfull.keyTuple hykeys]

/-- **What has been taken out is not found any more.** An element that leaves keys out might find
another entry next, so it has to have all of them. -/
theorem found?_dropFound (h : Formed F n entry (.obj ms)) (hF : F.keys)
    (hschema : childSchema n e = .ok below) (hfound : found? ms e = some v)
    (hfull : e.isKeyed = true → Full below e) : found? (dropFound e ms) e = none := by
  cases he : e.isKeyed with
  | false =>
    rw [dropFound_of_not_isKeyed he, found?_of_not_isKeyed he, Members.get?_erase, if_pos rfl]
  | true =>
    rw [found?_of_isKeyed he] at hfound
    rw [found?_of_isKeyed he, entriesOf_dropFound he]
    have hperm := dropEntry_perm hfound
    have hchild := child?_of_childSchema hschema
    obtain ⟨home, keys, children, rfl⟩ := exists_list_of_childSchema hschema he
    have hlist := formed_entriesOf h hchild
    -- the keys of what has been taken out are those of no other entry
    have hdistinct := ((Schema.Node.formed_list_iff.1 hlist).2 hF).2
    have hnodup := (hperm.map (keyTuple keys)).nodup_iff.2 hdistinct
    rw [List.map_cons, List.nodup_cons] at hnodup
    refine List.find?_eq_none.2 fun x hx hkeys => hnodup.1 ?_
    have hsame : v = x := (hfull he).unique hF hlist (List.mem_of_find?_eq_some hfound)
      (hperm.mem_iff.1 (List.mem_cons_of_mem v hx)) (List.find?_some hfound) hkeys
    exact hsame ▸ List.mem_map_of_mem hx

/-- **What other elements select is as before**, if they have all keys of their list. -/
theorem found?_dropFound_of_apart (h : Formed F n entry (.obj ms)) (hF : F.keys)
    (hschema : childSchema n e = .ok below) (hfound : found? ms e = some v)
    (hfull : f.isKeyed = true → ∀ child, n.child? f.name = some child → Full child f)
    (hapart : Apart e f) : found? (dropFound e ms) f = found? ms f := by
  rcases hapart with hne | ⟨hname, key, text, text', htext, htext', hne⟩
  · exact found?_congr (get?_dropFound_of_ne (Ne.symm hne))
  · have he := isKeyed_of_get? htext
    have hf := isKeyed_of_get? htext'
    have hchild := child?_of_childSchema hschema
    have hchild' : n.child? f.name = some below := by
      unfold Node.child? at hchild ⊢
      rwa [← hname]
    rw [found?_of_isKeyed he] at hfound
    rw [found?_of_isKeyed hf, found?_of_isKeyed hf, ← hname, entriesOf_dropFound he]
    have hperm := dropEntry_perm hfound
    obtain ⟨home, keys, children, rfl⟩ := exists_list_of_childSchema hschema he
    rw [find?_eq_of_perm hperm.symm fun x hx y hy =>
      (hfull hf _ hchild').unique hF (formed_entriesOf h hchild) hx hy]
    -- what has been taken out has another text of a key
    have hv := isEntryWith_eq_false htext htext' hne (List.find?_some hfound)
    rw [List.find?_cons_of_neg (by rw [hv]; exact Bool.false_ne_true)]

/-! ### Deletion below a path -/

/-- What a path leads to is gone from the members of a node, and so are the containers above it that
this leaves empty. Other elements select what they did before. This is what a deletion is asked to
do, said step by step and without how it is done; what is claimed of deletions follows by induction
on it. -/
inductive Cuts : Node → List Elem → Object → Object → Prop
  | here {n below : Node} {e : Elem} {ms ms' : Object} (schema : childSchema n e = .ok below)
      (gone : found? ms' e = none)
      (apart : ∀ f, (f.isKeyed = true → ∀ child, n.child? f.name = some child → Full child f) →
        Apart e f → found? ms' f = found? ms f) : Cuts n [e] ms ms'
  | there {n below : Node} {e : Elem} {elems : List Elem} {ms ms' inner inner' : Object}
      (schema : childSchema n e = .ok below) (before : found? ms e = some (.obj inner))
      (rest : Cuts below elems inner inner')
      (after : found? ms' e = some (.obj inner') ∧ inner' ≠ [] ∨
        found? ms' e = none ∧ inner' = [])
      (apart : ∀ f, Apart e f → found? ms' f = found? ms f) : Cuts n (e :: elems) ms ms'

/-- The path leads nowhere any more. -/
theorem Cuts.lookup_eq_none (h : Cuts n p ms ms') : lookup p (.obj ms') n = .ok none := by
  induction h with
  | here schema gone => exact lookup_cons_of_missing schema gone []
  | there schema before rest after apart ih =>
    rcases after with ⟨hfound, -⟩ | ⟨hgone, -⟩
    · rw [lookup_cons_of_found schema hfound, ih]
    · exact lookup_cons_of_missing schema hgone _

/-- Nothing on the way is left empty: a container that the path goes through has something in it
afterwards, or is not there. -/
theorem Cuts.ne_empty {above under : List Elem} (h : Cuts n (above ++ under) ms ms')
    (habove : above ≠ []) (hunder : under ≠ []) :
    lookup above (.obj ms') n ≠ .ok (some (.obj [], m)) := by
  generalize hp : above ++ under = p at h
  induction h generalizing above with
  | here =>
    obtain ⟨e, above, rfl⟩ := List.exists_cons_of_ne_nil habove
    obtain ⟨-, hnil⟩ := List.cons.inj hp
    exact absurd (List.append_eq_nil_iff.1 hnil).2 hunder
  | there schema before rest after apart ih =>
    obtain ⟨e, above, rfl⟩ := List.exists_cons_of_ne_nil habove
    obtain ⟨rfl, htail⟩ := List.cons.inj hp
    -- an element above the cut is left only with members; without them it is gone, and then nothing
    -- is found below it either
    rcases after with ⟨hfound, hne⟩ | ⟨hgone, -⟩
    · rw [lookup_cons_of_found schema hfound]
      cases above with
      | nil =>
        intro hempty
        exact hne (Json.obj.inj (Prod.mk.inj (Option.some.inj (Except.ok.inj hempty))).1)
      | cons f above => exact ih (List.cons_ne_nil _ _) htail
    · rw [lookup_cons_of_missing schema hgone]
      exact fun heq => by cases heq

/-- **Paths that part from the path lead where they did.** The other path has all keys of its lists,
since an entry that goes lets the last one take its place, and with keys left out another entry
might be found first. -/
theorem Cuts.lookup_of_diverge {home : Option String} {found : Node × Option String}
    (h : Cuts n p ms ms') (hq : n.walk? home q = some found) (hfull : SelectsEntries n q)
    (hdiverge : Diverge p q) : lookup q (.obj ms') n = lookup q (.obj ms) n := by
  induction h generalizing q home with
  | here schema gone apart =>
    cases hdiverge with
    | @here _ f _ qs hapart =>
      -- the first element already selects something else
      rw [lookup_cons, lookup_cons, apart f (fun hf child hchild => ?_) hapart]
      rcases (hfull child hchild).1 with ⟨-, hplain⟩ | hall
      · cases hf.symm.trans hplain
      · exact hall
    | there rest => cases rest
  | there schema before rest after apart ih =>
    cases hdiverge with
    | here hapart => rw [lookup_cons, lookup_cons, apart _ hapart]
    | @there _ _ qs hrest =>
      obtain ⟨child, hchild, -, hqs⟩ := Node.walk?_cons hq
      obtain rfl := Option.some.inj ((child?_of_childSchema schema).symm.trans hchild)
      have hsame := ih hqs (hfull _ hchild).2 hrest
      rcases after with ⟨hfound, -⟩ | ⟨hgone, rfl⟩
      · rw [lookup_cons_of_found schema hfound, lookup_cons_of_found schema before, hsame]
      · -- in a container that goes since it is empty nothing else has been found
        rw [lookup_cons_of_missing schema hgone, lookup_cons_of_found schema before, ← hsame]
        cases qs with
        | nil => cases not_diverge_nil _ hrest
        | cons f qs =>
          obtain ⟨c, hc, howns, -⟩ := Node.walk?_cons hqs
          exact (lookup_cons_of_missing (childSchema_of_ownsKeys hc howns) rfl qs).symm

section

variable {β : Type} {g : Object → Node → β × Object} {out : β}

/-- An element with keys at the end of a path that the schema knows names a list. -/
theorem isList_of_walk? {home : Option String} {found : Node × Option String}
    (h : n.walk? home (parent ++ [last]) = some found) (he : last.isKeyed = true) :
    found.1.isList = true := by
  obtain ⟨m, home', -, hlast⟩ := Node.walk?_append h
  obtain ⟨child, -, howns, heq⟩ := Node.walk?_cons hlast
  obtain rfl := Option.some.inj heq
  exact isList_of_ownsKeys howns he

/-- A change that takes out what an element selects, if it selects something. Deleting a member and
deleting an entry are both of this sort. -/
def Drops (g : Object → Node → β × Object) (out : β) (e : Elem) : Prop :=
  ∀ inner m inner', g inner m = (out, inner') ↔
    (found? inner e).isSome = true ∧ inner' = dropFound e inner

/-- **A deletion below a path keeps the form of a tree**, if it does not delete a key of an entry in
one where entries have their keys. -/
theorem formed_drop (hg : Drops g out last) (hkeyed : n.Everywhere Node.KeyedAt)
    (h : Formed F n entry (.obj ms))
    (hkey : F.keys → ¬ EndsInKey n (parent ++ [last]))
    (hmodify : modifyAt false g parent ms n = .ok (out, ms')) :
    Formed F n entry (.obj ms') ∧ (F.keys → KeepsKeys n ms ms') := by
  refine formed_modifyAt hkeyed h (fun hcreate => by cases hcreate) hmodify
    fun m entry inner inner' hm hinner hout => ?_
  -- below the path only what the last element selects is taken out, and that is no key
  obtain ⟨hsome, rfl⟩ := (hg inner m inner').1 hout
  obtain ⟨v, hfound⟩ := Option.isSome_iff_exists.1 hsome
  refine ⟨formed_dropFound hinner hfound, fun hF keys hkeys key hmem => ?_⟩
  exact get?_dropFound_of_ne fun heq =>
    hkey hF ⟨parent, last, m, keys, rfl, hm, hkeys, heq ▸ hmem⟩

end

end ConfigTree.Tree
