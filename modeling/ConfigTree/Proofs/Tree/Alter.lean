import ConfigTree.Proofs.Tree.Delete

/-!
# Setting what an element selects, or taking it out

`putFound` sets what an element selects, as `setFound` does, or takes it out, as `dropFound` does.
Which of the two it is, and what is set, may depend on what the element has selected: `alterFound`.
Two such changes for elements that select different things commute, but for the order of the entries
of a list: a new entry comes last, and the last one takes the place of one that goes.

* `Json.Reordered`: documents that are the same but for the order of the entries of lists.
* `perm_entriesOf_putFound`: the entries of a list after a change.
* `alterFound_alterFound`: two changes for one element are one change.
* `reordered_putFound`: what is set may be reordered.
* `reordered_putFound_comm`: changes for elements apart commute.
-/

namespace ConfigTree

open ConfigTree.Path (Elem)
open Members (get? Sorted SameNames)
open Schema (Node)
open Schema.Node (Form Formed)

/-! ### Documents in another order -/

/-- Documents that are the same but for the order of the entries of lists. Entries are objects, so
the items of a leaf-list keep their order. The relation allows an entry to be reordered inside as
well as moved, which is what two changes at one list may come to. -/
inductive Json.Reordered : Json → Json → Prop
  | refl (j : Json) : Reordered j j
  | object {ms ms' : List (String × Json)} (sorted : Sorted ms) (sorted' : Sorted ms')
      (names : SameNames ms ms')
      (members : ∀ (name : String) (w w' : Json), get? ms name = some w → get? ms' name = some w' →
        Reordered w w') : Reordered (.obj ms) (.obj ms')
  | list {xs ys zs : List Json} (entries : ∀ x ∈ xs, x.isObject = true)
      (length : xs.length = ys.length)
      (items : ∀ (i : Nat) (x y : Json), xs[i]? = some x → ys[i]? = some y → Reordered x y)
      (perm : ys.Perm zs) : Reordered (.arr xs) (.arr zs)

namespace Json

variable {ms ms' : List (String × Json)} {xs ys : List Json} {v w : Json}

theorem Reordered.of_perm (hxs : ∀ x ∈ xs, x.isObject = true) (h : xs.Perm ys) :
    Reordered (.arr xs) (.arr ys) := by
  refine .list hxs rfl (fun i x y hx hy => ?_) h
  obtain rfl := Option.some.inj (hx.symm.trans hy)
  exact .refl x

/-- Only an empty object is a reordered empty object. So whether a container has become empty is the
same in either order. -/
theorem Reordered.eq_nil_iff (h : Reordered (.obj ms) (.obj ms')) : ms = [] ↔ ms' = [] := by
  cases h with
  | refl => exact Iff.rfl
  | object sorted sorted' names members =>
    rw [Members.eq_nil_iff, Members.eq_nil_iff]
    exact ⟨fun hnil key => names.eq_none (hnil key), fun hnil key => names.symm.eq_none (hnil key)⟩

/-- Members that are the same but for one, which is reordered. -/
theorem Reordered.insert (hs : Sorted ms) (name : String) (h : Reordered v w) :
    Reordered (.obj (Members.insert ms name v)) (.obj (Members.insert ms name w)) := by
  refine .object (Members.sorted_insert _ _ hs) (Members.sorted_insert _ _ hs)
    (SameNames.insert (fun _ => rfl) name v w) fun key x y hx hy => ?_
  rw [Members.get?_insert] at hx hy
  split at hx
  · next heq =>
    rw [if_pos heq] at hy
    exact Option.some.inj hx ▸ Option.some.inj hy ▸ h
  · next hne =>
    rw [if_neg hne] at hy
    exact Option.some.inj (hx.symm.trans hy) ▸ .refl x

end Json

namespace Tree

open Json (Reordered)

variable {F : Form} {n below : Node} {entry : Bool} {e f : Elem} {ms ms' : Object} {xs : List Json}
  {v w : Json} {o u : Option Json}

/-! ### Putting a value, or nothing -/

/-- Puts a value where an element selects it, or takes out what the element selects. What is not
there is not taken out. -/
def putFound (e : Elem) (o : Option Json) (ms : Object) : Object :=
  match o with
  | some v => setFound e v ms
  | none => if (found? ms e).isSome then dropFound e ms else ms

/-- Changes what an element selects, by what it is. Both deletions and writes are of this form at
each element of their path. -/
def alterFound (e : Elem) (change : Option Json → Option Json) (ms : Object) : Object :=
  putFound e (change (found? ms e)) ms

theorem putFound_none_of_missing (h : found? ms e = none) : putFound e none ms = ms := by
  simp only [putFound, h, Option.isSome_none, Bool.false_eq_true, if_false]

theorem putFound_none_of_found (h : found? ms e = some v) :
    putFound e none ms = dropFound e ms := by
  simp only [putFound, h, Option.isSome_some, if_true]

theorem get?_putFound_of_ne {key : String} (h : key ≠ localName e.name) :
    get? (putFound e o ms) key = get? ms key := by
  unfold putFound
  split
  · exact get?_setFound_of_ne h
  · split
    · exact get?_dropFound_of_ne h
    · rfl

theorem sorted_dropFound (hs : Sorted ms) : Sorted (dropFound e ms) := by
  unfold dropFound
  dsimp only
  split
  · exact Members.sorted_insert _ _ hs
  · exact Members.sorted_erase _ hs

theorem sorted_putFound (hs : Sorted ms) : Sorted (putFound e o ms) := by
  unfold putFound
  split
  · exact Members.sorted_insert _ _ hs
  · split
    · exact sorted_dropFound hs
    · exact hs

/-- Without keys an element selects a member, which is put or erased. -/
theorem get?_putFound_of_not_isKeyed (he : e.isKeyed = false) (key : String) :
    get? (putFound e o ms) key = if localName e.name = key then o else get? ms key := by
  cases o with
  | some v => rw [putFound, setFound_of_not_isKeyed he, Members.get?_insert]
  | none =>
    cases hfound : found? ms e with
    | some v => rw [putFound_none_of_found hfound, dropFound_of_not_isKeyed he, Members.get?_erase]
    | none =>
      rw [putFound_none_of_missing hfound]
      rw [found?_of_not_isKeyed he] at hfound
      split
      · next heq => rw [← heq, hfound]
      · rfl

/-- **What has been put is found**, if an element with keys does not take anything out: the next
entry might have its keys too. -/
theorem found?_putFound (ho : ∀ v ∈ o, SelectedBy e v)
    (hkeyed : e.isKeyed = true → o = none → found? ms e = none) :
    found? (putFound e o ms) e = o := by
  cases he : e.isKeyed with
  | false => rw [found?_of_not_isKeyed he, get?_putFound_of_not_isKeyed he, if_pos rfl]
  | true =>
    cases o with
    | some v => exact found?_setFound (ho v rfl)
    | none =>
      have hmissing := hkeyed he rfl
      rw [putFound_none_of_missing hmissing, hmissing]

/-- The last value that is put counts. Where an entry is taken out and put again it comes last, so
this is said for the other cases. -/
theorem putFound_putFound (hs : Sorted ms) (hu : ∀ v ∈ u, SelectedBy e v)
    (hkeyed : e.isKeyed = true → (u = none → found? ms e = none) ∧ (o = none → u = none)) :
    putFound e o (putFound e u ms) = putFound e o ms := by
  cases he : e.isKeyed with
  | false =>
    refine Members.ext (sorted_putFound (sorted_putFound hs)) (sorted_putFound hs) fun key => ?_
    simp only [get?_putFound_of_not_isKeyed he]
    split <;> rfl
  -- with keys the first put must not add an entry which the second does not find again, nor remove
  -- one whose place the second has to take
  | true =>
    obtain ⟨hmissing, hnone⟩ := hkeyed he
    cases u with
    | none => rw [putFound_none_of_missing (hmissing rfl)]
    | some v =>
      cases o with
      | none => cases hnone rfl
      | some w => exact setFound_setFound (hu v rfl)

/-- **Two changes for one element are one change**, if an element with keys does not take anything
out. -/
theorem alterFound_alterFound {change change' : Option Json → Option Json} (hs : Sorted ms)
    (hselected : ∀ v ∈ change' (found? ms e), SelectedBy e v)
    (hkeyed : e.isKeyed = true → (change' (found? ms e) = none → found? ms e = none) ∧
      (change (change' (found? ms e)) = none → change' (found? ms e) = none)) :
    alterFound e change (alterFound e change' ms)
      = alterFound e (fun found => change (change' found)) ms := by
  unfold alterFound
  rw [found?_putFound hselected fun he => (hkeyed he).1, putFound_putFound hs hselected hkeyed]

/-! ### What is put may be reordered -/

theorem length_setEntry (keys : List (String × String)) (v w : Json) (xs : List Json) :
    (setEntry keys v xs).length = (setEntry keys w xs).length := by
  unfold setEntry
  split
  · rw [List.length_set, List.length_set]
  · rw [List.length_append, List.length_append, List.length_singleton, List.length_singleton]

theorem getElem?_setEntry {keys : List (String × String)} {i : Nat} {x y : Json}
    (hx : (setEntry keys v xs)[i]? = some x) (hy : (setEntry keys w xs)[i]? = some y) :
    x = v ∧ y = w ∨ x = y := by
  -- the place of the entry depends on the array alone: the first one with the keys, or the end
  unfold setEntry at hx hy
  split at hx
  · next j hj =>
    rw [hj] at hy
    dsimp only at hy
    rw [List.getElem?_set] at hx hy
    split at hx
    · next heq =>
      rw [if_pos heq] at hy
      split at hx
      · next hlt =>
        rw [if_pos hlt] at hy
        exact .inl ⟨(Option.some.inj hx).symm, (Option.some.inj hy).symm⟩
      · cases hx
    · next hne =>
      rw [if_neg hne] at hy
      exact .inr (Option.some.inj (hx.symm.trans hy))
  · next hnone =>
    rw [hnone] at hy
    dsimp only at hy
    rw [List.getElem?_append] at hx hy
    split at hx
    · next hlt =>
      rw [if_pos hlt] at hy
      exact .inr (Option.some.inj (hx.symm.trans hy))
    · next hge =>
      rw [if_neg hge] at hy
      have hx' := List.mem_singleton.1 (List.mem_of_getElem? hx)
      have hy' := List.mem_singleton.1 (List.mem_of_getElem? hy)
      exact .inl ⟨hx', hy'⟩

/-- The entries that an element can select are objects. Only such lists may be put in another
order. -/
def HasObjects (ms : Object) (e : Elem) : Prop :=
  e.isKeyed = true → ∀ x ∈ entriesOf ms (localName e.name), x.isObject = true

theorem exists_obj_of_isEntryWith {keys : List (String × String)}
    (h : isEntryWith keys v = true) : ∃ inner, v = .obj inner := by
  cases v with
  | obj inner => exact ⟨inner, rfl⟩
  | _ => cases h

theorem HasObjects.of_formed (h : Formed F n entry (.obj ms))
    (hchild : e.isKeyed = true → ∃ home keys children,
      n.child? e.name = some (.list home keys children)) : HasObjects ms e := by
  intro he x hx
  obtain ⟨home, keys, children, hlist⟩ := hchild he
  obtain ⟨hentries, -⟩ := Schema.Node.formed_list_iff.1 (formed_entriesOf h hlist)
  obtain ⟨inner, rfl⟩ := (hentries x hx).eq_obj .list
  rfl

/-- A value that is set may be reordered, and the whole is reordered then. -/
theorem reordered_setFound (hs : Sorted ms) (hobjects : HasObjects ms e) (hv : SelectedBy e v)
    (h : Reordered v w) : Reordered (.obj (setFound e v ms)) (.obj (setFound e w ms)) := by
  cases he : e.isKeyed with
  | false =>
    rw [setFound_of_not_isKeyed he, setFound_of_not_isKeyed he]
    exact h.insert hs _
  | true =>
    rw [setFound_of_isKeyed he, setFound_of_isKeyed he]
    refine Reordered.insert hs _ (.list (fun x hx => ?_) (length_setEntry _ _ _ _)
      (fun i x y hx hy => ?_) (.refl _))
    · rcases mem_setEntry hx with rfl | hx
      · obtain ⟨inner, rfl⟩ := exists_obj_of_isEntryWith (hv he)
        rfl
      · exact hobjects he x hx
    · -- at the place of the entry the two differ as given, at all others not at all
      rcases getElem?_setEntry hx hy with ⟨rfl, rfl⟩ | rfl
      · exact h
      · exact .refl x

/-- **What is put may be reordered**, and the whole is reordered then. -/
theorem reordered_putFound (hs : Sorted ms) (hobjects : HasObjects ms e)
    (ho : ∀ v ∈ o, SelectedBy e v) (h : Option.Rel Reordered o u) :
    Reordered (.obj (putFound e o ms)) (.obj (putFound e u ms)) := by
  cases h with
  | none => exact .refl _
  | some hvw => exact reordered_setFound hs hobjects (ho _ rfl) hvw

/-! ### Changes for elements apart -/

/-- **The entries of a list after a change**: what the element selected has gone, and what is put
has come. As a statement about multisets it is the same whether an entry is replaced, added or taken
out. -/
theorem perm_entriesOf_putFound (he : e.isKeyed = true) :
    ((found? ms e).toList ++ entriesOf (putFound e o ms) (localName e.name)).Perm
      (o.toList ++ entriesOf ms (localName e.name)) := by
  cases o with
  | some v =>
    rw [putFound, setFound_of_isKeyed he, entriesOf_insert, found?_of_isKeyed he]
    -- in the array the entry that is found is exchanged for the new one; without one the new one is
    -- appended
    generalize entriesOf ms (localName e.name) = xs
    cases hfound : xs.find? (isEntryWith e.keys) with
    | none =>
      rw [setEntry_of_none (findIdx?_eq_none_of_find? hfound)]
      exact List.perm_append_singleton v xs
    | some x =>
      obtain ⟨i, hindex, hget⟩ := exists_findIdx?_of_find? hfound
      obtain ⟨hi, rfl⟩ := List.getElem?_eq_some_iff.1 hget
      rw [setEntry_of_some hindex]
      calc
        (xs[i] :: xs.set i v).Perm (xs[i] :: v :: xs.eraseIdx i) :=
          (List.set_perm_cons_eraseIdx hi v).cons _
        _ |>.Perm (v :: xs[i] :: xs.eraseIdx i) := .swap _ _ _
        _ |>.Perm (v :: xs) := (List.getElem_cons_eraseIdx_perm hi).cons _
  | none =>
    cases hfound : found? ms e with
    | none => rw [putFound_none_of_missing hfound]
    | some x =>
      rw [putFound_none_of_found hfound, entriesOf_dropFound he]
      rw [found?_of_isKeyed he] at hfound
      exact dropEntry_perm hfound

/-- Items are exchanged twice, in either order. Each exchange says what it takes and what it gives,
and what both take and give is the same in either order. -/
theorem perm_of_exchange {α : Type} {items left right first second firstIn secondIn firstOut
    secondOut : List α} (hleft : (firstOut ++ left).Perm (firstIn ++ second))
    (hsecond : (secondOut ++ second).Perm (secondIn ++ items))
    (hright : (secondOut ++ right).Perm (secondIn ++ first))
    (hfirst : (firstOut ++ first).Perm (firstIn ++ items)) : left.Perm right := by
  -- both results are completed by what the two exchanges took out, and then both come to the same
  -- two exchanges of `items`
  refine (List.perm_append_left_iff firstOut).1 ((List.perm_append_left_iff secondOut).1 ?_)
  calc
    (secondOut ++ (firstOut ++ left)).Perm (secondOut ++ (firstIn ++ second)) :=
      hleft.append_left secondOut
    _ |>.Perm (firstIn ++ (secondOut ++ second)) := List.perm_append_comm_assoc _ _ _
    _ |>.Perm (firstIn ++ (secondIn ++ items)) := hsecond.append_left firstIn
    _ |>.Perm (secondIn ++ (firstIn ++ items)) := List.perm_append_comm_assoc _ _ _
    _ |>.Perm (secondIn ++ (firstOut ++ first)) := hfirst.symm.append_left secondIn
    _ |>.Perm (firstOut ++ (secondIn ++ first)) := List.perm_append_comm_assoc _ _ _
    _ |>.Perm (firstOut ++ (secondOut ++ right)) := hright.symm.append_left firstOut
    _ |>.Perm (secondOut ++ (firstOut ++ right)) := List.perm_append_comm_assoc _ _ _

/-- A list with entries, or none. -/
def listOf (xs : List Json) : Option Json := if xs.isEmpty then none else some (.arr xs)

theorem setEntry_ne_nil (keys : List (String × String)) (v : Json) (xs : List Json) :
    setEntry keys v xs ≠ [] := by
  intro hnil
  unfold setEntry at hnil
  split at hnil
  · next hindex =>
    rw [List.set_eq_nil_iff] at hnil
    rw [hnil] at hindex
    cases hindex
  · simp at hnil

/-- A change of a list leaves one with entries, or none. The exception is a change that does
nothing, which leaves whatever is there. -/
theorem get?_putFound_of_isKeyed (he : e.isKeyed = true) : o = none ∧ found? ms e = none ∨
    get? (putFound e o ms) (localName e.name)
      = listOf (entriesOf (putFound e o ms) (localName e.name)) := by
  cases o with
  | some v =>
    refine .inr ?_
    rw [putFound, setFound_of_isKeyed he, entriesOf_insert, Members.get?_insert, if_pos rfl, listOf,
      if_neg (by simp [setEntry_ne_nil])]
  -- a removal that leaves no entry removes the array too, which is what `listOf` says
  | none =>
    cases hfound : found? ms e with
    | none => exact .inl ⟨rfl, rfl⟩
    | some x =>
      refine .inr ?_
      rw [putFound_none_of_found hfound, entriesOf_dropFound he, dropFound, he, Bool.true_and,
        listOf]
      cases dropEntry e.keys (entriesOf ms (localName e.name)) with
      | nil => exact (Members.get?_erase _ _ _).trans (if_pos rfl)
      | cons x rest => exact (Members.get?_insert _ _ _ _).trans (if_pos rfl)

theorem Apart.symm (h : Apart e f) : Apart f e := by
  rcases h with hne | ⟨hname, key, text, text', htext, htext', hne⟩
  · exact .inl hne.symm
  · exact .inr ⟨hname.symm, key, text', text, htext', htext, hne.symm⟩

/-- An element with keys has all those of its list. It is asked of the elements of both changes:
each has to select the same entry before and after the other. -/
def FullAt (n : Node) (e : Elem) : Prop :=
  e.isKeyed = true → ∀ child, n.child? e.name = some child → Full child e

/-- **A change for one element leaves alone what others select.** -/
theorem found?_putFound_of_apart (h : Formed F n entry (.obj ms)) (hF : F.keys)
    (ho : ∀ v ∈ o, SelectedBy e v) (hfull : FullAt n f) (hapart : Apart e f) :
    found? (putFound e o ms) f = found? ms f := by
  cases o with
  | some v => exact found?_setFound_of_apart (ho v rfl) hapart
  | none =>
    cases hfound : found? ms e with
    | none => rw [putFound_none_of_missing hfound]
    | some v =>
      -- the last entry takes the place of the one that goes, so the form of the list is needed
      obtain ⟨below, hschema⟩ := exists_childSchema_of_found h hfound
      rw [putFound_none_of_found hfound]
      exact found?_dropFound_of_apart h hF hschema hfound hfull hapart

/-- A change of what one element selects looks at the member of its name only. -/
theorem get?_putFound_congr (h : get? ms' (localName e.name) = get? ms (localName e.name)) :
    get? (putFound e o ms') (localName e.name) = get? (putFound e o ms) (localName e.name) := by
  have hentries : entriesOf ms' (localName e.name) = entriesOf ms (localName e.name) := by
    rw [entriesOf, h, entriesOf]
  -- what is put under a name, and whether it is found, depends on the member of that name alone
  unfold putFound
  rw [found?_congr h]
  split
  · rw [setFound, setFound, Members.get?_insert, Members.get?_insert, if_pos rfl, if_pos rfl,
      hentries]
  · split
    · unfold dropFound
      rw [hentries]
      dsimp only
      split
      · rw [Members.get?_insert, Members.get?_insert, if_pos rfl, if_pos rfl]
      · rw [Members.get?_erase, Members.get?_erase, if_pos rfl, if_pos rfl]
    · exact h

/-- Changes of members of different names commute. They do so exactly, since objects are sorted by
name. -/
theorem putFound_comm_of_ne (hs : Sorted ms) (hne : localName e.name ≠ localName f.name) :
    putFound e o (putFound f u ms) = putFound f u (putFound e o ms) := by
  -- objects are sorted by name, so it is enough to compare the members one by one
  refine Members.ext (sorted_putFound (sorted_putFound hs)) (sorted_putFound (sorted_putFound hs))
    fun key => ?_
  by_cases hkey : key = localName e.name
  · subst hkey
    rw [get?_putFound_congr (get?_putFound_of_ne hne), get?_putFound_of_ne hne]
  · rw [get?_putFound_of_ne hkey]
    by_cases hkey' : key = localName f.name
    · subst hkey'
      rw [get?_putFound_congr (get?_putFound_of_ne hkey)]
    · rw [get?_putFound_of_ne hkey', get?_putFound_of_ne hkey', get?_putFound_of_ne hkey]

theorem HasObjects.putFound (h : HasObjects ms e) (ho : ∀ v ∈ o, SelectedBy e v) :
    HasObjects (putFound e o ms) e := by
  intro he x hx
  have hmem := (perm_entriesOf_putFound he).subset (List.mem_append_right _ hx)
  rcases List.mem_append.1 hmem with hx | hx
  · obtain ⟨inner, rfl⟩ := exists_obj_of_isEntryWith (ho x (Option.mem_toList.1 hx) he)
    rfl
  · exact h he x hx

/-- Both changes leave the same entries of a list, in some order. -/
theorem perm_entriesOf_putFound_comm (he : e.isKeyed = true) (hf : f.isKeyed = true)
    (hname : localName e.name = localName f.name)
    (hkept : found? (putFound f u ms) e = found? ms e)
    (hkept' : found? (putFound e o ms) f = found? ms f) :
    (entriesOf (putFound e o (putFound f u ms)) (localName e.name)).Perm
      (entriesOf (putFound f u (putFound e o ms)) (localName e.name)) := by
  have hleft : ((found? ms e).toList ++
      entriesOf (putFound e o (putFound f u ms)) (localName e.name)).Perm
        (o.toList ++ entriesOf (putFound f u ms) (localName e.name)) := by
    rw [← hkept]
    exact perm_entriesOf_putFound he
  have hright : ((found? ms f).toList ++
      entriesOf (putFound f u (putFound e o ms)) (localName e.name)).Perm
        (u.toList ++ entriesOf (putFound e o ms) (localName e.name)) := by
    rw [← hkept', hname]
    exact perm_entriesOf_putFound hf
  have hsecond : ((found? ms f).toList ++ entriesOf (putFound f u ms) (localName e.name)).Perm
      (u.toList ++ entriesOf ms (localName e.name)) := by
    rw [hname]
    exact perm_entriesOf_putFound hf
  -- four exchanges, two for either order, on arrays that start and end alike
  exact perm_of_exchange hleft hsecond hright (perm_entriesOf_putFound he)

/-- Members that are the same but for a list, which has the same entries in another order. -/
theorem reordered_of_perm {left right : Object} {name : String} (hl : Sorted left)
    (hr : Sorted right) (hobjects : ∀ x ∈ entriesOf left name, x.isObject = true)
    (hothers : ∀ key, key ≠ name → get? left key = get? right key)
    (hleft : get? left name = listOf (entriesOf left name))
    (hright : get? right name = listOf (entriesOf right name))
    (hperm : (entriesOf left name).Perm (entriesOf right name)) :
    Reordered (.obj left) (.obj right) := by
  refine .object hl hr (fun key => ?_) fun key x y hx hy => ?_
  · -- only the member of this name differs, and by `listOf` it is there on both sides or on neither
    by_cases hkey : key = name
    · rw [hkey, hleft, hright, listOf, listOf, hperm.isEmpty_eq]
      split <;> rfl
    · rw [hothers key hkey]
  · by_cases hkey : key = name
    · rw [hkey, hleft, listOf] at hx
      rw [hkey, hright, listOf] at hy
      split at hx
      · cases hx
      · split at hy
        · cases hy
        · obtain rfl := Option.some.inj hx
          obtain rfl := Option.some.inj hy
          exact .of_perm hobjects hperm
    · exact Option.some.inj (hx.symm.trans ((hothers key hkey).trans hy)) ▸ .refl x

/-- **Changes for elements apart commute**, but for the order of the entries of a list. For members
of different names there is nothing to reorder; in one list neither change is seen by the element of
the other, and the entries that are left are the same. -/
theorem reordered_putFound_comm (h : Formed F n entry (.obj ms)) (hF : F.keys) (hs : Sorted ms)
    (hobjects : HasObjects ms e) (ho : ∀ v ∈ o, SelectedBy e v) (hu : ∀ v ∈ u, SelectedBy f v)
    (hfull : FullAt n e) (hfull' : FullAt n f) (hapart : Apart e f) :
    Reordered (.obj (putFound e o (putFound f u ms)))
      (.obj (putFound f u (putFound e o ms))) := by
  have hkept : found? (putFound f u ms) e = found? ms e :=
    found?_putFound_of_apart h hF hu hfull hapart.symm
  have hkept' : found? (putFound e o ms) f = found? ms f :=
    found?_putFound_of_apart h hF ho hfull' hapart
  rcases hapart with hne | ⟨hname, key, text, text', htext, htext', -⟩
  · rw [putFound_comm_of_ne hs hne]
    exact .refl _
  have he := isKeyed_of_get? htext
  have hf := isKeyed_of_get? htext'
  -- a change that does nothing does nothing in either order
  rcases @get?_putFound_of_isKeyed e (putFound f u ms) o he with ⟨rfl, hmissing⟩ | hlist
  · rw [putFound_none_of_missing hmissing, putFound_none_of_missing (hkept.symm.trans hmissing)]
    exact .refl _
  rcases @get?_putFound_of_isKeyed f (putFound e o ms) u hf with ⟨rfl, hmissing⟩ | hlist'
  · rw [putFound_none_of_missing hmissing, putFound_none_of_missing (hkept'.symm.trans hmissing)]
    exact .refl _
  -- else both orders leave a list with the same entries
  rw [← hname] at hlist'
  have hboth : HasObjects (putFound e o (putFound f u ms)) e := by
    refine HasObjects.putFound (fun _ => ?_) ho
    rw [hname]
    exact HasObjects.putFound (fun _ => hname ▸ hobjects he) hu hf
  refine reordered_of_perm (sorted_putFound (sorted_putFound hs))
    (sorted_putFound (sorted_putFound hs)) (hboth he) (fun key hkey => ?_) hlist hlist'
    (perm_entriesOf_putFound_comm he hf hname hkept hkept')
  have hkey' : key ≠ localName f.name := hname ▸ hkey
  rw [get?_putFound_of_ne hkey, get?_putFound_of_ne hkey', get?_putFound_of_ne hkey',
    get?_putFound_of_ne hkey]

end Tree

end ConfigTree
