import ConfigTree.Proofs.Tree.Step

/-!
# Places in a tree

A path selects entries by what is in them, so after a change it may lead to another entry than
before, or to none. A place is told without looking at entries: by the slots that lead to it, which
are names of members and numbers of entries.

* `Slot.get?`, `at?`: what is in a slot, and at a place.
* `slot?`, `place?`: the slot that an element selects, and the place that a path leads to.
* `get?_slot_setFound`, `get?_setFound_of_ne_slot`: setting what an element selects changes what is
  in its slot. In every other slot there is the same, but for a list that has the slot in it.
* `at?_of_lookup`: a look-up finds what is at the place of its path.
-/

namespace ConfigTree.Tree

open ConfigTree.Path (Elem)
open Members (get?)
open Schema (Node)

/-- What is in a slot. -/
def Slot.get? (ms : Object) : Slot → Option Json
  | .member name => Members.get? ms name
  | .entry list i => (entriesOf ms list)[i]?

/-- What is at a place. Each of its slots is in the one before. Unlike a path, a place needs no
schema, and it means the same before and after a change that moves no entry. -/
def at? : List Slot → Json → Option Json
  | [], w => some w
  | slot :: place, .obj ms => (slot.get? ms).bind (at? place)
  | _ :: _, _ => none

/-- The slot that an element selects: the first entry with the texts of its keys, or the member of
its name. -/
def slot? (ms : Object) (e : Elem) : Option Slot :=
  if e.isKeyed then
    ((entriesOf ms (localName e.name)).findIdx? (isEntryWith e.keys)).map
      (Slot.entry (localName e.name))
  else (Members.get? ms (localName e.name)).map fun _ => .member (localName e.name)

/-- The place that a path leads to, if there is something. -/
def place? : List Elem → Json → Option (List Slot)
  | [], _ => some []
  | e :: rest, .obj ms => do
    let slot ← slot? ms e
    let child ← slot.get? ms
    return slot :: (← place? rest child)
  | _ :: _, _ => none

variable {n m : Node} {e : Elem} {p rest : List Elem} {ms inner inner' : Object} {xs : List Json}
  {v w : Json} {slot other : Slot} {place : List Slot} {name : String} {i : Nat}

/-! ### What is in a slot -/

theorem slot?_of_isKeyed (he : e.isKeyed = true) : slot? ms e =
    ((entriesOf ms (localName e.name)).findIdx? (isEntryWith e.keys)).map
      (Slot.entry (localName e.name)) := by
  rw [slot?, if_pos he]

theorem slot?_of_not_isKeyed (he : e.isKeyed = false) :
    slot? ms e = (get? ms (localName e.name)).map fun _ => .member (localName e.name) := by
  rw [slot?, he, if_neg Bool.false_ne_true]

/-- An element selects what is in its slot. -/
theorem exists_slot_of_found (h : found? ms e = some v) :
    ∃ slot, slot? ms e = some slot ∧ slot.get? ms = some v := by
  cases he : e.isKeyed with
  | true =>
    obtain ⟨xs, i, hw, hindex, hv⟩ := exists_arr_of_found he h
    have hxs := entriesOf_of_get? hw
    refine ⟨.entry (localName e.name) i, ?_, ?_⟩
    · rw [slot?_of_isKeyed he, hxs, hindex, Option.map_some]
    · rw [Slot.get?, hxs, hv]
  | false =>
    rw [found?_of_not_isKeyed he] at h
    refine ⟨.member (localName e.name), ?_, h⟩
    rw [slot?_of_not_isKeyed he, h, Option.map_some]

theorem slot?_eq_none (h : found? ms e = none) : slot? ms e = none := by
  cases he : e.isKeyed with
  | true =>
    rw [found?_of_isKeyed he] at h
    rw [slot?_of_isKeyed he, findIdx?_eq_none_of_find? h, Option.map_none]
  | false =>
    rw [found?_of_not_isKeyed he] at h
    rw [slot?_of_not_isKeyed he, h, Option.map_none]

theorem found?_of_slot? (h : slot? ms e = some slot) : found? ms e = slot.get? ms := by
  cases hfound : found? ms e with
  | none =>
    rw [slot?_eq_none hfound] at h
    cases h
  | some v =>
    obtain ⟨slot', hslot', hv⟩ := exists_slot_of_found hfound
    obtain rfl := Option.some.inj (h.symm.trans hslot')
    exact hv.symm

theorem Slot.get?_nil (slot : Slot) : slot.get? [] = none := by
  cases slot <;> rfl

/-- Members without a list have no entries of it. -/
theorem get?_entry_of_obj (h : get? ms name = some (.obj inner)) (i : Nat) :
    (Slot.entry name i).get? ms = none := by
  rw [Slot.get?, entriesOf, h]
  rfl

/-! ### Changes of what an element selects -/

theorem entriesOf_setFound_of_ne {key : String} (h : key ≠ localName e.name) :
    entriesOf (setFound e v ms) key = entriesOf ms key := by
  rw [entriesOf, entriesOf, get?_setFound_of_ne h]

/-- What is set is in the slot, also where it is no longer what the element selects. -/
theorem get?_slot_setFound (hslot : slot? ms e = some slot) :
    slot.get? (setFound e v ms) = some v := by
  -- an entry is set at its number, a member under its name
  cases he : e.isKeyed with
  | true =>
    rw [slot?_of_isKeyed he] at hslot
    obtain ⟨i, hindex, rfl⟩ := Option.map_eq_some_iff.1 hslot
    obtain ⟨hi, -⟩ := List.findIdx?_eq_some_iff_getElem.1 hindex
    rw [Slot.get?, setFound_of_isKeyed he, entriesOf_insert, setEntry_of_some hindex,
      List.getElem?_set_self hi]
  | false =>
    rw [slot?_of_not_isKeyed he] at hslot
    obtain ⟨-, -, rfl⟩ := Option.map_eq_some_iff.1 hslot
    rw [Slot.get?, setFound_of_not_isKeyed he, Members.get?_insert, if_pos rfl]

/-- The element selects the same slot after that, if what is set has the keys. An entry without them
is passed over, and the next one with these texts is selected. -/
theorem slot?_setFound (hslot : slot? ms e = some slot) (hv : SelectedBy e v) :
    slot? (setFound e v ms) e = some slot := by
  cases he : e.isKeyed with
  | true =>
    rw [slot?_of_isKeyed he] at hslot ⊢
    obtain ⟨i, hindex, rfl⟩ := Option.map_eq_some_iff.1 hslot
    rw [setFound_of_isKeyed he, entriesOf_insert, setEntry_of_some hindex,
      findIdx?_set_of_findIdx? hindex (hv he), Option.map_some]
  | false =>
    rw [slot?_of_not_isKeyed he] at hslot ⊢
    obtain ⟨-, -, rfl⟩ := Option.map_eq_some_iff.1 hslot
    rw [setFound_of_not_isKeyed he, Members.get?_insert, if_pos rfl, Option.map_some]

/-- **In every other slot there is the same**, but for the list that an entry has been set in, which
has as many entries as before. An object has to be selected: if a list stands under the name, then
its entries have slots of their own, and setting the member would change these too. -/
theorem get?_setFound_of_ne_slot (hslot : slot? ms e = some slot)
    (hfound : found? ms e = some (.obj inner)) (hne : other ≠ slot) :
    other.get? (setFound e (.obj inner') ms) = other.get? ms ∨
      ∃ xs xs', other.get? ms = some (.arr xs) ∧
        other.get? (setFound e (.obj inner') ms) = some (.arr xs') ∧ xs'.length = xs.length := by
  cases other with
  | member key =>
    by_cases hkey : key = localName e.name
    · subst hkey
      cases he : e.isKeyed with
      | true =>
        obtain ⟨xs, i, hw, hindex, -⟩ := exists_arr_of_found he hfound
        refine .inr ⟨xs, xs.set i (.obj inner'), hw, ?_, List.length_set⟩
        rw [Slot.get?, setFound_of_isKeyed he, entriesOf_of_get? hw, setEntry_of_some hindex,
          Members.get?_insert, if_pos rfl]
      | false =>
        rw [slot?_of_not_isKeyed he] at hslot
        obtain ⟨-, -, rfl⟩ := Option.map_eq_some_iff.1 hslot
        exact absurd rfl hne
    · exact .inl (get?_setFound_of_ne hkey)
  | entry key j =>
    left
    by_cases hkey : key = localName e.name
    · subst hkey
      cases he : e.isKeyed with
      | true =>
        rw [slot?_of_isKeyed he] at hslot
        obtain ⟨i, hindex, rfl⟩ := Option.map_eq_some_iff.1 hslot
        have hij : i ≠ j := fun h => hne (h ▸ rfl)
        rw [Slot.get?, Slot.get?, setFound_of_isKeyed he, entriesOf_insert,
          setEntry_of_some hindex, List.getElem?_set_ne hij]
      | false =>
        -- there is an object under the name, before and after, and no list
        rw [found?_of_not_isKeyed he] at hfound
        have hset : get? (setFound e (.obj inner') ms) (localName e.name)
            = some (.obj inner') := by
          rw [setFound_of_not_isKeyed he, Members.get?_insert, if_pos rfl]
        rw [get?_entry_of_obj hfound, get?_entry_of_obj hset]
    · rw [Slot.get?, Slot.get?, entriesOf_setFound_of_ne hkey]

/-- A member that is removed is in no slot, and in every other slot there is the same. Again it is
an object that is removed, so that no entries go with it. -/
theorem get?_erase_member (hfound : get? ms name = some (.obj inner)) :
    other.get? (Members.erase ms name)
      = if other = .member name then none else other.get? ms := by
  cases other with
  | member key =>
    rw [Slot.get?, Slot.get?, Members.get?_erase]
    simp only [Slot.member.injEq, eq_comm]
  -- an object is stored under the name, so there is no array there whose entries could vanish
  | entry key j =>
    rw [if_neg (fun h => by cases h)]
    by_cases hkey : name = key
    · subst hkey
      rw [get?_entry_of_obj hfound, Slot.get?, entriesOf, Members.get?_erase, if_pos rfl]
      rfl
    · rw [Slot.get?, Slot.get?, entriesOf, entriesOf, Members.get?_erase, if_neg hkey]

/-! ### Places of paths -/

/-- The place of a path is the slot of its first element, and then the place that the rest of the
path leads to from what is in that slot. -/
theorem place?_of_slot? (hslot : slot? ms e = some slot) (hv : slot.get? ms = some v)
    (rest : List Elem) :
    place? (e :: rest) (.obj ms) = (place? rest v).map fun place => slot :: place := by
  rw [place?, hslot]
  simp only [bind, Option.bind, hv]
  cases place? rest v <;> rfl

theorem place?_of_missing (h : found? ms e = none) (rest : List Elem) :
    place? (e :: rest) (.obj ms) = none := by
  rw [place?, slot?_eq_none h]
  rfl

/-- What has a place for a path that is not empty is an object, with something in the first slot. -/
theorem exists_slot_of_place (h : place? (e :: rest) w = some place) :
    ∃ ms slot v below, w = .obj ms ∧ slot? ms e = some slot ∧ slot.get? ms = some v ∧
      place? rest v = some below ∧ place = slot :: below := by
  cases w with
  | obj ms =>
    rw [place?] at h
    obtain ⟨slot, hslot, h⟩ := Option.bind_eq_some_iff.1 h
    obtain ⟨v, hv, h⟩ := Option.bind_eq_some_iff.1 h
    obtain ⟨below, hbelow, h⟩ := Option.bind_eq_some_iff.1 h
    exact ⟨ms, slot, v, below, rfl, hslot, hv, hbelow, (Option.some.inj h).symm⟩
  | _ => cases h

/-- The last slot on the way to what is no entry is that of a member. -/
theorem exists_member_of_place (he : e.isKeyed = false) (h : place? (p ++ [e]) w = some place) :
    ∃ above, place = above ++ [.member (localName e.name)] := by
  induction p generalizing w place with
  | nil =>
    obtain ⟨ms, slot, v, below, rfl, hslot, -, hbelow, rfl⟩ := exists_slot_of_place h
    rw [slot?_of_not_isKeyed he] at hslot
    obtain ⟨-, -, rfl⟩ := Option.map_eq_some_iff.1 hslot
    obtain rfl := Option.some.inj hbelow
    exact ⟨[], rfl⟩
  | cons f p ih =>
    obtain ⟨ms, slot, v, below, rfl, -, -, hbelow, rfl⟩ := exists_slot_of_place h
    obtain ⟨above, rfl⟩ := ih hbelow
    exact ⟨slot :: above, rfl⟩

/-- **A look-up finds what is at the place of its path.** So what a look-up gives before and after a
change can be compared slot by slot, though the path may lead to another place by then. -/
theorem at?_of_lookup (h : lookup p w n = .ok (some (v, m))) :
    ∃ place, place? p w = some place ∧ at? place w = some v := by
  induction p generalizing n w with
  | nil =>
    obtain ⟨rfl, -⟩ := Prod.mk.inj (Option.some.inj (Except.ok.inj h))
    exact ⟨[], rfl, rfl⟩
  | cons e p ih =>
    obtain ⟨ms, rfl⟩ := exists_obj_of_lookup h
    obtain ⟨x, below, -, hfound, hrest⟩ := exists_found_of_lookup h
    -- the element finds its value in one slot, and the place is read off slot by slot
    obtain ⟨slot, hslot, hx⟩ := exists_slot_of_found hfound
    obtain ⟨place, hplace, hv⟩ := ih hrest
    refine ⟨slot :: place, ?_, ?_⟩
    · rw [place?_of_slot? hslot hx, hplace, Option.map_some]
    · rw [at?, hx, Option.bind_some, hv]

end ConfigTree.Tree
