import ConfigTree.Tree.Lookup
import ConfigTree.Proofs.Tree.Alike

/-!
# What an element selects

Among the members of a node an element of a path selects a member or, with keys, the first entry of
a list that has them. `found?` reads what it selects, and `setFound` sets it. The two belong
together as a lens does, and the operations on trees are made of them: a look-up reads step by step,
and a step of a write reads, or adds what is missing, and sets.

* `found?_setFound`, `setFound_found`, `setFound_setFound`: what has been set is found, setting what
  is found changes nothing, and the last value that is set counts.
* `found?_setFound_of_apart`: what other elements select is as before.
* `lookup_cons`: a look-up takes one step, and goes on from there.
* `descend_cases`: what a step opens, and where it puts values.
-/

namespace ConfigTree.Tree

open ConfigTree.Path (Elem)
open Members (get? Sorted)
open Schema (Node)

variable {n below list : Node} {e f : Elem} {ms ms' : Object} {name : String}
  {keys : List (String × String)} {xs : List Json} {v w : Json} {c : Child} {create : Bool}

/-! ### Reading -/

/-- What an element selects among members: the one of its name, or with keys the first entry of that
list that has them. It is defined for any members, of the right form or not: where no array is, an
element with keys selects nothing. -/
def found? (ms : Object) (e : Elem) : Option Json :=
  (get? ms (localName e.name)).bind fun child =>
    if e.isKeyed then (child.arr?.getD []).find? (isEntryWith e.keys) else some child

/-- The entries of a list, of which a missing one has none. -/
def entriesOf (ms : Object) (name : String) : List Json :=
  ((get? ms name).bind Json.arr?).getD []

theorem entriesOf_of_get? (h : get? ms name = some (.arr xs)) : entriesOf ms name = xs := by
  rw [entriesOf, h]
  rfl

theorem entriesOf_of_none (h : get? ms name = none) : entriesOf ms name = [] := by
  rw [entriesOf, h]
  rfl

theorem entriesOf_insert : entriesOf (Members.insert ms name (.arr xs)) name = xs :=
  entriesOf_of_get? (by rw [Members.get?_insert, if_pos rfl])

theorem found?_of_isKeyed (he : e.isKeyed = true) :
    found? ms e = (entriesOf ms (localName e.name)).find? (isEntryWith e.keys) := by
  unfold found? entriesOf
  cases get? ms (localName e.name) with
  | none => rfl
  | some child => simp [he]

theorem found?_of_not_isKeyed (he : e.isKeyed = false) :
    found? ms e = get? ms (localName e.name) := by
  unfold found?
  cases get? ms (localName e.name) with
  | none => rfl
  | some child => simp [he]

theorem found?_of_none (h : get? ms (localName e.name) = none) : found? ms e = none := by
  unfold found?
  rw [h]
  rfl

theorem found?_erase : found? (Members.erase ms (localName e.name)) e = none :=
  found?_of_none (by rw [Members.get?_erase, if_pos rfl])

theorem found?_plain (hlocal : localName name = name) :
    found? ms (Elem.plain name) = get? ms name := by
  rw [found?_of_not_isKeyed rfl, Elem.plain, hlocal]

/-- What an element selects has its keys. -/
theorem hasKeys_of_found? {inner : Object} (h : found? ms e = some (.obj inner)) :
    hasKeys inner e.keys = true := by
  cases he : e.isKeyed with
  | true =>
    rw [found?_of_isKeyed he] at h
    exact List.find?_some (p := isEntryWith e.keys) h
  | false =>
    rw [keys_eq_nil he]
    rfl

/-- What an element selects is told by the member of its name. -/
theorem found?_congr (h : get? ms' (localName f.name) = get? ms (localName f.name)) :
    found? ms' f = found? ms f := by
  unfold found?
  rw [h]

theorem child?_of_childSchema (h : childSchema n e = .ok below) : n.child? e.name = some below := by
  unfold childSchema at h
  split at h
  · cases h
  · next hchild =>
    split at h
    · cases h
    · rw [hchild, Except.ok.inj h]

/-- A look-up takes one step, and goes on from there in what the element selects. The schema is
asked first, so a look-up fails at a name that it does not know even where there is nothing. -/
theorem lookup_cons (rest : List Elem) : lookup (e :: rest) (.obj ms) n =
    childSchema n e >>= fun below =>
      match found? ms e with
      | none => .ok none
      | some child => lookup rest child below := by
  rw [lookup]
  refine congrArg _ (funext fun below => ?_)
  -- both sides look the name up first, and go through the entries only if the element has keys
  unfold found? member?
  rw [Json.obj?, Option.bind_some]
  cases get? ms (localName e.name) with
  | none => rfl
  | some child =>
    cases e.isKeyed with
    | true => rfl
    | false => rfl

theorem lookup_cons_of_found (hschema : childSchema n e = .ok below) (hfound : found? ms e = some v)
    (rest : List Elem) : lookup (e :: rest) (.obj ms) n = lookup rest v below := by
  rw [lookup_cons, hschema]
  simp only [bind, Except.bind, hfound]

theorem lookup_cons_of_missing (hschema : childSchema n e = .ok below) (hfound : found? ms e = none)
    (rest : List Elem) : lookup (e :: rest) (.obj ms) n = .ok none := by
  rw [lookup_cons, hschema]
  simp only [bind, Except.bind, hfound]

/-- What has a child in it is an object. -/
theorem exists_obj_of_lookup {rest : List Elem} {found : Json × Node}
    (h : lookup (e :: rest) w n = .ok (some found)) : ∃ ms, w = .obj ms := by
  obtain ⟨below, -, h⟩ := bind_eq_ok_iff.1 h
  cases w with
  | obj ms => exact ⟨ms, rfl⟩
  | _ => cases h

/-- What is found further on is found in what the first element selects. -/
theorem exists_found_of_lookup {rest : List Elem} {found : Json × Node}
    (h : lookup (e :: rest) (.obj ms) n = .ok (some found)) :
    ∃ v below, childSchema n e = .ok below ∧ found? ms e = some v ∧
      lookup rest v below = .ok (some found) := by
  rw [lookup_cons] at h
  obtain ⟨below, hschema, h⟩ := bind_eq_ok_iff.1 h
  cases hfound : found? ms e with
  | none =>
    rw [hfound] at h
    cases h
  | some v =>
    rw [hfound] at h
    exact ⟨v, below, hschema, rfl, h⟩

/-- A look-up goes down in the schema as it does in the tree, so what is known of the node below a
path is known of what is found there. -/
theorem below?_of_lookup {elems : List Elem} (h : lookup elems w n = .ok (some (v, below))) :
    n.below? elems = some below := by
  induction elems generalizing n w with
  | nil =>
    obtain ⟨-, rfl⟩ := Prod.mk.inj (Option.some.inj (Except.ok.inj h))
    rfl
  | cons e elems ih =>
    obtain ⟨ms, rfl⟩ := exists_obj_of_lookup h
    obtain ⟨x, child, hschema, -, hrest⟩ := exists_found_of_lookup h
    rw [Node.below?_cons (child?_of_childSchema hschema), ih hrest]

/-! ### Elements that select different things -/

/-- Two elements select different things: members of different names, or entries of one list with
different texts of a key. Elements that leave keys out may select the same entry although they
differ, so it takes a key that both have. -/
def Apart (e f : Elem) : Prop :=
  localName e.name ≠ localName f.name ∨ localName e.name = localName f.name ∧
    ∃ key text text', get? e.keys key = some text ∧ get? f.keys key = some text' ∧ text ≠ text'

/-- A value may stand where an element with keys selects it: it is an entry that has those keys.
Without this what is put in the place of an entry might not be found there again. -/
def SelectedBy (e : Elem) (v : Json) : Prop := e.isKeyed = true → isEntryWith e.keys v = true

theorem isKeyed_of_get? {key text : String} (h : get? e.keys key = some text) :
    e.isKeyed = true := by
  unfold Elem.isKeyed
  cases hkeys : e.keys with
  | nil => rw [hkeys] at h; cases h
  | cons => rfl

/-- An entry has one text for each key. -/
theorem isEntryWith_eq_false {key text text' : String} (htext : get? e.keys key = some text)
    (htext' : get? f.keys key = some text') (hne : text ≠ text')
    (hv : isEntryWith e.keys v = true) : isEntryWith f.keys v = false := by
  cases v with
  | obj members =>
    change hasKeys members e.keys = true at hv
    change hasKeys members f.keys = false
    have hkey := hasKeys_iff.1 hv _ (Members.mem_of_get? htext)
    rw [Bool.eq_false_iff]
    intro hf
    have hkey' := hasKeys_iff.1 hf _ (Members.mem_of_get? htext')
    exact hne (Option.some.inj (hkey.symm.trans hkey'))
  | _ => rfl

/-! ### Setting an entry -/

section

variable {α : Type} {p q : α → Bool} {items : List α} {i : Nat} {x z : α}

theorem find?_set_of_findIdx? (h : items.findIdx? p = some i) (hz : p z = true) :
    (items.set i z).find? p = some z := by
  induction items generalizing i with
  | nil => cases h
  | cons x items ih =>
    rw [List.findIdx?_cons] at h
    split at h
    · obtain rfl := Option.some.inj h
      exact List.find?_cons_of_pos hz
    · next hx =>
      obtain ⟨j, hj, rfl⟩ := Option.map_eq_some_iff.1 h
      rw [List.set_cons_succ, List.find?_cons_of_neg hx, ih hj]

theorem find?_of_findIdx? (h : items.findIdx? p = some i) : items.find? p = items[i]? := by
  -- putting the item in its own place changes nothing
  obtain ⟨hi, hp, -⟩ := List.findIdx?_eq_some_iff_getElem.1 h
  have hset := find?_set_of_findIdx? h hp
  rwa [List.set_getElem_self, ← List.getElem?_eq_getElem hi] at hset

/-- What is put in the place of the first item that is looked for is the first such item. -/
theorem findIdx?_set_of_findIdx? (h : items.findIdx? p = some i) (hz : p z = true) :
    (items.set i z).findIdx? p = some i := by
  obtain ⟨hi, -, hbefore⟩ := List.findIdx?_eq_some_iff_getElem.1 h
  refine List.findIdx?_eq_some_iff_getElem.2 ⟨by rwa [List.length_set], ?_, fun j hj => ?_⟩
  · rwa [List.getElem_set_self]
  · rw [List.getElem_set_ne (Nat.ne_of_gt hj)]
    exact hbefore j hj

theorem find?_of_findIdx?_eq_none (h : items.findIdx? p = none) : items.find? p = none :=
  List.find?_eq_none.2 fun x hx => by simp [List.findIdx?_eq_none_iff.1 h x hx]

/-- An item that is not looked for may take the place of another such one. -/
theorem find?_set_of_not (hx : items[i]? = some x) (hpx : p x = false) (hpz : p z = false) :
    (items.set i z).find? p = items.find? p := by
  induction items generalizing i with
  | nil => cases hx
  | cons y items ih =>
    cases i with
    | zero =>
      obtain rfl := Option.some.inj hx
      rw [List.set_cons_zero, List.find?_cons_of_neg (by simp [hpz]),
        List.find?_cons_of_neg (by simp [hpx])]
    | succ i =>
      rw [List.set_cons_succ, List.find?_cons, List.find?_cons, ih hx]

end

/-- Puts an entry in the place of the first one with the keys, or at the end if none has them. This
is what a write comes to: the code goes by places, and finds the place or makes one. -/
def setEntry (keys : List (String × String)) (v : Json) (xs : List Json) : List Json :=
  match xs.findIdx? (isEntryWith keys) with
  | some i => xs.set i v
  | none => xs ++ [v]

theorem setEntry_of_some {i : Nat} (h : xs.findIdx? (isEntryWith keys) = some i) :
    setEntry keys v xs = xs.set i v := by
  rw [setEntry, h]

theorem setEntry_of_none (h : xs.findIdx? (isEntryWith keys) = none) :
    setEntry keys v xs = xs ++ [v] := by
  rw [setEntry, h]

theorem find?_setEntry (hv : isEntryWith keys v = true) :
    (setEntry keys v xs).find? (isEntryWith keys) = some v := by
  cases h : xs.findIdx? (isEntryWith keys) with
  | some i =>
    rw [setEntry_of_some h]
    exact find?_set_of_findIdx? h hv
  | none =>
    rw [setEntry_of_none h, List.find?_append, find?_of_findIdx?_eq_none h, Option.none_or,
      List.find?_cons_of_pos hv]

/-- What is looked for otherwise is found as before. Neither the entry that is put nor the one whose
place it takes is what is looked for. -/
theorem find?_setEntry_of_not {p : Json → Bool} (hv : isEntryWith keys v = true)
    (hp : ∀ x, isEntryWith keys x = true → p x = false) :
    (setEntry keys v xs).find? p = xs.find? p := by
  cases h : xs.findIdx? (isEntryWith keys) with
  | some i =>
    obtain ⟨hi, hx, -⟩ := List.findIdx?_eq_some_iff_getElem.1 h
    rw [setEntry_of_some h]
    exact find?_set_of_not (List.getElem?_eq_getElem hi) (hp _ hx) (hp v hv)
  | none =>
    rw [setEntry_of_none h, List.find?_append, List.find?_cons_of_neg (by simp [hp v hv]),
      List.find?_nil, Option.or_none]

/-- Setting the entry that is found changes nothing. -/
theorem setEntry_found (h : xs.find? (isEntryWith keys) = some v) : setEntry keys v xs = xs := by
  cases hindex : xs.findIdx? (isEntryWith keys) with
  | some i =>
    rw [find?_of_findIdx? hindex] at h
    obtain ⟨hi, rfl⟩ := List.getElem?_eq_some_iff.1 h
    rw [setEntry_of_some hindex, List.set_getElem_self]
  | none => cases h.symm.trans (find?_of_findIdx?_eq_none hindex)

/-- The last entry that is set counts. -/
theorem setEntry_setEntry (hv : isEntryWith keys v = true) :
    setEntry keys w (setEntry keys v xs) = setEntry keys w xs := by
  cases h : xs.findIdx? (isEntryWith keys) with
  | some i =>
    rw [setEntry_of_some h, setEntry_of_some h,
      setEntry_of_some (findIdx?_set_of_findIdx? h hv), List.set_set]
  | none =>
    have hindex : (xs ++ [v]).findIdx? (isEntryWith keys) = some xs.length := by
      rw [List.findIdx?_append, h, List.findIdx?_singleton, hv]
      simp
    rw [setEntry_of_none h, setEntry_of_none h, setEntry_of_some hindex,
      List.set_append_right _ _ (Nat.le_refl _), Nat.sub_self, List.set_cons_zero]

theorem mem_setEntry (h : w ∈ setEntry keys v xs) : w = v ∨ w ∈ xs := by
  unfold setEntry at h
  split at h
  · exact (List.mem_or_eq_of_mem_set h).symm
  · rcases List.mem_append.1 h with h | h
    · exact .inr h
    · exact .inl (List.mem_singleton.1 h)

/-! ### Setting what an element selects -/

/-- Puts a value where an element selects it. A list that is missing is made, with the value as its
one entry. -/
def setFound (e : Elem) (v : Json) (ms : Object) : Object :=
  Members.insert ms (localName e.name)
    (if e.isKeyed then .arr (setEntry e.keys v (entriesOf ms (localName e.name))) else v)

theorem setFound_of_isKeyed (he : e.isKeyed = true) : setFound e v ms =
    Members.insert ms (localName e.name)
      (.arr (setEntry e.keys v (entriesOf ms (localName e.name)))) := by
  rw [setFound, if_pos he]

theorem setFound_of_not_isKeyed (he : e.isKeyed = false) :
    setFound e v ms = Members.insert ms (localName e.name) v := by
  rw [setFound, he, if_neg Bool.false_ne_true]

theorem setFound_plain (hlocal : localName name = name) :
    setFound (Elem.plain name) v ms = Members.insert ms name v := by
  rw [setFound_of_not_isKeyed rfl, Elem.plain, hlocal]

theorem get?_setFound_of_ne {key : String} (h : key ≠ localName e.name) :
    get? (setFound e v ms) key = get? ms key := by
  rw [setFound, Members.get?_insert, if_neg (Ne.symm h)]

/-- What has been set is found. The first law of the lens; it needs that the value can stand where
it is put. -/
theorem found?_setFound (hv : SelectedBy e v) : found? (setFound e v ms) e = some v := by
  cases he : e.isKeyed with
  | true =>
    rw [found?_of_isKeyed he, setFound_of_isKeyed he, entriesOf_insert]
    exact find?_setEntry (hv he)
  | false =>
    rw [found?_of_not_isKeyed he, setFound_of_not_isKeyed he, Members.get?_insert, if_pos rfl]

/-- Setting what is found changes nothing. The second law; members have to be in order, or putting
one again would move it. -/
theorem setFound_found (hs : Sorted ms) (h : found? ms e = some v) : setFound e v ms = ms := by
  cases he : e.isKeyed with
  | true =>
    rw [found?_of_isKeyed he] at h
    rw [setFound_of_isKeyed he, setEntry_found h]
    refine Members.insert_of_get? hs ?_
    -- there is a list, since an entry has been found in it
    unfold entriesOf at h ⊢
    cases hget : get? ms (localName e.name) with
    | none => simp [hget] at h
    | some x =>
      cases x with
      | arr xs => rfl
      | _ => simp [hget, Json.arr?] at h
  | false =>
    rw [found?_of_not_isKeyed he] at h
    rw [setFound_of_not_isKeyed he, Members.insert_of_get? hs h]

/-- The last value that is set counts. The third law; here only the first value has to be one that
can stand there, since that is the one to be found again. -/
theorem setFound_setFound (hv : SelectedBy e v) :
    setFound e w (setFound e v ms) = setFound e w ms := by
  cases he : e.isKeyed with
  | true =>
    rw [setFound_of_isKeyed he, setFound_of_isKeyed he, setFound_of_isKeyed he, entriesOf_insert,
      Members.insert_insert, setEntry_setEntry (hv he)]
  | false =>
    rw [setFound_of_not_isKeyed he, setFound_of_not_isKeyed he, setFound_of_not_isKeyed he,
      Members.insert_insert]

/-- **What other elements select is as before.** Members of other names are not touched, and in the
same list an entry with another text of a key is neither the one that is put nor the one whose place
it takes. -/
theorem found?_setFound_of_apart (hv : SelectedBy e v) (h : Apart e f) :
    found? (setFound e v ms) f = found? ms f := by
  rcases h with hne | ⟨hname, key, text, text', htext, htext', hne⟩
  · exact found?_congr (get?_setFound_of_ne (Ne.symm hne))
  · have he := isKeyed_of_get? htext
    have hf := isKeyed_of_get? htext'
    -- an entry that the one element selects has another text of a key of the other
    rw [found?_of_isKeyed hf, found?_of_isKeyed hf, ← hname, setFound_of_isKeyed he,
      entriesOf_insert]
    exact find?_setEntry_of_not (hv he) fun x hx => isEntryWith_eq_false htext htext' hne hx

/-! ### Steps -/

/-- The code looks for an entry from the front, and stops with an error at an item that is no
object. So what it finds is the first entry with the keys, and in front of it are objects only. -/
theorem findKeyed?_eq_some {i : Nat} (h : findKeyed? e xs = .ok (some (i, v))) :
    xs.findIdx? (isEntryWith e.keys) = some i ∧ xs[i]? = some v := by
  -- the scan counts from the element it stands at, so the index moves up by one with each element
  -- that is passed
  induction xs generalizing i with
  | nil => cases h
  | cons x xs ih =>
    cases x with
    | obj members =>
      rw [findKeyed?] at h
      rw [List.findIdx?_cons]
      have hx : isEntryWith e.keys (.obj members) = hasKeys members e.keys := rfl
      rw [hx]
      split at h
      · next hkeys =>
        obtain ⟨rfl, rfl⟩ := Prod.mk.inj (Option.some.inj (Except.ok.inj h))
        exact ⟨by rw [if_pos hkeys], rfl⟩
      · next hkeys =>
        obtain ⟨found, hfound, heq⟩ := map_eq_ok_iff.1 h
        obtain ⟨⟨j, y⟩, rfl, hpair⟩ := Option.map_eq_some_iff.1 heq
        obtain ⟨rfl, rfl⟩ := Prod.mk.inj hpair
        obtain ⟨hindex, hget⟩ := ih hfound
        exact ⟨by rw [if_neg hkeys, hindex]; rfl, hget⟩
    | _ => cases h

theorem findKeyed?_eq_none (h : findKeyed? e xs = .ok none) :
    xs.findIdx? (isEntryWith e.keys) = none := by
  induction xs with
  | nil => rfl
  | cons x xs ih =>
    cases x with
    | obj members =>
      rw [findKeyed?] at h
      rw [List.findIdx?_cons]
      have hx : isEntryWith e.keys (.obj members) = hasKeys members e.keys := rfl
      rw [hx]
      split at h
      · cases h
      · next hkeys =>
        obtain ⟨found, hfound, heq⟩ := map_eq_ok_iff.1 h
        obtain rfl := Option.map_eq_none_iff.1 heq
        rw [if_neg hkeys, ih hfound]
        rfl
    | _ => cases h

/-- What a write adds where an element selects nothing. -/
def fresh (below : Node) (e : Elem) : Json := if e.isKeyed then newEntry below e else .obj []

/-- A child is what an element selects, or something new if there is nothing. What is put in its
place is put where the element selects it. The places of the code, a member or an entry by its
number, are seen through by this. -/
structure ChildAt (ms : Object) (e : Elem) (c : Child) (below : Node) : Prop where
  value : found? ms e = some c.value ∨ found? ms e = none ∧ c.value = fresh below e
  put : ∀ v, c.slot.put c.members v = setFound e v ms

/-- An entry is added behind those that are there. -/
theorem childAt_added (he : e.isKeyed = true) (hxs : entriesOf ms (localName e.name) = xs)
    (hnone : xs.findIdx? (isEntryWith e.keys) = none) :
    ChildAt ms e ⟨Members.insert ms (localName e.name) (.arr (xs ++ [newEntry list e])),
      .entry (localName e.name) xs.length, newEntry list e⟩ list := by
  refine ⟨.inr ⟨?_, by rw [fresh, if_pos he]⟩, fun v => ?_⟩
  · rw [found?_of_isKeyed he, hxs, find?_of_findIdx?_eq_none hnone]
  · have hlist : get? (Members.insert ms (localName e.name) (.arr (xs ++ [newEntry list e])))
        (localName e.name) = some (.arr (xs ++ [newEntry list e])) := by
      rw [Members.get?_insert, if_pos rfl]
    have hset : (xs ++ [newEntry list e]).set xs.length v = xs ++ [v] := by
      rw [List.set_append_right _ _ (Nat.le_refl _), Nat.sub_self, List.set_cons_zero]
    rw [setFound_of_isKeyed he, hxs, setEntry_of_none hnone, ← hset]
    -- what is put takes the place of the entry that has been added
    simp only [Slot.put, hlist, Members.insert_insert]

theorem childAt_of_findOrCreate (he : e.isKeyed = true)
    (h : findOrCreate ms list e create = .ok (some c)) : ChildAt ms e c list := by
  unfold findOrCreate at h
  dsimp only at h
  split at h
  -- a list that is missing is added with the entry
  · next hmissing =>
    split at h
    · obtain rfl := Option.some.inj (Except.ok.inj h)
      exact childAt_added he (entriesOf_of_none hmissing) rfl
    · cases h
  · next xs hlist =>
    have hxs := entriesOf_of_get? hlist
    split at h
    · cases h
    · next i found hfound =>
      obtain rfl := Option.some.inj (Except.ok.inj h)
      obtain ⟨hindex, hget⟩ := findKeyed?_eq_some hfound
      refine ⟨.inl ?_, fun v => ?_⟩
      · rw [found?_of_isKeyed he, hxs, find?_of_findIdx? hindex, hget]
      · rw [setFound_of_isKeyed he, hxs, setEntry_of_some hindex]
        simp only [Slot.put, hlist]
    · next hnone =>
      split at h
      · obtain rfl := Option.some.inj (Except.ok.inj h)
        exact childAt_added he hxs (findKeyed?_eq_none hnone)
      · cases h
  · cases h

theorem childAt_of_findOrCreateMember (he : e.isKeyed = false)
    (h : findOrCreateMember ms e create = some c) : ChildAt ms e c below := by
  unfold findOrCreateMember at h
  dsimp only at h
  split at h
  · next x hx =>
    obtain rfl := Option.some.inj h
    refine ⟨.inl ?_, fun v => ?_⟩
    · rw [found?_of_not_isKeyed he, hx]
    · rw [setFound_of_not_isKeyed he]
      rfl
  · next hx =>
    split at h
    -- what is put takes the place of the container that has been added
    · obtain rfl := Option.some.inj h
      refine ⟨.inr ⟨?_, by rw [fresh, he]; rfl⟩, fun v => ?_⟩
      · rw [found?_of_not_isKeyed he, hx]
      · rw [setFound_of_not_isKeyed he]
        exact Members.insert_insert ms _ _ v
    · cases h

/-- A step goes to an entry if the element has keys. -/
theorem descend_of_isKeyed (hschema : childSchema n e = .ok below) (he : e.isKeyed = true) :
    descend ms n e create
      = (findOrCreate ms below e create).map fun found => found.map fun c => (c, below) := by
  unfold descend
  rw [hschema]
  simp only [bind, Except.bind, he, if_true]
  cases findOrCreate ms below e create <;> rfl

/-- A step goes to a member if the element has no keys. -/
theorem descend_of_not_isKeyed (hschema : childSchema n e = .ok below) (he : e.isKeyed = false) :
    descend ms n e create
      = .ok ((findOrCreateMember ms e create).map fun c => (c, below)) := by
  unfold descend
  rw [hschema]
  simp only [bind, Except.bind, he, Bool.false_eq_true, if_false]
  rfl

theorem descend_keyed_iff (hschema : childSchema n e = .ok below) (he : e.isKeyed = true) :
    descend ms n e create = .ok (some (c, below)) ↔
      findOrCreate ms below e create = .ok (some c) := by
  rw [descend_of_isKeyed hschema he, map_eq_ok_iff]
  constructor
  · rintro ⟨found, hfound, heq⟩
    obtain ⟨c', rfl, hpair⟩ := Option.map_eq_some_iff.1 heq
    rw [hfound, (Prod.mk.inj hpair).1]
  · exact fun h => ⟨some c, h, rfl⟩

/-- **What a step can do.** It goes to a child that the schema knows, which is what its element
selects or something new. -/
theorem descend_cases (h : descend ms n e create = .ok (some (c, below))) :
    childSchema n e = .ok below ∧ ChildAt ms e c below := by
  obtain ⟨child, hschema, hstep⟩ := bind_eq_ok_iff.1 h
  -- the two ways down, into a list and into a member, are each described by their own lemma
  cases he : e.isKeyed with
  | true =>
    simp only [he, if_true] at hstep
    obtain ⟨found, hfound, hstep⟩ := bind_eq_ok_iff.1 hstep
    obtain ⟨c', rfl, heq⟩ := Option.map_eq_some_iff.1 (Except.ok.inj hstep)
    obtain ⟨rfl, rfl⟩ := Prod.mk.inj heq
    exact ⟨hschema, childAt_of_findOrCreate he hfound⟩
  | false =>
    simp only [he, Bool.false_eq_true, if_false] at hstep
    obtain ⟨c', hfound, heq⟩ := Option.map_eq_some_iff.1 (Except.ok.inj hstep)
    obtain ⟨rfl, rfl⟩ := Prod.mk.inj heq
    exact ⟨hschema, childAt_of_findOrCreateMember he hfound⟩

/-- A step that adds nothing goes to what its element selects, and leaves the members as they
are. -/
theorem found?_of_descend (h : descend ms n e false = .ok (some (c, below))) :
    found? ms e = some c.value ∧ c.members = ms := by
  obtain ⟨hschema, -⟩ := descend_cases h
  cases he : e.isKeyed with
  | true =>
    rw [descend_keyed_iff hschema he] at h
    unfold findOrCreate at h
    dsimp only at h
    -- of the cases of the look-up only that of an entry is left
    split at h
    · cases h
    · next xs hlist =>
      split at h
      · cases h
      · next i found hfound =>
        obtain rfl := Option.some.inj (Except.ok.inj h)
        obtain ⟨hindex, hget⟩ := findKeyed?_eq_some hfound
        rw [found?_of_isKeyed he, entriesOf_of_get? hlist, find?_of_findIdx? hindex]
        exact ⟨hget, rfl⟩
      · cases h
    · cases h
  | false =>
    rw [descend_of_not_isKeyed hschema he] at h
    obtain ⟨c', hc', heq⟩ := Option.map_eq_some_iff.1 (Except.ok.inj h)
    obtain rfl := (Prod.mk.inj heq).1
    unfold findOrCreateMember at hc'
    dsimp only at hc'
    split at hc'
    · next x hx =>
      obtain rfl := Option.some.inj hc'
      exact ⟨by rw [found?_of_not_isKeyed he, hx], rfl⟩
    · cases hc'

/-- What a step of a write does: it opens what the element selects, or something new if there is
nothing. A value that is put there is what the element selects then, while elements apart from it
select the same as before. Later proofs go by these fields and not by how a step finds its place. -/
structure StepsTo (ms : Object) (n : Node) (e : Elem) (c : Child) (below : Node) : Prop where
  schema : childSchema n e = .ok below
  value : found? ms e = some c.value ∨ found? ms e = none ∧ c.value = fresh below e
  others : ∀ v key, key ≠ localName e.name → get? (c.slot.put c.members v) key = get? ms key
  selects : ∀ v, SelectedBy e v → found? (c.slot.put c.members v) e = some v
  apart : ∀ v f, SelectedBy e v → Apart e f → found? (c.slot.put c.members v) f = found? ms f
  /-- Putting back what has been there changes nothing. -/
  same : Sorted ms → found? ms e = some c.value → c.slot.put c.members c.value = ms

theorem ChildAt.stepsTo (h : ChildAt ms e c below) (hschema : childSchema n e = .ok below) :
    StepsTo ms n e c below where
  schema := hschema
  value := h.value
  others v key hne := by rw [h.put, get?_setFound_of_ne hne]
  selects v hv := by rw [h.put, found?_setFound hv]
  apart v f hv hapart := by rw [h.put, found?_setFound_of_apart hv hapart]
  same hs hfound := by rw [h.put, setFound_found hs hfound]

theorem stepsTo_of_descend (h : descend ms n e create = .ok (some (c, below))) :
    StepsTo ms n e c below :=
  (descend_cases h).2.stepsTo (descend_cases h).1

/-- A change below a path goes through one step: it opens a child that is an object, makes the
change there, and puts the object back. -/
theorem modifyAt_cons {β : Type} {g : Object → Node → β × Object} {out : β} {rest : List Elem}
    (h : modifyAt create g (e :: rest) ms n = .ok (out, ms')) :
    ∃ c below inner inner', descend ms n e create = .ok (some (c, below)) ∧ c.value = .obj inner ∧
      modifyAt create g rest inner below = .ok (out, inner') ∧
      ms' = c.slot.put c.members (.obj inner') := by
  rw [modifyAt] at h
  split at h
  · cases h
  · cases h
  · next c below hstep =>
    split at h
    · next inner hvalue =>
      obtain ⟨⟨out', inner'⟩, hinner, heq⟩ := map_eq_ok_iff.1 h
      obtain ⟨rfl, rfl⟩ := Prod.mk.inj heq
      exact ⟨c, below, inner, inner', hstep, hvalue, hinner, rfl⟩
    · cases h

end ConfigTree.Tree
