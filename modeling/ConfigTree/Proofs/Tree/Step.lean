import ConfigTree.Tree.Delete
import ConfigTree.Proofs.Schema.Formed
import ConfigTree.Proofs.Tree.Found

/-!
# Steps in a tree of the right form

Where lists are arrays of objects, a step goes to what its element selects. If it selects nothing, a
step that may add something goes to what it adds, and any other step goes nowhere. So each operation
that goes down a path has one equation for a step, in terms of what the first element selects.

* `descend_of_found`, `descend_of_missing`, `descend_create`: where a step goes.
* `modifyAt_of_found`, `prune_of_found`: a change below a path, and pruning along it.
* `formed_setFound`, `formed_addFound`: setting what an element selects keeps the form of a tree.
* `exists_modifyAt_iff`: a change that adds nothing is made just where a look-up finds an object.
* `formed_modifyAt`, `formed_prune`: changes and pruning keep the form of a tree.
-/

namespace ConfigTree.Tree

open ConfigTree.Path (Elem)
open Members (get? Sorted)
open Schema (Node)
open Schema.Node (Form Formed Stands keyTuple)

variable {F : Form} {n below child m : Node} {entry : Bool} {e : Elem}
  {elems rest : List Elem} {ms ms' inner inner' : Object} {xs : List Json} {v w : Json}
  {create : Bool}

/-! ### Lists of objects -/

/-- What an element with keys names is an array of objects, if it is there. This is all that a step
needs of the form of a tree: a step that meets anything else fails, and a look-up, which does not
look at what is no entry, would tell nothing of it. -/
def NamesList (ms : Object) (e : Elem) : Prop :=
  e.isKeyed = true → ∀ w, get? ms (localName e.name) = some w →
    ∃ xs, w = .arr xs ∧ ∀ x ∈ xs, ∃ inner, x = .obj inner

theorem exists_list_of_childSchema (hschema : childSchema n e = .ok below)
    (he : e.isKeyed = true) : ∃ home keys children, below = .list home keys children := by
  have hchild := child?_of_childSchema hschema
  cases hlist : below.isList with
  | true => exact Node.exists_list_of_isList hlist
  | false =>
    simp only [childSchema, hchild, he, hlist, Bool.not_false, Bool.and_true, if_true] at hschema
    cases hschema

/-- The schema is asked for the child before anything else, and has one way of not knowing it. -/
theorem childSchema_error {err : TreeError} (h : childSchema n e = .error err) :
    ∃ place, err = .noSchemaNode place := by
  unfold childSchema at h
  split at h
  · exact ⟨_, (Except.error.inj h).symm⟩
  · split at h
    · exact ⟨_, (Except.error.inj h).symm⟩
    · cases h

/-- Where lists are arrays, what the schema has as a list is one. -/
theorem NamesList.of_formed (h : Formed F n entry (.obj ms)) (hF : F.lists)
    (hschema : childSchema n e = .ok below) : NamesList ms e := by
  intro he w hw
  obtain ⟨home, keys, children, rfl⟩ := exists_list_of_childSchema hschema he
  have hlist := h.member (child?_of_childSchema hschema) hw
  obtain ⟨xs, rfl⟩ := hlist.eq_arr hF rfl
  exact ⟨xs, rfl, fun x hx => ((Schema.Node.formed_list_iff.1 hlist).1 x hx).eq_obj .list⟩

/-- In a list of objects the look-up of an entry does not fail, and is that of the first one with
the keys. -/
theorem findKeyed?_eq (h : ∀ x ∈ xs, ∃ ms, x = .obj ms) : findKeyed? e xs =
    .ok ((xs.findIdx? (isEntryWith e.keys)).bind fun i => xs[i]?.map fun x => (i, x)) := by
  -- the scan fails at an element that is no object before it gets to the entry, which is excluded
  -- here
  induction xs with
  | nil => rfl
  | cons x xs ih =>
    obtain ⟨⟨ms, rfl⟩, hxs⟩ := List.forall_mem_cons.1 h
    rw [findKeyed?, List.findIdx?_cons]
    have hx : isEntryWith e.keys (.obj ms) = hasKeys ms e.keys := rfl
    rw [hx]
    split
    · rfl
    · rw [ih hxs]
      cases xs.findIdx? (isEntryWith e.keys) with
      | none => rfl
      | some i =>
        simp only [Option.bind_some, Option.map_some, List.getElem?_cons_succ]
        cases xs[i]? <;> rfl

/-- An entry that is found stands at the first place that has the keys. -/
theorem exists_findIdx?_of_find? {α : Type} {p : α → Bool} {items : List α} {x : α}
    (h : items.find? p = some x) : ∃ i, items.findIdx? p = some i ∧ items[i]? = some x := by
  cases hindex : items.findIdx? p with
  | some i => exact ⟨i, rfl, by rw [← find?_of_findIdx? hindex, h]⟩
  | none => cases h.symm.trans (find?_of_findIdx?_eq_none hindex)

theorem findIdx?_eq_none_of_find? {α : Type} {p : α → Bool} {items : List α}
    (h : items.find? p = none) : items.findIdx? p = none :=
  List.findIdx?_eq_none_iff.2 fun x hx => by simpa using List.find?_eq_none.1 h x hx

/-- The list that an entry has been found in. -/
theorem exists_arr_of_found (he : e.isKeyed = true) (h : found? ms e = some v) :
    ∃ xs i, get? ms (localName e.name) = some (.arr xs) ∧
      xs.findIdx? (isEntryWith e.keys) = some i ∧ xs[i]? = some v := by
  rw [found?_of_isKeyed he] at h
  obtain ⟨i, hindex, hget⟩ := exists_findIdx?_of_find? h
  unfold entriesOf at hindex hget
  cases hw : get? ms (localName e.name) with
  | none => simp [hw] at hget
  | some w =>
    cases w with
    | arr xs =>
      rw [hw] at hindex hget
      exact ⟨xs, i, rfl, hindex, hget⟩
    | _ => simp [hw, Json.arr?] at hget

/-! ### Keys -/

/-- The keys that an entry has are as before. A change inside an entry must not make it another
entry; what it does to members that are no keys does not matter here. -/
def KeepsKeys (n : Node) (cs cs' : Object) : Prop :=
  ∀ keys, n.listKeys? = some keys → ∀ key ∈ keys, get? cs' key = get? cs key

theorem KeepsKeys.keyTuple {keys : List String} (h : KeepsKeys n inner inner')
    (hkeys : n.listKeys? = some keys) :
    Node.keyTuple keys (.obj inner') = Node.keyTuple keys (.obj inner) := by
  rw [Node.keyTuple, Node.keyTuple, List.map_inj_left]
  intro key hkey
  exact congrArg (Option.map keyString) (h keys hkeys key hkey)

/-- An entry that has its keys as before has those of an element as before. -/
theorem KeepsKeys.hasKeys (h : KeepsKeys below inner inner') (howns : below.OwnsKeys e)
    (hinner : hasKeys inner e.keys = true) : hasKeys inner' e.keys = true := by
  rw [hasKeys_iff] at hinner ⊢
  intro key hkey
  have he := isKeyed_of_get? (Members.get?_of_mem e.sorted hkey)
  obtain ⟨home, keys, children, rfl⟩ := exists_list_of_ownsKeys howns he
  rw [h keys rfl key.1 (howns key hkey)]
  exact hinner key hkey

/-- A child that has members is no key, since keys are leaves. So a change that goes further down
than this child leaves the keys of the entry alone. -/
theorem keepsKeys_of_child {children : List (String × Node)} (hkeyed : n.KeyedAt)
    (hchild : n.child? e.name = some child) (hbelow : child.children? = some children)
    (h : ∀ key, key ≠ localName e.name → get? ms' key = get? ms key) : KeepsKeys n ms ms' := by
  intro keys hkeys key hkey
  obtain ⟨siblings, hn, hname⟩ := get?_of_child? hchild
  obtain ⟨home, kind, hleaf⟩ := (hkeyed keys siblings hkeys hn).2 key hkey
  refine h key fun heq => ?_
  obtain rfl := Option.some.inj (hname.symm.trans (heq ▸ hleaf))
  cases hbelow

/-! ### One step -/

/-- **A step goes to what its element selects.** What is put in the place that it gives is put where
the element selects it. -/
theorem descend_of_found (hschema : childSchema n e = .ok below) (hlist : NamesList ms e)
    (hfound : found? ms e = some v) (create : Bool) : ∃ slot,
      descend ms n e create = .ok (some (⟨ms, slot, v⟩, below)) ∧
      ∀ w, slot.put ms w = setFound e w ms := by
  obtain ⟨slot, hstep⟩ : ∃ slot, descend ms n e create = .ok (some (⟨ms, slot, v⟩, below)) := by
    cases he : e.isKeyed with
    | true =>
      -- the step looks through the entries itself, and they are all objects
      obtain ⟨xs, i, hw, hindex, hget⟩ := exists_arr_of_found he hfound
      obtain ⟨_, heq, hobjs⟩ := hlist he _ hw
      obtain rfl := Json.arr.inj heq
      refine ⟨.entry (localName e.name) i, (descend_keyed_iff hschema he).2 ?_⟩
      simp only [findOrCreate, hw, findKeyed?_eq hobjs, hindex, Option.bind_some, hget,
        Option.map_some]
    | false =>
      rw [found?_of_not_isKeyed he] at hfound
      refine ⟨.member (localName e.name), ?_⟩
      rw [descend_of_not_isKeyed hschema he]
      simp only [findOrCreateMember, hfound, Option.map_some]
  exact ⟨slot, hstep, (descend_cases hstep).2.put⟩

/-- A step that adds nothing goes nowhere if its element selects nothing. -/
theorem descend_of_missing (hschema : childSchema n e = .ok below) (hlist : NamesList ms e)
    (hfound : found? ms e = none) : descend ms n e false = .ok none := by
  cases he : e.isKeyed with
  | true =>
    rw [descend_of_isKeyed hschema he]
    rw [found?_of_isKeyed he] at hfound
    cases hw : get? ms (localName e.name) with
    | none => simp [findOrCreate, hw, Except.map]
    | some w =>
      obtain ⟨xs, rfl, hobjs⟩ := hlist he w hw
      rw [entriesOf_of_get? hw] at hfound
      simp [findOrCreate, hw, findKeyed?_eq hobjs, findIdx?_eq_none_of_find? hfound, Except.map]
  | false =>
    rw [descend_of_not_isKeyed hschema he]
    rw [found?_of_not_isKeyed he] at hfound
    simp [findOrCreateMember, hfound]

/-- **A step that may add something goes somewhere.** With the above, a write can only fail for the
schema, for what it finds at the end, or for what its path takes for an object. -/
theorem descend_create (hschema : childSchema n e = .ok below) (hlist : NamesList ms e) :
    ∃ c, descend ms n e true = .ok (some (c, below)) := by
  cases hfound : found? ms e with
  | some v =>
    obtain ⟨slot, hstep, -⟩ := descend_of_found hschema hlist hfound true
    exact ⟨_, hstep⟩
  | none =>
    cases he : e.isKeyed with
    | true =>
      rw [found?_of_isKeyed he] at hfound
      rw [descend_of_isKeyed hschema he]
      -- no array yet, or one without the entry: either is filled in, since `NamesList` excludes
      -- everything else
      cases hw : get? ms (localName e.name) with
      | none =>
        simp only [findOrCreate, hw, if_true]
        exact ⟨_, rfl⟩
      | some w =>
        obtain ⟨xs, rfl, hobjs⟩ := hlist he w hw
        rw [entriesOf_of_get? hw] at hfound
        simp only [findOrCreate, hw, findKeyed?_eq hobjs, findIdx?_eq_none_of_find? hfound,
          Option.bind_none, if_true]
        exact ⟨_, rfl⟩
    | false =>
      rw [found?_of_not_isKeyed he] at hfound
      rw [descend_of_not_isKeyed hschema he]
      simp only [findOrCreateMember, hfound, if_true, Option.map_some]
      exact ⟨_, rfl⟩

/-! ### Changes below a path -/

section

variable {β : Type} {f : Object → Node → β × Object} {out : β}

/-- **One step of a change below a path**, into an object that is there. The change fails just as it
fails further down. -/
theorem modifyAt_of_found (hschema : childSchema n e = .ok below) (hlist : NamesList ms e)
    (hfound : found? ms e = some (.obj inner)) (create : Bool) (rest : List Elem) :
    modifyAt create f (e :: rest) ms n = (modifyAt create f rest inner below).map
      fun (out, inner') => (out, setFound e (.obj inner') ms) := by
  obtain ⟨slot, hstep, hput⟩ := descend_of_found hschema hlist hfound create
  simp only [modifyAt, hstep, hput]

/-- A change that adds nothing goes down to objects that are there. -/
theorem exists_found_of_modifyAt (h : modifyAt false f (e :: rest) ms n = .ok (out, ms')) :
    ∃ below inner inner', childSchema n e = .ok below ∧ found? ms e = some (.obj inner) ∧
      modifyAt false f rest inner below = .ok (out, inner') ∧
      ms' = setFound e (.obj inner') ms := by
  obtain ⟨c, below, inner, inner', hstep, hvalue, hinner, rfl⟩ := modifyAt_cons h
  obtain ⟨hschema, hat⟩ := descend_cases hstep
  exact ⟨below, inner, inner', hschema, hvalue ▸ (found?_of_descend hstep).1, hinner, hat.put _⟩

end

/-! ### Pruning -/

/-- **One step of pruning**, into an object that is there. A container that has become empty goes;
an entry stays, even an empty one. -/
theorem prune_of_found (hschema : childSchema n e = .ok below) (hlist : NamesList ms e)
    (hfound : found? ms e = some (.obj inner)) (rest : List Elem) :
    prune (e :: rest) ms n = (prune rest inner below).map fun inner' =>
      if inner'.isEmpty && !e.isKeyed then Members.erase ms (localName e.name)
      else setFound e (.obj inner') ms := by
  obtain ⟨slot, hstep, hput⟩ := descend_of_found hschema hlist hfound false
  rw [prune, hstep]
  simp only [bind, Except.bind]
  cases prune rest inner below with
  | error err => rfl
  | ok inner' =>
    simp only [Except.map, hput]
    split <;> rfl

/-- Where an element selects no object there is nothing to prune. -/
theorem prune_of_not_found (hschema : childSchema n e = .ok below) (hlist : NamesList ms e)
    (hfound : ∀ inner, found? ms e ≠ some (.obj inner)) (rest : List Elem) :
    prune (e :: rest) ms n = .ok ms := by
  rw [prune]
  cases hv : found? ms e with
  | none =>
    rw [descend_of_missing hschema hlist hv]
    rfl
  | some v =>
    obtain ⟨slot, hstep, -⟩ := descend_of_found hschema hlist hv false
    rw [hstep]
    cases v with
    | obj inner => exact absurd hv (hfound inner)
    | _ => rfl

/-- What one step of pruning comes to, with no form asked of the tree: nothing changes, or one child
is taken out or put back after pruning it. -/
theorem prune_cons (h : prune (e :: rest) ms n = .ok ms') : ms' = ms ∨
    ∃ below inner inner', childSchema n e = .ok below ∧ found? ms e = some (.obj inner) ∧
      prune rest inner below = .ok inner' ∧
      (ms' = Members.erase ms (localName e.name) ∨ ms' = setFound e (.obj inner') ms) := by
  obtain ⟨found, hstep, h⟩ := bind_eq_ok_iff.1 h
  -- either there is an object to go into, or the data is left as it is
  split at h
  · next slot inner below =>
    obtain ⟨inner', hinner, h⟩ := bind_eq_ok_iff.1 h
    obtain ⟨hschema, hat⟩ := descend_cases hstep
    obtain ⟨hfound, rfl⟩ := found?_of_descend hstep
    refine .inr ⟨below, inner, inner', hschema, hfound, hinner, ?_⟩
    split at h
    · exact .inl (Except.ok.inj h).symm
    · exact .inr ((Except.ok.inj h).symm.trans (hat.put _))
  · exact .inl (Except.ok.inj h).symm

/-! ### The form of a tree -/

/-- The entries of a list have its form, and what is no array has none. -/
theorem formed_entriesOf {home : Option String} {keys : List String}
    {children : List (String × Node)} (h : Formed F n entry (.obj ms))
    (hchild : n.child? e.name = some (.list home keys children)) :
    Formed F (.list home keys children) false (.arr (entriesOf ms (localName e.name))) := by
  have hnil : Formed F (.list home keys children) false (.arr []) :=
    .list (fun x hx => absurd hx List.not_mem_nil) (fun _ x hx => absurd hx List.not_mem_nil)
      fun _ => List.nodup_nil
  unfold entriesOf
  cases hget : get? ms (localName e.name) with
  | none => exact hnil
  | some w =>
    cases w with
    | arr xs => exact h.member hchild hget
    | _ => exact hnil

/-- What an element selects has the form of the child. -/
theorem formed_found (h : Formed F n entry (.obj ms)) (hschema : childSchema n e = .ok below)
    (hfound : found? ms e = some v) : Formed F below e.isKeyed v := by
  have hchild := child?_of_childSchema hschema
  cases he : e.isKeyed with
  | true =>
    obtain ⟨home, keys, children, rfl⟩ := exists_list_of_childSchema hschema he
    rw [found?_of_isKeyed he] at hfound
    exact (Schema.Node.formed_list_iff.1 (formed_entriesOf h hchild)).1 v
      (List.mem_of_find?_eq_some hfound)
  | false =>
    rw [found?_of_not_isKeyed he] at hfound
    exact h.member hchild hfound

/-- What is found is known to the schema, with keys or without: values have no entries, even where a
value is an array. -/
theorem exists_childSchema_of_found (h : Formed F n entry (.obj ms))
    (hfound : found? ms e = some v) : ∃ below, childSchema n e = .ok below := by
  obtain ⟨w, hw, hv⟩ := Option.bind_eq_some_iff.1 hfound
  obtain ⟨child, hchild, hformed⟩ := h.exists_child hw
  refine ⟨child, ?_⟩
  unfold childSchema
  rw [hchild]
  cases he : e.isKeyed with
  | false => rfl
  | true =>
    -- the entry that is found is an object in an array
    rw [he, if_pos rfl] at hv
    have hentry := List.find?_some hv
    have hmem := List.mem_of_find?_eq_some hv
    cases hformed with
    | value shape flat =>
      cases w with
      | arr xs =>
        have hplain := List.all_eq_true.1 flat v hmem
        cases v with
        | obj inner => cases hplain
        | _ => cases hentry
      | _ => cases hmem
    | object => cases hmem
    | list => rfl

/-- **What is found in a tree of a form has the form at its node.** Whether it is an entry is told
by the last element of the path. -/
theorem exists_formed_of_lookup (h : Formed F n entry w)
    (hlookup : lookup elems w n = .ok (some (v, m))) : ∃ entry, Formed F m entry v := by
  induction elems generalizing n entry w with
  | nil =>
    obtain ⟨rfl, rfl⟩ := Prod.mk.inj (Option.some.inj (Except.ok.inj hlookup))
    exact ⟨entry, h⟩
  | cons e elems ih =>
    obtain ⟨ms, rfl⟩ := exists_obj_of_lookup hlookup
    obtain ⟨x, below, hschema, hfound, hrest⟩ := exists_found_of_lookup hlookup
    exact ih (formed_found h hschema hfound) hrest

/-- Setting what an element selects keeps the form of a tree, if an entry keeps its keys. Where
entries are not told apart by keys, nothing is asked of them. -/
theorem formed_setFound (h : Formed F n entry (.obj ms)) (hschema : childSchema n e = .ok below)
    (hfound : found? ms e = some v) (hw : Formed F below e.isKeyed w)
    (hkeys : F.keys → ∀ keys, below.listKeys? = some keys → keyTuple keys w = keyTuple keys v) :
    Formed F n entry (.obj (setFound e w ms)) := by
  have hchild := child?_of_childSchema hschema
  cases he : e.isKeyed with
  -- the array is one entry different, and its keys must stay pairwise different where the form asks
  -- for that
  | true =>
    obtain ⟨xs, i, hget, hindex, hv⟩ := exists_arr_of_found he hfound
    obtain ⟨home, keys, children, rfl⟩ := exists_list_of_childSchema hschema he
    have hlist := h.member hchild hget
    rw [setFound_of_isKeyed he, entriesOf_of_get? hget, setEntry_of_some hindex]
    exact h.insert hchild (hlist.set hv (he ▸ hw) fun hk => hkeys hk keys rfl)
  | false =>
    rw [setFound_of_not_isKeyed he]
    exact h.insert hchild (he ▸ hw)

/-- So does setting what an element selects that has selected nothing, if it has all keys. The new
entry has the keys by which nothing was found, and is different from all others by that. -/
theorem formed_addFound (h : Formed F n entry (.obj ms)) (hschema : childSchema n e = .ok below)
    (hfound : found? ms e = none) (hinner : Formed F below e.isKeyed (.obj inner))
    (hkeys : F.keys → e.isKeyed = true → hasKeys inner e.keys = true ∧ below.OwnsKeys e ∧
      Full below e) : Formed F n entry (.obj (setFound e (.obj inner) ms)) := by
  have hchild := child?_of_childSchema hschema
  cases he : e.isKeyed with
  | true =>
    rw [he] at hinner
    rw [found?_of_isKeyed he] at hfound
    rw [setFound_of_isKeyed he, setEntry_of_none (findIdx?_eq_none_of_find? hfound)]
    obtain ⟨home, keys, children, rfl⟩ := exists_list_of_childSchema hschema he
    have hlist := formed_entriesOf h hchild
    refine h.insert hchild (hlist.concat hinner (fun hk => ?_) fun hk hmem => ?_)
    · obtain ⟨hhas, -, hfull⟩ := hkeys hk he
      exact hfull.none_not_mem hhas
    · -- an entry with these keys would have been found
      obtain ⟨hhas, howns, -⟩ := hkeys hk he
      obtain ⟨x, hx, hsame⟩ := List.mem_map.1 hmem
      obtain ⟨old, rfl⟩ := ((Schema.Node.formed_list_iff.1 hlist).1 x hx).eq_obj .list
      exact List.find?_eq_none.1 hfound _ hx (hasKeys_of_keyTuple howns hsame hhas)
  | false =>
    rw [setFound_of_not_isKeyed he]
    exact h.insert hchild (he ▸ hinner)

/-! ### Changes of trees of a form -/

section

variable {β : Type} {f : Object → Node → β × Object} {out : β}

/-- **A change that adds nothing is made just where a look-up finds an object.** So what a deletion
can reach is what a get can see. -/
theorem exists_modifyAt_iff (h : Formed F n entry (.obj ms)) (hF : F.lists) :
    (∃ ms', modifyAt false f elems ms n = .ok (out, ms')) ↔
      ∃ inner m, lookup elems (.obj ms) n = .ok (some (.obj inner, m)) ∧ (f inner m).1 = out := by
  induction elems generalizing n entry ms with
  | nil =>
    constructor
    · rintro ⟨ms', hmodify⟩
      exact ⟨ms, n, rfl, congrArg Prod.fst (Except.ok.inj hmodify)⟩
    · rintro ⟨inner, m, hlookup, rfl⟩
      obtain ⟨heq, rfl⟩ := Prod.mk.inj (Option.some.inj (Except.ok.inj hlookup))
      obtain rfl := Json.obj.inj heq
      exact ⟨_, rfl⟩
  | cons e elems ih =>
    constructor
    · rintro ⟨ms', hmodify⟩
      obtain ⟨below, inner, inner', hschema, hfound, hinner, -⟩ :=
        exists_found_of_modifyAt hmodify
      rw [lookup_cons_of_found hschema hfound]
      exact (ih (formed_found h hschema hfound)).1 ⟨inner', hinner⟩
    · rintro ⟨inner, m, hlookup, hout⟩
      obtain ⟨v, below, hschema, hfound, hrest⟩ := exists_found_of_lookup hlookup
      have hlist := NamesList.of_formed h hF hschema
      -- the look-up goes on in an object, or ends in one
      obtain ⟨here, rfl⟩ : ∃ here, v = .obj here := by
        cases elems with
        | nil => exact ⟨inner, (Prod.mk.inj (Option.some.inj (Except.ok.inj hrest))).1⟩
        | cons => exact exists_obj_of_lookup hrest
      obtain ⟨inner', hinner⟩ :=
        (ih (formed_found h hschema hfound)).2 ⟨inner, m, hrest, hout⟩
      rw [modifyAt_of_found hschema hlist hfound, hinner]
      exact ⟨_, rfl⟩

/-- What is added for an element has a form, and has the keys by which the element selects it. It is
asked of whatever a write may add, whether or not it is missing in the tree. -/
structure AddsAt (F : Form) (below : Node) (e : Elem) : Prop where
  formed : Formed F below e.isKeyed (fresh below e)
  keys : F.keys → below.OwnsKeys e ∧ SelectedBy e (fresh below e) ∧
    (e.isKeyed = true → Full below e)

/-- What is added along a path has a form. -/
def Adds (F : Form) : Node → List Elem → Prop
  | _, [] => True
  | n, e :: rest => ∀ below, childSchema n e = .ok below → AddsAt F below e ∧ Adds F below rest

/-- **One step of a change.** What it goes to has the form of the child, and if it is changed to
what has the form and the same keys, the node keeps its form. The cases are what a step can go to:
what is there, and what has been added. -/
theorem formed_descend {c : Child} (h : Formed F n entry (.obj ms))
    (hstep : descend ms n e create = .ok (some (c, below))) (hvalue : c.value = .obj inner)
    (hadds : create = true → AddsAt F below e) : Formed F below e.isKeyed (.obj inner) ∧
      ∀ inner', Formed F below e.isKeyed (.obj inner') → (F.keys → KeepsKeys below inner inner') →
        Formed F n entry (.obj (setFound e (.obj inner') ms)) := by
  obtain ⟨hschema, hat⟩ := descend_cases hstep
  cases hfound : found? ms e with
  | some v =>
    -- what is found is put back, with the same keys
    obtain rfl : v = .obj inner := by
      rcases hat.value with hc | ⟨hnone, -⟩
      · exact Option.some.inj (hfound.symm.trans (hvalue ▸ hc))
      · cases hfound.symm.trans hnone
    exact ⟨formed_found h hschema hfound, fun inner' hinner' hkeeps =>
      formed_setFound h hschema hfound hinner' fun hk _ hkeys => (hkeeps hk).keyTuple hkeys⟩
  | none =>
    -- what is missing has been added, which only a step that may add does
    obtain ⟨hcreate, hfresh⟩ : create = true ∧ fresh below e = .obj inner := by
      rcases hat.value with hc | ⟨-, hc⟩
      · cases hfound.symm.trans hc
      · cases create with
        | true => exact ⟨rfl, hc.symm.trans hvalue⟩
        | false => cases hfound.symm.trans (found?_of_descend hstep).1
    obtain ⟨hadd, hkeys⟩ := hadds hcreate
    rw [hfresh] at hadd hkeys
    refine ⟨hadd, fun inner' hinner' hkeeps =>
      formed_addFound h hschema hfound hinner' fun hk he => ?_⟩
    obtain ⟨howns, hselected, hfull⟩ := hkeys hk
    exact ⟨(hkeeps hk).hasKeys howns (hselected he), howns, hfull he⟩

/-- **A change keeps the form of a tree if it keeps that of the node that it changes**, and the keys
of that node if it is an entry. What is added on the way has to have the form too. The induction on
the path carries both, because a step puts back an entry that has to be told apart as before. -/
theorem formed_modifyAt (hkeyed : n.Everywhere Node.KeyedAt) (h : Formed F n entry (.obj ms))
    (hadds : create = true → Adds F n elems)
    (hmodify : modifyAt create f elems ms n = .ok (out, ms'))
    (hf : ∀ m entry inner inner', n.below? elems = some m → Formed F m entry (.obj inner) →
      f inner m = (out, inner') →
        Formed F m entry (.obj inner') ∧ (F.keys → KeepsKeys m inner inner')) :
    Formed F n entry (.obj ms') ∧ (F.keys → KeepsKeys n ms ms') := by
  induction elems generalizing n entry ms ms' with
  | nil => exact hf n entry ms ms' rfl h (Except.ok.inj hmodify)
  | cons e elems ih =>
    obtain ⟨c, below, inner, inner', hstep, hvalue, hinner, rfl⟩ := modifyAt_cons hmodify
    obtain ⟨hschema, hat⟩ := descend_cases hstep
    have hchild := child?_of_childSchema hschema
    obtain ⟨children, hn, hname⟩ := get?_of_child? hchild
    obtain ⟨hold, hput⟩ := formed_descend h hstep hvalue fun hc => (hadds hc below hschema).1
    obtain ⟨hformed, hkeeps⟩ := ih (hkeyed.child hn hname) hold
      (fun hc => (hadds hc below hschema).2) hinner fun m entry inner inner' hm =>
        hf m entry inner inner' (by rw [Node.below?_cons hchild, hm])
    -- the child has members, so it is no key
    obtain ⟨_, hmembers⟩ := hold.exists_children
    rw [hat.put]
    exact ⟨hput inner' hformed hkeeps, fun _ =>
      keepsKeys_of_child hkeyed.here hchild hmembers fun _ => get?_setFound_of_ne⟩

end

/-- **Pruning keeps the form of a tree.** It only takes out children that have members, and those
are no keys. -/
theorem formed_prune (hkeyed : n.Everywhere Node.KeyedAt) (h : Formed F n entry (.obj ms))
    (hprune : prune elems ms n = .ok ms') :
    Formed F n entry (.obj ms') ∧ (F.keys → KeepsKeys n ms ms') := by
  induction elems generalizing n entry ms ms' with
  | nil =>
    obtain rfl := Except.ok.inj hprune
    exact ⟨h, fun _ _ _ _ _ => rfl⟩
  | cons e elems ih =>
    rcases prune_cons hprune with rfl | ⟨below, inner, inner', hschema, hfound, hinner, hms'⟩
    · exact ⟨h, fun _ _ _ _ _ => rfl⟩
    have hchild := child?_of_childSchema hschema
    obtain ⟨children, hn, hname⟩ := get?_of_child? hchild
    have hbelow := formed_found h hschema hfound
    obtain ⟨hformed, hkeeps⟩ := ih (hkeyed.child hn hname) hbelow hinner
    -- the child has members, so it is no key, and it may go or stay
    obtain ⟨_, hmembers⟩ := hbelow.exists_children
    rcases hms' with rfl | rfl
    · exact ⟨h.erase _, fun _ => keepsKeys_of_child hkeyed.here hchild hmembers
        fun key hne => by rw [Members.get?_erase, if_neg (Ne.symm hne)]⟩
    · exact ⟨formed_setFound h hschema hfound hformed fun hk _ hkeys =>
        (hkeeps hk).keyTuple hkeys,
        fun _ => keepsKeys_of_child hkeyed.here hchild hmembers fun _ => get?_setFound_of_ne⟩

/-- Pruning fails only where the schema does not know the path. -/
theorem prune_error {err : TreeError} (h : Formed F n entry (.obj ms)) (hF : F.lists)
    (hprune : prune elems ms n = .error err) : ∃ place, err = .noSchemaNode place := by
  induction elems generalizing n entry ms with
  | nil => cases hprune
  | cons e elems ih =>
    cases hschema : childSchema n e with
    | error err' =>
      rw [prune, descend, hschema] at hprune
      obtain rfl := Except.error.inj hprune
      exact childSchema_error hschema
    | ok below =>
      -- pruning goes on in an object, and stops without an error where there is none
      have hlist := NamesList.of_formed h hF hschema
      by_cases hfound : ∃ inner, found? ms e = some (.obj inner)
      · obtain ⟨inner, hfound⟩ := hfound
        rw [prune_of_found hschema hlist hfound, map_eq_error_iff] at hprune
        exact ih (formed_found h hschema hfound) hprune
      · rw [prune_of_not_found hschema hlist (not_exists.1 hfound)] at hprune
        cases hprune

end ConfigTree.Tree
