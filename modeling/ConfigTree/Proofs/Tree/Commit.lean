import ConfigTree.Proofs.Tree.Create
import ConfigTree.Proofs.Tree.Lookup

/-!
# Changes that are committed

A write changes the node at the end of its path and leaves all else in its held form, but for the
keys of new entries, which are as the path gives them. The commit brings the whole tree into its
held form. What a path finds then is told by the change alone, whatever stands below the path.

* `ChangesAt`: a change of the node at the end of a path, step by step.
* `HeldInside`: the children of a node that have members are in their held form.
* `HoldsKeys`: the keys of an element will be found in an entry once it is in its held form.
* `AddsStored`: the keys of the entries that a path adds are in stored form.
* `ChangesAt.lookup_cases`: after the commit a path goes on from what the change has left at its
  end, or leads nowhere, and which of these is told by `AddsStored`.
* `found?_setFound_eq_none`: an entry that does not have the keys it has been put in place for
  leaves none that has them.
-/

namespace ConfigTree.Tree

open ConfigTree.Path (Elem)
open Members (get? Sorted)
open Schema (Node)
open Schema.Node (Stands keyTuple)

variable {n m below child list : Node} {entry : Bool} {e : Elem} {elems tail : List Elem}
  {ms ms' inner inner' here here' cs : Object} {xs ys : List Json} {v w c : Json}
  {keys : List (String × String)} {children : List (String × Node)}

/-- The node that the last element of a path names. -/
theorem child?_of_below? {above : List Elem} (hm : n.below? above = some m)
    (hlist : n.below? (above ++ [e]) = some list) : m.child? e.name = some list := by
  rw [Node.below?_append, hm, Option.bind_some] at hlist
  obtain ⟨child, hchild, heq⟩ := Option.bind_eq_some_iff.1 hlist
  rw [hchild]
  exact heq

/-- The keys of the last element of a path fit. -/
theorem Addresses.keysFit {above : List Elem} (h : Addresses n (above ++ [e]))
    (hlist : n.below? (above ++ [e]) = some list) (he : e.isKeyed = true) : KeysFit list e := by
  cases hm : n.below? above with
  | none =>
    rw [Node.below?_append, hm] at hlist
    cases hlist
  | some m =>
    obtain ⟨child, hchild, hkeys, -⟩ := h.of_append hm
    obtain rfl := Option.some.inj (hchild.symm.trans (child?_of_below? hm hlist))
    exact hkeys he

/-! ### Keys of a path -/

/-- The keys of an element are leaves of the node that it names. Of `KeysFit` this leaves out what
the texts are, so it holds of every path that the schema accepts. -/
def KeysNamed (list : Node) (e : Elem) : Prop :=
  ∀ key ∈ e.keys, localName key.1 = key.1 ∧ ∃ home kind, list.child? key.1 = some (.leaf home kind)

/-- A path leads from a node to another, and its keys are leaves there. -/
def Named : Node → List Elem → Prop
  | _, [] => True
  | n, e :: rest => ∃ child, n.child? e.name = some child ∧ KeysNamed child e ∧ Named child rest

theorem KeysNamed.of_keysFit (h : e.isKeyed = true → KeysFit list e) : KeysNamed list e := by
  intro key hkey
  have he := isKeyed_of_get? (Members.get?_of_mem e.sorted hkey)
  obtain ⟨_, home, kind, -, -, hleaf, -⟩ := (h he).child? hkey
  obtain ⟨_, _, _, -, hfit⟩ := h he
  exact ⟨(hfit key hkey).2.1, home, kind, hleaf⟩

theorem Addresses.named (h : Addresses n elems) : Named n elems := by
  induction elems generalizing n with
  | nil => trivial
  | cons e elems ih =>
    obtain ⟨child, hchild, hkeys, hrest⟩ := h
    exact ⟨child, hchild, .of_keysFit hkeys, ih hrest⟩

/-- The keys of a path that has a node in the schema are leaves there. -/
theorem named_of_walk? {home : Option String} {found : Node × Option String}
    (hkeyed : n.Everywhere Node.KeyedAt) (hfree : n.Everywhere Schema.ColonFreeAt)
    (h : n.walk? home elems = some found) : Named n elems := by
  induction elems generalizing n home with
  | nil => trivial
  | cons e elems ih =>
    obtain ⟨child, hchild, howns, hrest⟩ := Node.walk?_cons h
    obtain ⟨siblings, hn, hname⟩ := get?_of_child? hchild
    have hkeyed' := hkeyed.child hn hname
    have hfree' := hfree.child hn hname
    refine ⟨child, hchild, fun key hkey => ?_, ih hkeyed' hfree' hrest⟩
    -- an element with a key is one of a list, whose keys are leaves of its own under their local
    -- names
    have he := isKeyed_of_get? (Members.get?_of_mem e.sorted hkey)
    obtain ⟨_, _, _, rfl⟩ := exists_list_of_ownsKeys howns he
    obtain ⟨-, hlocal, home', kind, -, hleaf⟩ :=
      exists_leaf_of_ownsKeys hkeyed'.here hfree'.here howns hkey
    exact ⟨hlocal, home', kind, hleaf⟩

/-- The keys of the last element of a path are leaves. -/
theorem Named.keysNamed {above : List Elem} (h : Named n (above ++ [e]))
    (hm : n.below? (above ++ [e]) = some m) : KeysNamed m e := by
  induction above generalizing n with
  | nil =>
    obtain ⟨child, hchild, hkeys, -⟩ := h
    rw [List.nil_append, Node.below?_cons hchild] at hm
    obtain rfl := Option.some.inj hm
    exact hkeys
  | cons f above ih =>
    obtain ⟨child, hchild, -, hrest⟩ := h
    rw [List.cons_append, Node.below?_cons hchild] at hm
    exact ih hrest hm

/-! ### Entries that are put in place -/

theorem setEntry_cons (x : Json) : setEntry keys v (x :: xs) =
    if isEntryWith keys x then v :: xs else x :: setEntry keys v xs := by
  unfold setEntry
  rw [List.findIdx?_cons]
  cases isEntryWith keys x with
  | true => rfl
  | false => cases xs.findIdx? (isEntryWith keys) <;> rfl

/-- Where only an entry that is put in place is related to another one than itself, the list is
related to the one with that other entry in place. This is for the commit, which relates a tree to
its held form: the entries around the changed one are in that form already. -/
theorem exists_eq_setEntry {R : Json → Json → Prop} (hxs : ∀ x ∈ xs, ∀ y, R x y → y = x)
    (h : List.Forall₂ R (setEntry keys v xs) ys) : ∃ y, R v y ∧ ys = setEntry keys y xs := by
  have heq : ∀ {xs ys : List Json}, (∀ x ∈ xs, ∀ y, R x y → y = x) → List.Forall₂ R xs ys →
      ys = xs := by
    intro xs ys hxs h
    induction h with
    | nil => rfl
    | cons hxy _ ih =>
      obtain ⟨hx, hxs⟩ := List.forall_mem_cons.1 hxs
      rw [hx _ hxy, ih hxs]
  -- the two arrays are followed up to the entry; past it `heq` says that nothing has changed
  induction xs generalizing ys with
  | nil =>
    cases h with
    | cons hv hnil =>
      cases hnil
      exact ⟨_, hv, rfl⟩
  | cons x xs ih =>
    obtain ⟨hx, hxs⟩ := List.forall_mem_cons.1 hxs
    rw [setEntry_cons] at h
    split at h
    · next hkeys =>
      cases h with
      | cons hv hrest => exact ⟨_, hv, by rw [setEntry_cons, if_pos hkeys, heq hxs hrest]⟩
    · next hkeys =>
      cases h with
      | cons hxy hrest =>
        obtain ⟨y, hv, hys⟩ := ih hxs hrest
        exact ⟨y, hv, by rw [setEntry_cons, if_neg hkeys, hx _ hxy, hys]⟩

/-- Of entries of which one at most has the keys, none has them once it has been replaced by an
entry without them. Of two that have them the look-up would go on to the second. -/
theorem find?_setEntry_eq_none (hv : isEntryWith keys v = false)
    (h : xs.Pairwise fun x y => isEntryWith keys x = true → isEntryWith keys y = false) :
    (setEntry keys v xs).find? (isEntryWith keys) = none := by
  induction xs with
  | nil => simp [setEntry, hv]
  | cons x xs ih =>
    obtain ⟨hx, hxs⟩ := List.pairwise_cons.1 h
    rw [setEntry_cons]
    split
    · next hkeys =>
      refine List.find?_eq_none.2 fun y hy => Bool.eq_false_iff.1 ?_
      -- the entry that had the keys is gone, and no second one had them
      rcases List.mem_cons.1 hy with rfl | hy
      · exact hv
      · exact hx y hy hkeys
    · next hkeys => rw [List.find?_cons_of_neg hkeys, ih hxs]

/-! ### Changes of the node at the end of a path -/

/-- Members become others by a change of the node at the end of a path, whose members are changed
from `inner` to `inner'`. Each element on the way opens what it selects or something new, and what
that has become is put in its place. Nothing is said of how the change is made, so one relation is
enough for values that are written, members that are removed, and paths that are created only. -/
inductive ChangesAt (m : Node) (inner inner' : Object) : Node → List Elem → Object → Object → Prop
  | here : ChangesAt m inner inner' m [] inner inner'
  | step {n below : Node} {e : Elem} {rest : List Elem} {ms here here' : Object}
      (schema : childSchema n e = .ok below)
      (opened : found? ms e = some (.obj here) ∨ found? ms e = none ∧ fresh below e = .obj here)
      (below : ChangesAt m inner inner' below rest here here') :
      ChangesAt m inner inner' n (e :: rest) ms (setFound e (.obj here') ms)

/-- One step of a change below a path. -/
theorem exists_opened_of_modifyAt {β : Type} {create : Bool} {g : Object → Node → β × Object}
    {out : β} (h : modifyAt create g (e :: elems) ms n = .ok (out, ms')) :
    ∃ below here here', childSchema n e = .ok below ∧
      (found? ms e = some (.obj here) ∨ found? ms e = none ∧ fresh below e = .obj here) ∧
      modifyAt create g elems here below = .ok (out, here') ∧ ms' = setFound e (.obj here') ms := by
  obtain ⟨c, below, here, here', hstep, hvalue, hrest, rfl⟩ := modifyAt_cons h
  obtain ⟨hschema, hat⟩ := descend_cases hstep
  refine ⟨below, here, here', hschema, ?_, hrest, hat.put _⟩
  rw [← hvalue]
  exact hat.value.imp_right fun h => ⟨h.1, h.2.symm⟩

/-- **A change below a path** is one at the end of each part of the path. -/
theorem exists_changesAt {β : Type} {create : Bool} {g : Object → Node → β × Object} {out : β}
    (h : modifyAt create g (elems ++ tail) ms n = .ok (out, ms')) :
    ∃ m inner inner', ChangesAt m inner inner' n elems ms ms' ∧
      modifyAt create g tail inner m = .ok (out, inner') := by
  induction elems generalizing n ms ms' with
  | nil => exact ⟨n, ms, ms', .here, h⟩
  | cons e elems ih =>
    obtain ⟨below, here, here', hschema, hopened, hrest, rfl⟩ := exists_opened_of_modifyAt h
    obtain ⟨m, inner, inner', hchange, htail⟩ := ih hrest
    exact ⟨m, inner, inner', .step hschema hopened hchange, htail⟩

theorem ChangesAt.below? (h : ChangesAt m inner inner' n elems ms ms') :
    n.below? elems = some m := by
  induction h with
  | here => rfl
  | step schema opened below ih => rw [Node.below?_cons (child?_of_childSchema schema), ih]

/-- A path to a node with members leads through such nodes only. -/
theorem ChangesAt.exists_children (h : ChangesAt m inner inner' n elems ms ms')
    (hm : ∃ children, m.children? = some children) : ∃ children, n.children? = some children := by
  cases h with
  | here => exact hm
  | step schema opened below =>
    obtain ⟨children, hn, -⟩ := get?_of_child? (child?_of_childSchema schema)
    exact ⟨children, hn⟩

/-! ### Children in their held form -/

/-- The children of a node that have members are in their held form. New entries have none. It is
weaker than that the node is in its held form itself, which a new entry is not: its keys are as the
path has them until the commit. -/
def HeldInside (n : Node) (ms : Object) : Prop :=
  ∀ name child children w, n.child? name = some child → child.children? = some children →
    get? ms (localName name) = some w → Stands child false w w

/-- A member of what stands for itself stands for itself. -/
theorem stands_member {name : String} (h : Stands n entry (.obj ms) (.obj ms))
    (hchild : n.child? name = some child) (hw : get? ms (localName name) = some w) :
    Stands child false w w := by
  obtain ⟨siblings, hn, hname⟩ := h.exists_child hchild
  obtain ⟨c, hc, hstands⟩ := h.member hn hname hw
  obtain rfl := Option.some.inj (hw.symm.trans hc)
  exact hstands

theorem heldInside_of_stands (h : Stands n entry (.obj ms) (.obj ms)) : HeldInside n ms :=
  fun _ _ _ _ hchild _ hw => stands_member h hchild hw

/-- The entries of a list are in their held form. -/
theorem HeldInside.entries (h : HeldInside n ms) {home : Option String} {names : List String}
    (hchild : n.child? e.name = some (.list home names children)) :
    Stands (.list home names children) false (.arr (entriesOf ms (localName e.name)))
      (.arr (entriesOf ms (localName e.name))) := by
  cases hw : get? ms (localName e.name) with
  | none =>
    rw [entriesOf_of_none hw]
    refine Schema.Node.stands_list_iff.2 ⟨.nil, fun _ hc => ?_, List.nodup_nil⟩
    cases hc
  | some w =>
    have hself := h e.name _ children w hchild rfl hw
    obtain ⟨xs, -, rfl, -⟩ := hself.eq_arr
    rwa [entriesOf_of_get? hw]

/-- What an element selects is in its held form. -/
theorem HeldInside.found (h : HeldInside n ms) (hschema : childSchema n e = .ok below)
    (hbelow : below.children? = some children) (hfound : found? ms e = some v) :
    Stands below e.isKeyed v v := by
  have hchild := child?_of_childSchema hschema
  cases he : e.isKeyed with
  | false =>
    rw [found?_of_not_isKeyed he] at hfound
    exact h e.name below children v hchild hbelow hfound
  -- with keys the entry is found in the array, which stands for itself entry by entry
  | true =>
    obtain ⟨home, names, children', rfl⟩ := exists_list_of_childSchema hschema he
    obtain ⟨hentries, -, -⟩ := Schema.Node.stands_list_iff.1 (h.entries hchild)
    rw [found?_of_isKeyed he] at hfound
    obtain ⟨i, hi⟩ := List.getElem?_of_mem (List.mem_of_find?_eq_some hfound)
    exact (forall₂_iff_getElem?.1 hentries).2 i v v hi hi

/-- What is added for an element has nothing but its keys. -/
theorem get?_of_fresh (h : fresh below e = .obj here) (name : String) : get? here name =
    (get? e.keys name).map fun text => keyValue text ((below.child? name).bind Node.scalar?) := by
  cases he : e.isKeyed with
  | false =>
    rw [fresh, he, if_neg Bool.false_ne_true] at h
    rw [← Json.obj.inj h, keys_eq_nil he]
    rfl
  | true =>
    rw [fresh, if_pos he] at h
    rw [← Json.obj.inj h, get?_keyMembers]

/-- What a change opens has its children in their held form, since what is new has none. -/
theorem HeldInside.opened (h : HeldInside n ms) (hschema : childSchema n e = .ok below)
    (hbelow : below.children? = some children) (hnamed : KeysNamed below e)
    (hopened : found? ms e = some (.obj here) ∨ found? ms e = none ∧ fresh below e = .obj here) :
    HeldInside below here := by
  rcases hopened with hfound | ⟨-, hfresh⟩
  · exact heldInside_of_stands (h.found hschema hbelow hfound)
  · -- in what is new there is nothing to look at but leaves
    intro name child children w hchild hchildren hw
    rw [get?_of_fresh hfresh] at hw
    -- a key is a leaf
    obtain ⟨text, htext, -⟩ := Option.map_eq_some_iff.1 hw
    obtain ⟨hlocal, home, kind, hleaf⟩ := hnamed _ (Members.mem_of_get? htext)
    rw [Node.child?, hlocal, ← Node.child?, hchild] at hleaf
    obtain rfl := Option.some.inj hleaf
    cases hchildren

/-! ### Keys that will be found -/

/-- The member for a key has that text once the entry is in its held form. The text that it has
before need not be the same, `007` being held as 7, and it is the held one that later look-ups
compare. -/
def HoldsText (list : Node) (ms : Object) (key text : String) : Prop :=
  ∃ w, get? ms key = some w ∧ ∀ home kind c, list.child? key = some (.leaf home kind) →
    coerce? kind w = some (some c) → keyString c = text

/-- An entry has the keys of an element once it is in its held form. -/
def HoldsKeys (list : Node) (e : Elem) (ms : Object) : Prop :=
  ∀ key ∈ e.keys, HoldsText list ms key.1 key.2

/-- What is in its held form already keeps its texts. -/
theorem holdsText_of_stands {key : String} (hlocal : localName key = key)
    (h : Stands list entry (.obj ms) (.obj ms)) (hw : get? ms key = some w) :
    HoldsText list ms key (keyString w) := by
  refine ⟨w, hw, fun home kind c hchild hc => ?_⟩
  cases stands_member h hchild (hlocal.symm ▸ hw) with
  | leaf held fits => rw [← Option.some.inj (Option.some.inj (held.symm.trans hc))]
  | object shape => cases shape.1

theorem KeysFit.localName (h : KeysFit list e) {key : String × String} (hkey : key ∈ e.keys) :
    localName key.1 = key.1 :=
  (KeysNamed.of_keysFit (fun _ => h) key hkey).1

theorem holdsKeys_of_stands (hnamed : KeysNamed list e)
    (h : Stands list entry (.obj ms) (.obj ms)) (hhas : hasKeys ms e.keys = true) :
    HoldsKeys list e ms := by
  intro key hkey
  obtain ⟨w, hw, htext⟩ := Option.map_eq_some_iff.1 (hasKeys_iff.1 hhas key hkey)
  exact htext ▸ holdsText_of_stands (hnamed key hkey).1 h hw

/-- The key of a new entry is the one that its text stands for. -/
theorem holdsText_of_fresh {key : String × String} {home : Option String} {kind : ScalarKind}
    {text : String} (hfresh : fresh list e = .obj here) (hkey : key ∈ e.keys)
    (hleaf : list.child? key.1 = some (.leaf home kind))
    (htext : ∀ c, coerce? kind (keyValue key.2 (some kind)) = some (some c) → keyString c = text) :
    HoldsText list here key.1 text := by
  refine ⟨keyValue key.2 (some kind), ?_, fun home' kind' c hchild hc => ?_⟩
  · rw [get?_of_fresh hfresh, Members.get?_of_mem e.sorted hkey, hleaf]
    rfl
  · cases Option.some.inj (hleaf.symm.trans hchild)
    exact htext c hc

/-- The keys of a new entry have their texts, if these are in stored form. -/
theorem holdsKeys_of_fresh (hkeys : KeysFit list e) (hfresh : fresh list e = .obj here) :
    HoldsKeys list e here := by
  intro key hkey
  obtain ⟨_, home, kind, -, -, hleaf, hstored⟩ := hkeys.child? hkey
  exact holdsText_of_fresh hfresh hkey hleaf fun c hc => (keyString_keyValue hstored hc).2

theorem holdsKeys_keyMembers (hkeys : KeysFit list e) : HoldsKeys list e (keyMembers list e) := by
  intro key hkey
  have he := isKeyed_of_get? (Members.get?_of_mem e.sorted hkey)
  exact holdsKeys_of_fresh hkeys (by rw [fresh, if_pos he]; rfl) key hkey

theorem HoldsText.congr {key text : String} (h : HoldsText list ms key text)
    (heq : get? ms' key = get? ms key) : HoldsText list ms' key text := by
  obtain ⟨w, hw, htext⟩ := h
  exact ⟨w, heq.trans hw, htext⟩

/-- **What the entry stands for has the text of the key.** -/
theorem HoldsText.text {key : String × String} {text : String} (h : HoldsText list ms key.1 text)
    (hnamed : KeysNamed list e) (hkey : key ∈ e.keys)
    (hs : Stands list entry (.obj ms) (.obj cs)) : (get? cs key.1).map keyString = some text := by
  obtain ⟨w, hw, htext⟩ := h
  obtain ⟨hlocal, home, kind, hleaf⟩ := hnamed key hkey
  obtain ⟨siblings, hn, hname⟩ := hs.exists_child hleaf
  rw [hlocal] at hname
  obtain ⟨c, hc, hstands⟩ := hs.member hn hname hw
  cases hstands with
  | leaf held fits => rw [hc, Option.map_some, htext home kind c hleaf held]
  | object shape => cases shape.1

theorem HoldsKeys.hasKeys (h : HoldsKeys list e ms) (hnamed : KeysNamed list e)
    (hs : Stands list entry (.obj ms) (.obj cs)) : hasKeys cs e.keys = true :=
  hasKeys_iff.2 fun key hkey => (h key hkey).text hnamed hkey hs

/-- What a change opens for an element has its keys. -/
theorem HeldInside.holdsKeys (h : HeldInside n ms) (hschema : childSchema n e = .ok below)
    (hbelow : below.children? = some children) (hkeys : KeysFit below e)
    (hopened : found? ms e = some (.obj here) ∨ found? ms e = none ∧ fresh below e = .obj here) :
    HoldsKeys below e here := by
  rcases hopened with hfound | ⟨-, hfresh⟩
  · exact holdsKeys_of_stands (.of_keysFit fun _ => hkeys) (h.found hschema hbelow hfound)
      (hasKeys_of_found? hfound)
  · exact holdsKeys_of_fresh hkeys hfresh

/-! ### Look-ups after the commit -/

/-- At a node with children an object stands for an object. -/
theorem exists_obj_of_stands (hn : n.children? = some children) (h : Stands n entry (.obj ms) c) :
    ∃ cs, c = .obj cs := by
  cases h with
  | leaf => cases hn
  | object => exact ⟨_, rfl⟩

/-- **One step after the commit.** What has been put in place is held in that place, among what has
been there. The right side still speaks of the members before the commit: only the one of that name
counts when the element is looked up. -/
theorem exists_stands_of_setFound (hfree : n.Everywhere Schema.ColonFreeAt)
    (hheld : HeldInside n ms) (hschema : childSchema n e = .ok below)
    (h : Stands n entry (.obj (setFound e v ms)) (.obj cs)) :
    ∃ y, Stands below e.isKeyed v y ∧
      get? cs (localName e.name) = get? (setFound e y ms) (localName e.name) := by
  have hchild := child?_of_childSchema hschema
  obtain ⟨siblings, hn, hname⟩ := h.exists_child hchild
  have hset : ∀ y, get? (setFound e y ms) (localName e.name) = some
      (if e.isKeyed then .arr (setEntry e.keys y (entriesOf ms (localName e.name))) else y) :=
    fun y => by rw [setFound, Members.get?_insert, if_pos rfl]
  obtain ⟨c, hc, hstands⟩ := h.member hn hname (hset v)
  -- the member of the name is what has been put, or the list of entries with that in it
  cases he : e.isKeyed with
  | false =>
    rw [he, if_neg Bool.false_ne_true] at hstands
    refine ⟨c, hstands, ?_⟩
    rw [hc, hset, he, if_neg Bool.false_ne_true]
  | true =>
    rw [he, if_pos rfl] at hstands
    obtain ⟨home, names, children, rfl⟩ := exists_list_of_childSchema hschema he
    obtain ⟨_, ys, heq, rfl⟩ := hstands.eq_arr
    obtain ⟨hitems, -, -⟩ := Schema.Node.stands_list_iff.1 hstands
    obtain ⟨hself, -, -⟩ := Schema.Node.stands_list_iff.1 (hheld.entries hchild)
    -- the other entries are in their held form already
    obtain ⟨y, hy, rfl⟩ := exists_eq_setEntry (fun x hx y hxy => by
      obtain ⟨i, hi⟩ := List.getElem?_of_mem hx
      exact hxy.unique (hfree.child hn.1 hname) ((forall₂_iff_getElem?.1 hself).2 i x x hi hi))
      hitems
    refine ⟨y, hy, ?_⟩
    rw [hc, hset, he, if_pos rfl]

/-- The texts of the keys of an element are in stored form. -/
def KeysStored (list : Node) (e : Elem) : Prop :=
  ∀ key ∈ e.keys, ∀ leaf kind, list.child? key.1 = some leaf → leaf.scalar? = some kind →
    IsStored key.2 kind

/-- What a path adds to the members of a node will be found again: where there is nothing that an
element selects, the texts of its keys are in stored form. An entry that is there already asks
nothing of its element, whose texts have been compared with those of held keys. Since what is below
a new entry is new too, the condition follows the path through the tree. -/
def AddsStored : Node → Object → List Elem → Prop
  | _, _, [] => True
  | n, ms, e :: rest => ∀ below, n.child? e.name = some below →
      (found? ms e = none → KeysStored below e) ∧
        AddsStored below (((found? ms e).getD (fresh below e)).obj?.getD []) rest

theorem AddsStored.of_storedKeys (h : StoredKeys n elems) (ms : Object) :
    AddsStored n ms elems := by
  induction elems generalizing n ms with
  | nil => trivial
  | cons e elems ih =>
    intro below hbelow
    obtain ⟨hkeys, hrest⟩ := h below hbelow
    exact ⟨fun _ => hkeys, ih hrest _⟩

/-- An element without keys adds no entry. -/
theorem addsStored_concat (he : e.isKeyed = false) {above : List Elem} {ms : Object} :
    AddsStored n ms (above ++ [e]) ↔ AddsStored n ms above := by
  induction above generalizing n ms with
  | nil =>
    refine iff_of_true (fun below _ => ⟨fun _ key hkey => ?_, trivial⟩) trivial
    rw [keys_eq_nil he] at hkey
    cases hkey
  | cons f above ih =>
    rw [List.cons_append, AddsStored, AddsStored]
    exact forall₂_congr fun below _ => and_congr_right fun _ => ih

/-- What a change opens is what its path goes on in. -/
theorem addsStored_cons (hchild : n.child? e.name = some below)
    (hopened : found? ms e = some (.obj here) ∨ found? ms e = none ∧ fresh below e = .obj here)
    (rest : List Elem) : AddsStored n ms (e :: rest) ↔
      (found? ms e = none → KeysStored below e) ∧ AddsStored below here rest := by
  have hhere : ((found? ms e).getD (fresh below e)).obj?.getD [] = here := by
    rcases hopened with hfound | ⟨hnone, hfresh⟩
    · rw [hfound]
      rfl
    · rw [hnone, Option.getD_none, hfresh]
      rfl
  rw [AddsStored, hchild]
  simp only [Option.some.injEq, forall_eq', hhere]

/-- A change of an entry leaves a key as it is, or puts what has the text that the element has for
it, which is in stored form then. The second case is for a write to the key itself. -/
def KeepsTexts (list : Node) (e : Elem) (ms ms' : Object) : Prop :=
  ∀ key ∈ e.keys, get? ms' key.1 = get? ms key.1 ∨ HoldsText list ms' key.1 key.2 ∧
    ∀ leaf kind, list.child? key.1 = some leaf → leaf.scalar? = some kind → IsStored key.2 kind

theorem KeepsTexts.of_keepsKeys (hkeys : e.isKeyed = true → KeysFit list e)
    (hkeeps : KeepsKeys list ms ms') : KeepsTexts list e ms ms' := by
  intro key hkey
  have he := isKeyed_of_get? (Members.get?_of_mem e.sorted hkey)
  obtain ⟨keys, _, _, hlist, hmem, -⟩ := (hkeys he).child? hkey
  exact .inl (hkeeps keys hlist key.1 hmem)

theorem KeepsTexts.holdsKeys (h : KeepsTexts list e ms ms') (hold : HoldsKeys list e ms) :
    HoldsKeys list e ms' := by
  intro key hkey
  rcases h key hkey with hsame | ⟨htext, -⟩
  · exact (hold key hkey).congr hsame
  · exact htext

/-- **A change keeps the texts of the keys on its way**, if it keeps those of the last element.
Above the end of the path only members that have members are set, and no key is one of these. -/
theorem ChangesAt.keepsTexts (h : ChangesAt m inner inner' n elems ms ms')
    (hm : ∃ children, m.children? = some children) (hnamed : KeysNamed n e)
    (hlast : elems = [] → KeepsTexts m e inner inner') : KeepsTexts n e ms ms' := by
  cases h with
  | here => exact hlast rfl
  | @step _ below f rest _ here here' schema opened below =>
    intro key hkey
    refine .inl (get?_setFound_of_ne fun heq => ?_)
    -- a key is a leaf, and the change goes through what has members
    obtain ⟨hlocal, home, kind, hleaf⟩ := hnamed key hkey
    obtain ⟨children, hbelow⟩ := below.exists_children hm
    rw [Node.child?, hlocal, heq, ← Node.child?, child?_of_childSchema schema] at hleaf
    obtain rfl := Option.some.inj hleaf
    cases hbelow

/-- A new entry of which a key is not in stored form has another text for it. -/
theorem exists_text_of_not_stored (hnamed : KeysNamed below e) (hnot : ¬ KeysStored below e)
    (hfresh : fresh below e = .obj here) (hkeeps : KeepsTexts below e here here') :
    ∃ key ∈ e.keys, ∃ text, HoldsText below here' key.1 text ∧ text ≠ key.2 := by
  simp only [KeysStored, not_forall] at hnot
  obtain ⟨key, hkey, leaf, kind, hleaf, hkind, hnot⟩ := hnot
  obtain ⟨-, home, kind', hleaf'⟩ := hnamed key hkey
  obtain rfl := Option.some.inj (hleaf.symm.trans hleaf')
  obtain rfl := Option.some.inj hkind
  -- the text is not stored, so the key was kept and its leaf still holds what the fresh entry had:
  -- the canonical form, which reads otherwise
  have hsame := (hkeeps key hkey).resolve_right fun hstored => hnot (hstored.2 _ _ hleaf rfl)
  simp only [IsStored, not_forall] at hnot
  obtain ⟨path, c, hc, hne⟩ := hnot
  have hheld := canonicalScalar_eq_ok_iff.1 hc
  refine ⟨key, hkey, keyString c, ?_, hne⟩
  refine (holdsText_of_fresh hfresh hkey hleaf fun c' hc' => ?_).congr hsame
  rw [Option.some.inj (Option.some.inj (hheld.symm.trans hc'))]

/-- Where an element has found nothing, it does not find what has been put there without its
keys. -/
theorem found?_setFound_of_missing (h : found? ms e = none) (he : e.isKeyed = true)
    (hv : isEntryWith e.keys v = false) : found? (setFound e v ms) e = none := by
  rw [found?_of_isKeyed he] at h ⊢
  have hindex := findIdx?_eq_none_of_find? h
  rw [setFound_of_isKeyed he, entriesOf_insert, setEntry_of_none hindex, List.find?_append, h,
    Option.none_or, List.find?_singleton, hv]
  rfl

/-- **One step of a path after the commit.** What a change has opened for an element is found there
again, unless it has been added with a key that is not in stored form. That this is the only way to
lose it is what the second part is for. -/
theorem found?_of_opened (hheld : HeldInside n ms) (hschema : childSchema n e = .ok below)
    (hbelow : below.children? = some children) (hnamed : KeysNamed below e)
    (hopened : found? ms e = some (.obj here) ∨ found? ms e = none ∧ fresh below e = .obj here)
    (hkeeps : KeepsTexts below e here here')
    (hs : Stands below e.isKeyed (.obj here') (.obj inner))
    (hget : get? cs (localName e.name) = get? (setFound e (.obj inner) ms) (localName e.name)) :
    ((found? ms e = none → KeysStored below e) → found? cs e = some (.obj inner)) ∧
      (¬ (found? ms e = none → KeysStored below e) → found? cs e = none) := by
  rw [found?_congr hget]
  constructor
  · -- what has been found has the texts in held form, and so has what has been added with stored
    -- ones
    intro hstored
    have hholds : HoldsKeys below e here := by
      rcases hopened with hfound | ⟨hnone, hfresh⟩
      · exact holdsKeys_of_stands hnamed (hheld.found hschema hbelow hfound)
          (hasKeys_of_found? hfound)
      · intro key hkey
        obtain ⟨-, home, kind, hleaf⟩ := hnamed key hkey
        have htext := hstored hnone key hkey _ kind hleaf rfl
        exact holdsText_of_fresh hfresh hkey hleaf fun c hc => (keyString_keyValue htext hc).2
    exact found?_setFound fun _ => (hkeeps.holdsKeys hholds).hasKeys hnamed hs
  · -- the key that is not in stored form has another text once it is held, so the element passes
    -- over the new entry
    intro hnot
    obtain ⟨hnone, hnot⟩ := Classical.not_imp.1 hnot
    obtain ⟨key, hkey, text, hholds, hne⟩ := exists_text_of_not_stored hnamed hnot
      (hopened.resolve_left fun hfound => by rw [hnone] at hfound; cases hfound).2 hkeeps
    refine found?_setFound_of_missing hnone (isKeyed_of_get? (Members.get?_of_mem e.sorted hkey)) ?_
    refine Bool.eq_false_iff.2 fun hhas => hne ?_
    exact Option.some.inj ((hholds.text hnamed hkey hs).symm.trans (hasKeys_iff.1 hhas key hkey))

/-- **After the commit a path goes on from what the change has left at its end**, or leads nowhere,
if the change has added an entry with a key that is not in stored form. The path may be followed
beyond the end of the change by any `q`, which is looked up in what the end stands for. -/
theorem ChangesAt.lookup_cases 
    (hfree : n.Everywhere Schema.ColonFreeAt) (h : ChangesAt m inner inner' n elems ms ms')
    (hpath : Named n elems) (hm : ∃ children, m.children? = some children)
    (hkeeps : ∀ e ∈ elems.getLast?, KeepsTexts m e inner inner') (hheld : HeldInside n ms)
    (hs : Stands n entry (.obj ms') (.obj cs)) : HeldInside m inner ∧
      ∃ entry' ks, Stands m entry' (.obj inner') (.obj ks) ∧
        (AddsStored n ms elems → ∀ q, lookup (elems ++ q) (.obj cs) n = lookup q (.obj ks) m) ∧
        (¬ AddsStored n ms elems → ∀ q, lookup (elems ++ q) (.obj cs) n = .ok none) := by
  -- on the way of the change, for any held form: below a step it is a part of the one above
  induction h generalizing entry cs with
  | here => exact ⟨hheld, entry, cs, hs, fun _ q => rfl, fun hnot => absurd trivial hnot⟩
  | @step n below e rest ms here here' schema opened change ih =>
    obtain ⟨child, hchild, hnamed, hrest⟩ := hpath
    obtain rfl := Option.some.inj (hchild.symm.trans (child?_of_childSchema schema))
    obtain ⟨children, hbelow⟩ := change.exists_children hm
    obtain ⟨siblings, hn, hname⟩ := get?_of_child? hchild
    obtain ⟨y, hy, hget⟩ := exists_stands_of_setFound hfree hheld schema hs
    obtain ⟨ks, rfl⟩ := exists_obj_of_stands hbelow hy
    have hlast : KeepsTexts child e here here' := by
      refine change.keepsTexts hm hnamed fun hnil => hkeeps e ?_
      rw [hnil]
      rfl
    obtain ⟨hfinds, hloses⟩ :=
      found?_of_opened hheld schema hbelow hnamed opened hlast hy hget
    have hkeeps' : ∀ f ∈ rest.getLast?, KeepsTexts m f inner inner' := fun f hf =>
      hkeeps f (List.mem_getLast?_cons hf)
    obtain ⟨hinside, entry', ks', hks', hon, hnowhere⟩ := ih (hfree.child hn hname) hrest hkeeps'
      (hheld.opened schema hbelow hnamed opened) hy
    refine ⟨hinside, entry', ks', hks', fun hadds q => ?_, fun hnot q => ?_⟩
    · obtain ⟨hown, hadds⟩ := (addsStored_cons hchild opened rest).1 hadds
      rw [List.cons_append, lookup_cons_of_found schema (hfinds hown), hon hadds]
    · rw [List.cons_append]
      by_cases hown : found? ms e = none → KeysStored child e
      · rw [lookup_cons_of_found schema (hfinds hown)]
        exact hnowhere (fun hadds => hnot ((addsStored_cons hchild opened rest).2 ⟨hown, hadds⟩)) q
      · exact lookup_cons_of_missing schema (hloses hown) _

/-- The keys of a path that fit are in stored form. -/
theorem Addresses.storedKeys (h : Addresses n elems) : StoredKeys n elems := by
  induction elems generalizing n with
  | nil => trivial
  | cons e elems ih =>
    obtain ⟨child, hchild, hkeys, hrest⟩ := h
    intro child' hchild'
    obtain rfl := Option.some.inj (hchild.symm.trans hchild')
    refine ⟨fun key hkey leaf kind hleaf hkind => ?_, ih hrest⟩
    have he := isKeyed_of_get? (Members.get?_of_mem e.sorted hkey)
    obtain ⟨_, home, kind', -, -, hleaf', hstored⟩ := (hkeys he).child? hkey
    obtain rfl := Option.some.inj (hleaf.symm.trans hleaf')
    obtain rfl := Option.some.inj hkind
    exact hstored

/-- **After the commit a path whose keys fit goes on from what the change has left at its end.**
Keys that fit are in stored form, so nothing that the change adds is lost. -/
theorem ChangesAt.lookup (hfree : n.Everywhere Schema.ColonFreeAt)
    (h : ChangesAt m inner inner' n elems ms ms') (hpath : Addresses n elems)
    (hm : ∃ children, m.children? = some children) (hkeeps : KeepsKeys m inner inner')
    (hheld : HeldInside n ms) (hs : Stands n entry (.obj ms') (.obj cs)) : HeldInside m inner ∧
      ∃ entry' ks, Stands m entry' (.obj inner') (.obj ks) ∧
        ∀ q, lookup (elems ++ q) (.obj cs) n = lookup q (.obj ks) m := by
  have hlast : ∀ e ∈ elems.getLast?, KeepsTexts m e inner inner' := by
    intro e he
    obtain ⟨above, rfl⟩ := List.getLast?_eq_some_iff.1 he
    exact .of_keepsKeys (hpath.keysFit h.below?) hkeeps
  obtain ⟨hinside, entry', ks, hks, hon, -⟩ :=
    h.lookup_cases hfree hpath.named hm hlast hheld hs
  exact ⟨hinside, entry', ks, hks, hon (.of_storedKeys hpath.storedKeys ms)⟩

/-- Setting an entry without the keys it has been put in place for leaves none that has them, if no
two of the entries have the same. It takes an element with all keys of the list: one with a few of
them may select the next entry that has those. -/
theorem found?_setFound_eq_none (hheld : HeldInside n ms) (hschema : childSchema n e = .ok below)
    (he : e.isKeyed = true) (hfull : Full below e) (hv : isEntryWith e.keys v = false) :
    found? (setFound e v ms) e = none := by
  rw [found?_of_isKeyed he, setFound_of_isKeyed he, entriesOf_insert]
  obtain ⟨home, names, children, rfl⟩ := exists_list_of_childSchema hschema he
  obtain ⟨-, -, hdistinct⟩ :=
    Schema.Node.stands_list_iff.1 (hheld.entries (child?_of_childSchema hschema))
  refine find?_setEntry_eq_none hv ((List.pairwise_map.1 hdistinct).imp fun {x y} hne hx => ?_)
  rw [Bool.eq_false_iff]
  intro hy
  -- two entries that have all keys of the element are told by the same texts
  cases x with
  | obj xs =>
    cases y with
    | obj ys => exact hne ((hfull.keyTuple hx).trans (hfull.keyTuple hy).symm)
    | _ => cases hy
  | _ => cases hx

/-- **What an element finds after the commit.** The entry that has been put in its place is found if
it holds the keys. If it has another text for one of them, nothing is found. -/
theorem lookup_of_setFound (hfree : n.Everywhere Schema.ColonFreeAt) (hheld : HeldInside n ms)
    (hschema : childSchema n e = .ok list) (he : e.isKeyed = true) (hkeys : KeysFit list e)
    (h : Stands n entry (.obj (setFound e (.obj here) ms)) (.obj cs)) :
    (HoldsKeys list e here → ∃ ks, lookup [e] (.obj cs) n = .ok (some (.obj ks, list)) ∧
      hasKeys ks e.keys = true) ∧
    ((∃ key ∈ e.keys, ∃ text, HoldsText list here key.1 text ∧ text ≠ key.2) → Full list e →
      lookup [e] (.obj cs) n = .ok none) := by
  obtain ⟨y, hy, hget⟩ := exists_stands_of_setFound hfree hheld hschema h
  obtain ⟨home, names, children, rfl⟩ := exists_list_of_childSchema hschema he
  obtain ⟨ks, rfl⟩ := exists_obj_of_stands rfl hy
  have hnamed : KeysNamed (.list home names children) e := .of_keysFit fun _ => hkeys
  -- the array is searched by the texts of its leaves, so both halves compare those with the keys of
  -- the element
  constructor
  · intro hholds
    have hhas := hholds.hasKeys hnamed hy
    have hselected : SelectedBy e (.obj ks) := fun _ => hhas
    refine ⟨ks, lookup_cons_of_found hschema ?_ [], hhas⟩
    rw [found?_congr hget, found?_setFound hselected]
  · rintro ⟨key, hkey, text, htext, hne⟩ hfull
    refine lookup_cons_of_missing hschema ?_ []
    rw [found?_congr hget]
    refine found?_setFound_eq_none hheld hschema he hfull (Bool.eq_false_iff.2 fun hhas => hne ?_)
    exact Option.some.inj
      ((htext.text hnamed hkey hy).symm.trans (hasKeys_iff.1 hhas key hkey))

end ConfigTree.Tree
