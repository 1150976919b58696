import ConfigTree.Proofs.Store.Edit
import ConfigTree.Proofs.Tree.Lookup

/-!
# What a write leaves alone

A write at one path does not change what is found at another one that parts from it: at the first
place where the two paths differ they name different members, or select entries of one list by
different texts of a key. There is one exception. An entry that the write adds on its way comes with
its keys, so a path that ends in one of them finds it then.

* `Diverge`: the two paths part.
* `lookup_of_modifyAt`: what the other path finds is as before, unless it ends in such a key.
* `exists_added`: an entry on the way that was missing is there afterwards, with its keys.
* `lookup_newKey`: what such a key finds after the write.

The lemmas are about any change inside of the node above the end of a path that is local in the
sense of `LocalAt`. Writing a member or an entry is such a change: `Edit.localAt_putInside`.
-/

namespace ConfigTree

open ConfigTree.Path (Elem)
open Members (get? Sorted)
open Schema (Node)

/-- The text of a key in stored form is the text of what it stands for. -/
theorem keyString_keyValue_of_isStored {text : String} {kind : ScalarKind}
    (h : IsStored text kind) : keyString (keyValue text (some kind)) = text := by
  cases hn : keyNumber? text kind with
  | some n =>
    have hvalue : keyValue text (some kind) = .num n := by rw [keyValue, Option.bind_some, hn]
    exact (keyString_keyValue h (hvalue ▸ coerce?_keyNumber hn)).1
  | none =>
    rw [keyValue, Option.bind_some, hn]
    rfl

namespace Tree

variable {n below child list : Node} {e f last : Elem} {ms ms' inner inner' : Object} {v : Json}
  {above parent p q : List Elem}

/-- Two paths part: at the first place where they differ their elements select different things. A
path that goes on from another one does not part from it, and neither do paths whose elements may
select the same entry by different keys. -/
inductive Diverge : List Elem → List Elem → Prop
  | here {e f : Elem} {ps qs : List Elem} (apart : Apart e f) : Diverge (e :: ps) (f :: qs)
  | there {e : Elem} {ps qs : List Elem} (rest : Diverge ps qs) : Diverge (e :: ps) (e :: qs)

theorem not_diverge_nil (p : List Elem) : ¬ Diverge p [] := by
  intro h
  cases h

/-- A path ends in a key of an entry that another path goes through, and the tree does not have the
entry. Such paths part, and yet the one finds something after a write at the other. -/
def NewKey (n : Node) (tree : Json) (p q : List Elem) : Prop :=
  ∃ above last next rest, q = above ++ [last] ∧ p = above ++ next :: rest ∧
    EndsInKey n (above ++ [last]) ∧ lookup above tree n = .ok none

/-! ### New entries -/

theorem KeysFit.child? (h : KeysFit list e) {key : String × String} (hkey : key ∈ e.keys) :
    ∃ keys home kind, list.listKeys? = some keys ∧ key.1 ∈ keys ∧
      list.child? key.1 = some (.leaf home kind) ∧ IsStored key.2 kind := by
  obtain ⟨home, keys, children, rfl, hfit⟩ := h
  obtain ⟨hmem, hlocal, home', kind, hleaf, hstored⟩ := hfit key hkey
  exact ⟨keys, home', kind, rfl, hmem, Node.child?_of_get? rfl hlocal hleaf, hstored⟩

theorem get?_keyMembers (list : Node) (e : Elem) (key : String) : get? (keyMembers list e) key =
    (get? e.keys key).map fun text => keyValue text ((list.child? key).bind Node.scalar?) := by
  rw [keyMembers]
  exact Members.get?_map
    (fun pair => keyValue pair.2 ((list.child? pair.1).bind Node.scalar?)) e.keys key

theorem sorted_keyMembers (list : Node) (e : Elem) : Sorted (keyMembers list e) :=
  Members.sorted_map _ e.sorted

theorem hasKeys_keyMembers (h : KeysFit list e) : hasKeys (keyMembers list e) e.keys = true := by
  rw [hasKeys_iff]
  intro key hkey
  obtain ⟨_, home, kind, -, -, hleaf, hstored⟩ := h.child? hkey
  rw [get?_keyMembers, Members.get?_of_mem e.sorted hkey, hleaf]
  exact congrArg some (keyString_keyValue_of_isStored hstored)

/-- What a write adds is selected by the element that it is added for. -/
theorem selectedBy_fresh (h : e.isKeyed = true → KeysFit below e) :
    SelectedBy e (fresh below e) := by
  intro he
  rw [fresh, if_pos he]
  exact hasKeys_keyMembers (h he)

/-- What a step of a write opens is selected by the element of the step. -/
theorem StepsTo.selected {c : Child} (h : StepsTo ms n e c below)
    (hkeys : e.isKeyed = true → KeysFit below e) : SelectedBy e c.value := by
  rcases h.value with hfound | ⟨-, hfresh⟩
  · intro he
    rw [found?_of_isKeyed he] at hfound
    exact List.find?_some hfound
  · exact hfresh ▸ selectedBy_fresh hkeys

/-- In something new nothing but a key is found: an entry is added with its keys alone, and a
container is added empty. -/
theorem found?_fresh (hfresh : fresh below e = .obj inner)
    (hkeys : e.isKeyed = true → KeysFit below e)
    (hnot : ∀ keys, below.listKeys? = some keys → localName f.name ∉ keys) :
    found? inner f = none := by
  have hnone : get? inner (localName f.name) = none := by
    cases he : e.isKeyed with
    | false =>
      rw [fresh, he, if_neg Bool.false_ne_true] at hfresh
      rw [← Json.obj.inj hfresh]
      rfl
    -- a fresh entry holds its keys and nothing else, and this name is none of them
    | true =>
      rw [fresh, if_pos he] at hfresh
      rw [← Json.obj.inj hfresh, get?_keyMembers]
      cases htext : get? e.keys (localName f.name) with
      | none => rfl
      | some text =>
        obtain ⟨keys, _, _, hlist, hmem, -⟩ := (hkeys he).child? (Members.mem_of_get? htext)
        exact absurd hmem (hnot keys hlist)
  exact found?_of_none hnone

/-- A key of an entry is a leaf, so a path ends there. -/
theorem eq_nil_of_isKey {home : Option String} {found : Node × Option String} {keys : List String}
    {rest : List Elem} (hkeyed : n.KeyedAt) (hkeys : n.listKeys? = some keys)
    (hmem : localName e.name ∈ keys) (hchild : n.child? e.name = some child)
    (hrest : child.walk? home rest = some found) : rest = [] := by
  obtain ⟨children, hn, hname⟩ := get?_of_child? hchild
  obtain ⟨_, kind, hleaf⟩ := (hkeyed keys children hkeys hn).2 _ hmem
  obtain rfl := Option.some.inj (hname.symm.trans hleaf)
  cases rest with
  | nil => rfl
  | cons f rest =>
    obtain ⟨c, hc, -⟩ := Node.walk?_cons hrest
    cases hc

theorem Addresses.of_append {elems rest : List Elem} (h : Addresses n (elems ++ rest))
    (hbelow : n.below? elems = some below) : Addresses below rest := by
  induction elems generalizing n with
  | nil => exact Option.some.inj hbelow ▸ h
  | cons e elems ih =>
    obtain ⟨child, hchild, -, hrest⟩ := h
    rw [Node.below?_cons hchild] at hbelow
    exact ih hrest hbelow

/-- A key of an entry below is one of the whole path. -/
theorem EndsInKey.cons (hchild : n.child? e.name = some below) (h : EndsInKey below q) :
    EndsInKey n (e :: q) := by
  obtain ⟨above, last, list, keys, rfl, hlist, hkeys, hmem⟩ := h
  exact ⟨e :: above, last, list, keys, rfl, by rw [Node.below?_cons hchild, hlist], hkeys, hmem⟩

/-! ### Changes below a path -/

section

variable {β : Type} {create : Bool} {g : Object → Node → β × Object} {out : β}

/-- A change of the node above the end of a path that leaves alone what the path does not name. The
path does not end in a key of an entry: changing a key would make the entry another one, and what is
found under its old keys would go. -/
structure LocalAt (g : Object → Node → β × Object) (out : β) (n : Node) (parent : List Elem)
    (last : Elem) : Prop where
  path : Addresses n (parent ++ [last])
  noKey : ¬ EndsInKey n (parent ++ [last])
  change : ∀ m, n.below? parent = some m → ∀ ms ms', g ms m = (out, ms') →
    (∀ key, key ≠ localName last.name → get? ms' key = get? ms key) ∧
      ∀ f, Apart last f → found? ms' f = found? ms f

theorem LocalAt.tail (h : LocalAt g out n (e :: parent) last)
    (hchild : n.child? e.name = some below) :
    (e.isKeyed = true → KeysFit below e) ∧ LocalAt g out below parent last := by
  obtain ⟨⟨child, hchild', hkeys, hrest⟩, hkey, hchange⟩ := h
  obtain rfl := Option.some.inj (hchild.symm.trans hchild')
  refine ⟨hkeys, hrest, fun hends => hkey (hends.cons hchild), fun m hm => hchange m ?_⟩
  rw [Node.below?_cons hchild, hm]

/-- The next element of a path is no key of the node: a node further on has members, and at its end
the path does not name a key. -/
theorem LocalAt.head_not_key (hkeyed : n.Everywhere Node.KeyedAt) (h : LocalAt g out n parent last)
    {next : Elem} {rest : List Elem} (helems : parent ++ [last] = next :: rest) {keys : List String}
    (hkeys : n.listKeys? = some keys) : localName next.name ∉ keys := by
  intro hmem
  have hpath := helems ▸ h.path
  obtain ⟨child, hchild, -, hrest⟩ := hpath
  -- as the last element it would be a key that is written; before the last one it would need
  -- members, and a key is a leaf
  cases rest with
  | nil => exact h.noKey (helems ▸ ⟨[], next, n, keys, rfl, rfl, hkeys, hmem⟩)
  | cons =>
    obtain ⟨cs, hcs⟩ := hrest.exists_children (List.cons_ne_nil _ _)
    obtain ⟨children, hn, hname⟩ := get?_of_child? hchild
    obtain ⟨home, kind, hleaf⟩ := (hkeyed.here keys children hkeys hn).2 _ hmem
    obtain rfl := Option.some.inj (hname.symm.trans hleaf)
    cases hcs

/-- One step of such a change, and what is left of it below. -/
theorem LocalAt.cons (h : LocalAt g out n (e :: parent) last)
    (hmodify : modifyAt true g (e :: parent) ms n = .ok (out, ms')) :
    ∃ c below inner inner', n.child? e.name = some below ∧ StepsTo ms n e c below ∧
      c.value = .obj inner ∧ (e.isKeyed = true → KeysFit below e) ∧
      LocalAt g out below parent last ∧
      modifyAt true g parent inner below = .ok (out, inner') ∧
      ms' = c.slot.put c.members (.obj inner') := by
  obtain ⟨c, below, inner, inner', hstep, hvalue, hinner, hput⟩ := modifyAt_cons hmodify
  obtain ⟨child, hchild, hkeys, -⟩ := h.path
  have hsteps := stepsTo_of_descend hstep
  obtain rfl := Except.ok.inj ((childSchema_eq hchild hkeys).symm.trans hsteps.schema)
  exact ⟨c, child, inner, inner', hchild, hsteps, hvalue, hkeys, (h.tail hchild).2, hinner, hput⟩

/-- Only the member that the path names first changes, and that one is no key. So an entry that the
change goes through keeps its keys. -/
theorem LocalAt.keepsKeys (hkeyed : n.Everywhere Node.KeyedAt) (h : LocalAt g out n parent last)
    (hmodify : modifyAt true g parent ms n = .ok (out, ms')) : KeepsKeys n ms ms' := by
  intro keys hkeys key hkey
  cases parent with
  | nil =>
    obtain ⟨hothers, -⟩ := h.change n rfl ms ms' (Except.ok.inj hmodify)
    exact hothers key fun heq => h.head_not_key hkeyed rfl hkeys (heq ▸ hkey)
  | cons e parent =>
    obtain ⟨c, below, inner, inner', -, hsteps, -, -, -, -, rfl⟩ := h.cons hmodify
    exact hsteps.others _ key fun heq => h.head_not_key hkeyed rfl hkeys (heq ▸ hkey)

/-- How a change passes through an element. What the element selects is opened, or is added if it is
missing, and its members are changed. The fields speak of look-ups only, so that what is proved by
them does not depend on how a change finds its way. -/
structure Passes (n : Node) (e : Elem) (below : Node) (ms ms' inner inner' : Object) : Prop where
  child : n.child? e.name = some below
  keys : e.isKeyed = true → KeysFit below e
  keeps : KeepsKeys below inner inner'
  before : (∀ rest, lookup (e :: rest) (.obj ms) n = lookup rest (.obj inner) below) ∨
    fresh below e = .obj inner ∧ ∀ rest, lookup (e :: rest) (.obj ms) n = .ok none
  after : ∀ rest, lookup (e :: rest) (.obj ms') n = lookup rest (.obj inner') below
  apart : ∀ f rest, Apart e f → lookup (f :: rest) (.obj ms') n = lookup (f :: rest) (.obj ms) n

/-- A change passes through the first element of its path, and what is left is such a change further
down. -/
theorem LocalAt.passes (hkeyed : n.Everywhere Node.KeyedAt)
    (h : LocalAt g out n (e :: parent) last)
    (hmodify : modifyAt true g (e :: parent) ms n = .ok (out, ms')) :
    ∃ below inner inner', Passes n e below ms ms' inner inner' ∧
      LocalAt g out below parent last ∧ modifyAt true g parent inner below = .ok (out, inner') := by
  obtain ⟨c, below, inner, inner', hchild, hsteps, hvalue, hkeys, hbelow, hinner, rfl⟩ :=
    h.cons hmodify
  obtain ⟨children, hn, hname⟩ := get?_of_child? hchild
  -- the keys of the entry that is passed must survive the write below it, else the element would no
  -- longer find it
  have hkeeps := hbelow.keepsKeys (hkeyed.child hn hname) hinner
  have hopened : SelectedBy e (.obj inner) := hvalue ▸ hsteps.selected hkeys
  have hselected : SelectedBy e (.obj inner') := fun he =>
    hkeeps.hasKeys (ownsKeys_of_keysFit hkeys) (hopened he)
  refine ⟨below, inner, inner', ⟨hchild, hkeys, hkeeps, ?_,
    lookup_cons_of_found hsteps.schema (hsteps.selects _ hselected), fun f rest apart => ?_⟩,
    hbelow, hinner⟩
  · rcases hsteps.value with hfound | ⟨hmissing, hfresh⟩
    · exact .inl fun rest => by rw [lookup_cons_of_found hsteps.schema hfound, hvalue]
    · exact .inr ⟨hfresh ▸ hvalue, lookup_cons_of_missing hsteps.schema hmissing⟩
  · rw [lookup_cons, lookup_cons, hsteps.apart _ _ hselected apart]

/-- A key of an entry that is missing below is one that is missing in the whole tree. -/
theorem NewKey.cons (hpass : Passes n e below ms ms' inner inner')
    (h : NewKey below (.obj inner) p q) : NewKey n (.obj ms) (e :: p) (e :: q) := by
  obtain ⟨above, last, next, rest, rfl, rfl, hkey, hnone⟩ := h
  refine ⟨e :: above, last, next, rest, rfl, rfl, hkey.cons hpass.child, ?_⟩
  rcases hpass.before with hbefore | ⟨-, hbefore⟩
  · rw [hbefore, hnone]
  · exact hbefore above

/-- In something new a path that does not end in a key finds nothing. The path has a node in the
schema, so a key could only be its last element. -/
theorem lookup_fresh {home : Option String} {found : Node × Option String}
    (hkeyed : below.KeyedAt) (hfresh : fresh below e = .obj inner)
    (hkeys : e.isKeyed = true → KeysFit below e) (hq : below.walk? home q = some found)
    (hne : q ≠ []) (hkey : ∀ f, q = [f] → ¬ EndsInKey below [f]) :
    lookup q (.obj inner) below = .ok none := by
  obtain ⟨f, rest, rfl⟩ := List.exists_cons_of_ne_nil hne
  obtain ⟨child, hf, howns, hrest⟩ := Node.walk?_cons hq
  refine lookup_cons_of_missing (childSchema_of_ownsKeys hf howns)
    (found?_fresh hfresh hkeys fun keys hlist hmem => ?_) rest
  obtain rfl := eq_nil_of_isKey hkeyed hlist hmem hf hrest
  exact hkey f rfl ⟨[], f, below, keys, rfl, rfl, hlist, hmem⟩

/-- **What a path finds that parts from the path of a change is as before**, unless it ends in a key
of an entry that the change has added. -/
theorem lookup_of_modifyAt {home : Option String} {found : Node × Option String}
    (hkeyed : n.Everywhere Node.KeyedAt) (h : LocalAt g out n parent last)
    (hmodify : modifyAt true g parent ms n = .ok (out, ms')) (hq : n.walk? home q = some found)
    (hdiverge : Diverge (parent ++ [last]) q) (hnew : ¬ NewKey n (.obj ms) (parent ++ [last]) q) :
    lookup q (.obj ms') n = lookup q (.obj ms) n := by
  -- by induction on the path of the change, for as long as the other one goes the same way
  induction parent generalizing n ms ms' q home with
  | nil =>
    obtain ⟨-, hapart⟩ := h.change n rfl ms ms' (Except.ok.inj hmodify)
    cases hdiverge with
    | here apart => rw [lookup_cons, lookup_cons, hapart _ apart]
    | there rest => cases rest
  | cons e parent ih =>
    obtain ⟨below, inner, inner', hpass, hbelow, hinner⟩ := h.passes hkeyed hmodify
    rw [List.cons_append] at hdiverge
    cases hdiverge with
    | here apart => exact hpass.apart _ _ apart
    | @there _ _ qs rest =>
      obtain ⟨child, hchild, -, hqs⟩ := Node.walk?_cons hq
      obtain rfl := Option.some.inj (hpass.child.symm.trans hchild)
      obtain ⟨children, hn, hname⟩ := get?_of_child? hchild
      have hkeyed' := hkeyed.child hn hname
      have hsame : lookup qs (.obj inner') below = lookup qs (.obj inner) below :=
        ih hkeyed' hbelow hinner hqs rest fun hnew' => hnew (hnew'.cons hpass)
      rw [hpass.after, hsame]
      rcases hpass.before with hbefore | ⟨hfresh, hbefore⟩
      · rw [hbefore]
      · rw [hbefore]
        -- nothing but the keys is in what has been added
        have hne : qs ≠ [] := by
          rintro rfl
          exact not_diverge_nil _ rest
        refine lookup_fresh hkeyed'.here hfresh hpass.keys hqs hne fun f hf hkey => hnew ?_
        obtain ⟨next, rest', hps⟩ := List.exists_cons_of_ne_nil
          (List.append_ne_nil_of_right_ne_nil parent (List.cons_ne_nil last []))
        exact ⟨[e], f, next, rest', congrArg _ hf, congrArg _ hps, hkey.cons hchild, hbefore []⟩

/-- **An entry on the way that was missing is there afterwards**, with the keys of its element. So
is a container. The induction is on the path to the entry, which may have been missing together with
what is above it. -/
theorem exists_added (hkeyed : n.Everywhere Node.KeyedAt) (h : LocalAt g out n parent last)
    (hmodify : modifyAt true g parent ms n = .ok (out, ms')) {next : Elem} {rest : List Elem}
    (helems : parent ++ [last] = above ++ next :: rest)
    (hnone : lookup above (.obj ms) n = .ok none) :
    ∃ front e list inner', above = front ++ [e] ∧ n.below? above = some list ∧
      lookup above (.obj ms') n = .ok (some (.obj inner', list)) ∧
      (e.isKeyed = true → KeysFit list e ∧ KeepsKeys list (keyMembers list e) inner') := by
  induction above generalizing n parent ms ms' with
  | nil => cases hnone
  | cons e above ih =>
    cases parent with
    | nil => simp at helems
    | cons e' parent =>
      rw [List.cons_append, List.cons_append, List.cons_eq_cons] at helems
      obtain ⟨rfl, htail⟩ := helems
      obtain ⟨below, inner, inner', hpass, hbelow, hinner⟩ := h.passes hkeyed hmodify
      obtain ⟨children, hn, hname⟩ := get?_of_child? hpass.child
      have hkeyed' := hkeyed.child hn hname
      have hpath : ∀ rest, n.below? (e' :: rest) = below.below? rest :=
        Node.below?_cons hpass.child
      cases above with
      | nil =>
        refine ⟨[], e', below, inner', rfl, hpath [], hpass.after [], fun he =>
          ⟨hpass.keys he, ?_⟩⟩
        -- the entry itself: what has been opened has been added
        rcases hpass.before with hbefore | ⟨hfresh, -⟩
        · rw [hbefore] at hnone
          cases hnone
        · rw [fresh, if_pos he] at hfresh
          exact Json.obj.inj hfresh ▸ hpass.keeps
      | cons f above =>
        -- it was missing in what has been opened, be that old or new
        have hdeeper : lookup (f :: above) (.obj inner) below = .ok none := by
          rcases hpass.before with hbefore | ⟨hfresh, -⟩
          · rw [← hbefore]
            exact hnone
          · obtain ⟨child, hf, hfkeys, -⟩ := htail ▸ hbelow.path
            exact lookup_cons_of_missing (childSchema_eq hf hfkeys)
              (found?_fresh hfresh hpass.keys fun keys hlist =>
                hbelow.head_not_key hkeyed' htail hlist) above
        obtain ⟨front, e, list, inner'', hfront, hlist, hlookup, hentry⟩ :=
          ih hkeyed' hbelow hinner htail hdeeper
        exact ⟨e' :: front, e, list, inner'', congrArg _ hfront, (hpath _).trans hlist,
          (hpass.after _).trans hlookup, hentry⟩

end

/-- An element before the last one has all keys of its list: only the last element of a path may
leave some out. -/
theorem SelectsEntries.full {front rest : List Elem} {next : Elem}
    (h : SelectsEntries n (front ++ e :: next :: rest))
    (hlist : n.below? (front ++ [e]) = some list)
    {keys : List String} (hkeys : list.listKeys? = some keys) {key : String} (hkey : key ∈ keys) :
    ∃ text, get? e.keys key = some text := by
  induction front generalizing n with
  | nil =>
    obtain ⟨child, hchild, heq⟩ := Option.bind_eq_some_iff.1 hlist
    obtain rfl := Option.some.inj heq
    obtain ⟨hfull, -⟩ := h child hchild
    have hall := hfull.resolve_left fun hlast => by cases hlast.1
    exact Option.isSome_iff_exists.1 (hall keys hkeys key hkey)
  | cons f front ih =>
    obtain ⟨child, hchild, hlist⟩ := Option.bind_eq_some_iff.1 hlist
    exact ih (h child hchild).2 hlist

/-- The key of a new entry that a path ends in, in the form in which the write adds it. -/
theorem found?_key {home : Option String} {found : Node × Option String} {text : String}
    (hkeys : KeysFit list e) (hkeeps : KeepsKeys list (keyMembers list e) inner')
    (htext : get? e.keys (localName last.name) = some text)
    (hlast : list.walk? home [last] = some found) : ∃ kind, found.1.scalar? = some kind ∧
      childSchema list last = .ok found.1 ∧
      found? inner' last = some (keyValue text (some kind)) := by
  obtain ⟨child, hchild, howns, heq⟩ := Node.walk?_cons hlast
  obtain rfl := Option.some.inj heq
  obtain ⟨home', keys, children, rfl, hfit⟩ := hkeys
  obtain ⟨hmem, hlocal, home'', kind, hleaf, -⟩ := hfit _ (Members.mem_of_get? htext)
  obtain rfl := Option.some.inj (hchild.symm.trans hleaf)
  have hplain : last.isKeyed = false := howns
  -- the entry is fresh, so the key holds what the element gave for it
  have hget : get? inner' (localName last.name) = some (keyValue text (some kind)) := by
    rw [hkeeps keys rfl _ hmem, get?_keyMembers, htext, Node.child?, Node.children?,
      Option.bind_some, hlocal, hleaf]
    rfl
  refine ⟨kind, rfl, childSchema_of_ownsKeys hchild howns, ?_⟩
  rw [found?_of_not_isKeyed hplain, hget]

/-- **A path that ends in a key of a new entry** finds nothing before the change, and the key after
it. The key stands there in the form in which the path of the change gives it. -/
theorem lookup_newKey {β : Type} {g : Object → Node → β × Object} {out : β} {home : Option String}
    {found : Node × Option String} (hkeyed : n.Everywhere Node.KeyedAt)
    (h : LocalAt g out n parent last) (hmodify : modifyAt true g parent ms n = .ok (out, ms'))
    (hfull : SelectsEntries n (parent ++ [last])) (hq : n.walk? home q = some found)
    (hnew : NewKey n (.obj ms) (parent ++ [last]) q) :
    lookup q (.obj ms) n = .ok none ∧ ∃ above e last text kind, q = above ++ [e, last] ∧
      get? e.keys (localName last.name) = some text ∧ found.1.scalar? = some kind ∧
      lookup q (.obj ms') n = .ok (some (keyValue text (some kind), found.1)) := by
  obtain ⟨above, last', next, rest, rfl, hp, hends, hnone⟩ := hnew
  obtain ⟨list, keys, hlist, hkeys, hmem⟩ := endsInKey_concat.1 hends
  refine ⟨by rw [lookup_append, hnone]; rfl, ?_⟩
  obtain ⟨front, e, list', inner', rfl, hlist', hlookup, hentry⟩ :=
    exists_added hkeyed h hmodify hp hnone
  obtain rfl := Option.some.inj (hlist.symm.trans hlist')
  -- the element has all keys of its list, and the entry has come with them
  obtain ⟨text, htext⟩ := SelectsEntries.full (by rwa [hp, List.append_assoc] at hfull) hlist hkeys
    hmem
  obtain ⟨hfit, hkeeps⟩ := hentry (isKeyed_of_get? htext)
  obtain ⟨m, home', hm, hlast⟩ := Node.walk?_append hq
  obtain rfl := Option.some.inj (hlist.symm.trans hm)
  obtain ⟨kind, hkind, hschema, hfound⟩ := found?_key hfit hkeeps htext hlast
  refine ⟨front, e, last', text, kind, by rw [List.append_assoc]; rfl, htext, hkind, ?_⟩
  rw [lookup_append, hlookup]
  exact lookup_cons_of_found hschema hfound []

end Tree

end ConfigTree
