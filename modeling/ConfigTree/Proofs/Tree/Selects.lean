import ConfigTree.Proofs.Tree.Alike

/-!
# Paths that select entries

An element selects one entry of a list if it has all keys of the list. If their texts are ones that
valid keys have, an entry that is added for the element is valid too.

* `Selects`: an element has all keys of a list, with such texts.
* `HeldKeys.stands`: a new entry stands for its keys in held form, and has the texts of the path.
* `heldKeys`: these keys as a function of the element, which has none where a container is added.
* `leads_of_walk?`: a path that has a node in the schema leads there through containers and through
  entries that its elements select, if each element has all keys of its list.
-/

namespace ConfigTree.Tree

open ConfigTree.Path (Elem)
open Members (get? Sorted SameNames InStep)
open Schema (Node)
open Schema.Node (Alike Stands keyTuple)

variable {n child list : Node} {e : Elem} {home : Option String} {keys : List String}
  {children : List (String × Node)} {ms ks : Object}

/-! ### Elements that select an entry -/

/-- An element has all keys of a list and no others, with texts that valid keys have. It is what a
request has to give for an entry that it may add. -/
structure Selects (list : Node) (e : Elem) : Prop where
  fit : KeysFit list e
  full : Full list e
  valid : ∀ key ∈ e.keys, ∀ leaf kind, list.child? key.1 = some leaf →
    leaf.scalar? = some kind → IsKeyText key.2 kind

theorem ownsKeys_of_selects (hsel : e.isKeyed = true → Selects child e) : child.OwnsKeys e :=
  ownsKeys_of_keysFit fun he => (hsel he).fit

/-- A key of an element and the member that an entry has for it in held form. The conversion is that
of a commit, with an empty place, since the place only shows in messages. -/
def KeyHeld (list : Node) (key : String × String) (held : String × Json) : Prop :=
  held.1 = key.1 ∧ ∃ leaf kind, list.child? key.1 = some leaf ∧ leaf.scalar? = some kind ∧
    canonicalScalar "" kind (keyValue key.2 (some kind)) = .ok held.2

/-- The keys of an element in the form in which an entry has them. They are what a new entry
consists of once the tree has been read back. -/
def HeldKeys (list : Node) (e : Elem) (ks : Object) : Prop :=
  List.Forall₂ (KeyHeld list) e.keys ks

/-- The leaf that a key of an element is about. -/
theorem KeysFit.exists_leaf (h : KeysFit (.list home keys children) e) {key : String × String}
    (hkey : key ∈ e.keys) : key.1 ∈ keys ∧ ∃ home kind,
      get? children key.1 = some (.leaf home kind) ∧
      (Node.list home keys children).child? key.1 = some (.leaf home kind) := by
  obtain ⟨_, _, _, heq, hfit⟩ := h
  cases heq
  obtain ⟨hmem, hlocal, home', kind, hleaf, -⟩ := hfit key hkey
  exact ⟨hmem, home', kind, hleaf, Node.child?_of_get? rfl hlocal hleaf⟩

/-- The entries that an element selects are those with its keys, all of them. A valid list has one
such entry at most. -/
theorem Selects.hasKeys_iff (h : Selects (.list home keys children) e) :
    hasKeys ms e.keys = true ↔ keyTuple keys (.obj ms) = keys.map fun key => get? e.keys key := by
  refine ⟨Full.keyTuple h.full, fun hall => Tree.hasKeys_iff.2 fun key hkey => ?_⟩
  rw [keyTuple, List.map_inj_left] at hall
  obtain ⟨hmem, -⟩ := h.fit.exists_leaf hkey
  rw [← Members.get?_of_mem e.sorted hkey]
  exact hall key.1 hmem

/-! ### New entries -/

theorem Selects.exists_heldKeys (h : Selects list e) : ∃ ks, HeldKeys list e ks := by
  refine exists_forall₂ fun key hkey => ?_
  obtain ⟨home, keys, children, rfl, -⟩ := id h.fit
  obtain ⟨-, home', kind, -, hleaf⟩ := h.fit.exists_leaf hkey
  obtain ⟨c, hc, -⟩ := h.valid key hkey _ kind hleaf rfl
  exact ⟨(key.1, c), rfl, _, kind, hleaf, rfl, hc⟩

/-- The key of a new entry stands for its held form, which has the text that the path gives. -/
theorem KeyHeld.stands {key : String × String} {held : String × Json} (h : KeyHeld list key held)
    (hsel : Selects list e) (hkey : key ∈ e.keys) : keyString held.2 = key.2 ∧
      ∃ children leaf, list.HasMembers true children ∧ get? children key.1 = some leaf ∧
        Stands leaf false (keyValue key.2 ((list.child? key.1).bind Node.scalar?)) held.2 := by
  obtain ⟨-, leaf, kind, hleaf, hkind, hheld⟩ := h
  obtain ⟨home, keys, children, rfl, -⟩ := id hsel.fit
  obtain ⟨-, home', kind', hget, hchild⟩ := hsel.fit.exists_leaf hkey
  obtain rfl := Option.some.inj (hleaf.symm.trans hchild)
  obtain rfl := Option.some.inj hkind
  obtain ⟨c, hc, hfits, htext⟩ := hsel.valid key hkey _ _ hleaf rfl
  obtain rfl := Except.ok.inj (hheld.symm.trans hc)
  refine ⟨htext, children, _, .list, hget, ?_⟩
  rw [hleaf]
  exact .leaf (canonicalScalar_eq_ok_iff.1 hheld) (checkScalar_eq_ok_iff.1 hfits)

/-- **A new entry stands for its keys in held form**, and has the texts that the path gives. So an
entry that is added is valid by itself, even before anything is put into it. -/
theorem HeldKeys.stands (hks : HeldKeys list e ks) (h : Selects list e) :
    Stands list true (newEntry list e) (.obj ks) ∧ hasKeys ks e.keys = true := by
  obtain ⟨home, keys, children, rfl, -⟩ := id h.fit
  have hstep : InStep (fun child w c => Stands child false w c) children
      (keyMembers (.list home keys children) e) ks := by
    -- keys and members come in the same order
    refine Members.inStep_iff_forall₂.2 ⟨Members.sorted_map _ e.sorted, ?_⟩
    rw [keyMembers, List.forall₂_map_left_iff]
    refine List.forall₂_iff_zip.2 ⟨hks.length_eq, fun {key held} hmem => ?_⟩
    have hheld := List.forall₂_zip hks hmem
    obtain ⟨-, children', leaf, hchildren, hleaf, hstands⟩ :=
      hheld.stands h (List.of_mem_zip hmem).1
    obtain rfl := Option.some.inj hchildren.1
    exact ⟨hheld.1.symm, leaf, hleaf, hstands⟩
  refine ⟨(Schema.Node.stands_object_iff .list).2 hstep, hasKeys_iff.2 fun key hkey => ?_⟩
  obtain ⟨held, hmem, hheld⟩ := exists_mem_right_of_forall₂ hks hkey
  obtain ⟨htext, -⟩ := hheld.stands h hkey
  rw [← hheld.1, Members.get?_of_mem hstep.sorted' hmem, Option.map_some, htext]

/-- The text of a key in the form in which an entry holds it. Where it has none, anything will do,
for the texts in question are those of valid keys. -/
def heldKey (list : Node) (key : String × String) : Json :=
  match (list.child? key.1).bind Node.scalar? with
  | some kind => (canonicalScalar "" kind (keyValue key.2 (some kind))).toOption.getD .null
  | none => .null

/-- What is added for an element with keys, or none, in held form. For an element without keys this
is an empty container, so that both sorts of steps add the same function of their element. -/
def heldKeys (list : Node) (keys : List (String × String)) : Object :=
  keys.map fun key => (key.1, heldKey list key)

theorem HeldKeys.eq_heldKeys (h : HeldKeys list e ks) : ks = heldKeys list e.keys := by
  unfold HeldKeys at h
  unfold heldKeys
  generalize e.keys = keys at h ⊢
  induction h with
  | nil => rfl
  | @cons key held _ _ hkey _ ih =>
    obtain ⟨hname, leaf, kind, hleaf, hkind, hheld⟩ := hkey
    rw [List.map_cons, ← ih, heldKey, hleaf, Option.bind_some, hkind]
    simp only [hheld, Except.toOption, Option.getD_some, ← hname]

/-- What is added for an element stands for its keys in held form. -/
theorem stands_heldKeys (hbelow : child.HasMembers e.isKeyed children)
    (hsel : e.isKeyed = true → Selects child e) :
    Stands child e.isKeyed (.obj (keyMembers child e)) (.obj (heldKeys child e.keys)) ∧
      hasKeys (heldKeys child e.keys) e.keys = true := by
  cases he : e.isKeyed with
  | true =>
    obtain ⟨ks, hks⟩ := (hsel he).exists_heldKeys
    rw [← hks.eq_heldKeys]
    exact hks.stands (hsel he)
  | false =>
    rw [keyMembers, keys_eq_nil he]
    exact ⟨(Schema.Node.stands_object_iff (he ▸ hbelow)).2 .nil, rfl⟩

/-! ### Paths that select entries -/

/-- Each element of a path that names a list has all keys of the list; the last one may have none
instead. -/
def SelectsEntries : Node → List Elem → Prop
  | _, [] => True
  | n, e :: rest => ∀ child, n.child? e.name = some child →
      (rest = [] ∧ e.isKeyed = false ∨
        ∀ keys, child.listKeys? = some keys → ∀ key ∈ keys, (get? e.keys key).isSome) ∧
      SelectsEntries child rest

/-- A path ends in a key of the entry above. A write there may make the entry another one, which is
why most statements leave such paths out. -/
def EndsInKey (n : Node) (elems : List Elem) : Prop :=
  ∃ above last list keys, elems = above ++ [last] ∧ n.below? above = some list ∧
    list.listKeys? = some keys ∧ localName last.name ∈ keys

/-- Whether a path ends in a key is told by its last element and the node above. -/
theorem endsInKey_concat {above : List Elem} : EndsInKey n (above ++ [e]) ↔
    ∃ list keys, n.below? above = some list ∧ list.listKeys? = some keys ∧
      localName e.name ∈ keys := by
  constructor
  · rintro ⟨above', last, list, keys, helems, hlist, hkeys, hmem⟩
    obtain ⟨rfl, heq⟩ := List.append_inj' helems rfl
    obtain rfl := List.head_eq_of_cons_eq heq
    exact ⟨list, keys, hlist, hkeys, hmem⟩
  · rintro ⟨list, keys, hlist, hkeys, hmem⟩
    exact ⟨above, e, list, keys, rfl, hlist, hkeys, hmem⟩

/-- A path of one element does not end in a key unless it starts at an entry. -/
theorem not_endsInKey_singleton (hkeys : n.listKeys? = none) : ¬ EndsInKey n [e] := by
  rw [← List.nil_append [e], endsInKey_concat]
  rintro ⟨list, keys, hlist, hlistKeys, -⟩
  obtain rfl := Option.some.inj hlist
  cases hkeys.symm.trans hlistKeys

/-- A path leads from a node to another one below it, through containers and through entries that
its elements select. -/
inductive Leads : Node → List Elem → Node → Prop
  | here {n : Node} : Leads n [] n
  | step {n child below : Node} {children : List (String × Node)} {e : Elem} {rest : List Elem}
      (hchild : n.child? e.name = some child) (members : child.HasMembers e.isKeyed children)
      (selects : e.isKeyed = true → Selects child e) (leads : Leads child rest below) :
      Leads n (e :: rest) below

theorem selects_of_ownsKeys (hkeyed : child.KeyedAt) (hfree : Schema.ColonFreeAt child)
    (howns : child.OwnsKeys e) (he : e.isKeyed = true)
    (hvalid : ∀ key ∈ e.keys, ∀ leaf kind, child.child? key.1 = some leaf →
      leaf.scalar? = some kind → IsKeyText key.2 kind)
    (hfull : Full child e) : Selects child e :=
  ⟨keysFit_of_ownsKeys hkeyed hfree howns he fun key hkey leaf kind hleaf hkind =>
    (hvalid key hkey leaf kind hleaf hkind).isStored, hfull, hvalid⟩

/-- A node on the way has members, and the element that names it has keys if it is a list. -/
theorem hasMembers_of_full (hkeyed : child.KeyedAt) (hchildren : child.children? = some children)
    (hfull : Full child e) : child.HasMembers e.isKeyed children := by
  refine ⟨hchildren, fun hlist => ?_⟩
  obtain ⟨keys, hkeys⟩ := Option.isSome_iff_exists.1 hlist
  obtain ⟨hne, -⟩ := hkeyed keys children hkeys hchildren
  obtain ⟨key, hkey⟩ := List.exists_mem_of_ne_nil keys hne
  -- a list has keys, so an element that has them all has some
  cases hpairs : e.keys with
  | nil =>
    have hsome := hfull keys hkeys key hkey
    rw [hpairs] at hsome
    cases hsome
  | cons => simp [Elem.isKeyed, hpairs]

/-- **A path that has a node in the schema and selects entries leads to the node above its end.** -/
theorem leads_of_walk? {home : Option String} {above : List Elem} {last : Elem}
    {found : Node × Option String} (hkeyed : n.Everywhere Node.KeyedAt)
    (hfree : n.Everywhere Schema.ColonFreeAt) (h : n.walk? home (above ++ [last]) = some found)
    (hselects : SelectsEntries n (above ++ [last]))
    (hvalid : EachKey IsKeyText n (above ++ [last])) :
    ∃ m, n.below? above = some m ∧ Leads n above m ∧ m.child? last.name = some found.1 ∧
      (last.isKeyed = true → Selects found.1 last) := by
  induction above generalizing n home with
  | nil =>
    obtain ⟨c, hc, howns, hrest⟩ := Node.walk?_cons h
    obtain rfl := Option.some.inj hrest
    obtain ⟨hkeys, -⟩ := hvalid c hc
    obtain ⟨hfull, -⟩ := hselects c hc
    obtain ⟨children, hn, hname⟩ := get?_of_child? hc
    refine ⟨n, rfl, .here, hc, fun he => ?_⟩
    rcases hfull with ⟨-, hplain⟩ | hfull
    · cases he.symm.trans hplain
    · exact selects_of_ownsKeys (hkeyed.child hn hname).here (hfree.child hn hname).here howns he
        hkeys hfull
  | cons e above ih =>
    obtain ⟨c, hc, howns, hrest⟩ := Node.walk?_cons h
    obtain ⟨hkeys, hvalid⟩ := hvalid c hc
    obtain ⟨hfull, hselects⟩ := hselects c hc
    obtain ⟨children, hn, hname⟩ := get?_of_child? hc
    have hkeyed' := hkeyed.child hn hname
    have hfree' := hfree.child hn hname
    -- only the last element may leave out the keys
    replace hfull := hfull.resolve_left fun hlast => by simp at hlast
    obtain ⟨m, hm, hleads, hlast⟩ := ih hkeyed' hfree' hrest hselects hvalid
    -- something stands below, so the node has members
    obtain ⟨cs, hcs⟩ : ∃ cs, c.children? = some cs := by
      cases hleads with
      | here =>
        obtain ⟨cs, hcs, -⟩ := get?_of_child? hlast.1
        exact ⟨cs, hcs⟩
      | step hchild =>
        obtain ⟨cs, hcs, -⟩ := get?_of_child? hchild
        exact ⟨cs, hcs⟩
    refine ⟨m, by rw [Node.below?_cons hc, hm], ?_, hlast⟩
    exact .step hc (hasMembers_of_full hkeyed'.here hcs hfull)
      (fun he => selects_of_ownsKeys hkeyed'.here hfree'.here howns he hkeys hfull) hleads

end ConfigTree.Tree
