import ConfigTree.Proofs.Tree.Graft
import ConfigTree.Proofs.Tree.Trim

/-!
# Building a tree from its leaves

The leaves of valid data, written one after the other in the order in which they are listed, build
the data again, without what holds no leaf. The leaves of a member are listed together: the first
one adds what is missing, and the others find it. So the data is built part by part as it is listed.

* `Builds`: leaves are written one after the other into held members.
* `Builds.under`: leaves that are written below what an element selects.
* `builds_members`, `builds_entries`: the members of an object, and the entries of a list in their
  order.
* `builds_leaves`: all leaves of valid data.
-/

namespace ConfigTree.Tree

open ConfigTree.Path (Elem)
open Members (get? Sorted)
open Schema (Node DecimalFreeAt ColonFreeAt)
open Schema.Node (KeyedAt Stands Valid keyTuple)

variable {n m child list : Node} {entry : Bool} {e : Elem} {name : String}
  {ms cs cs₁ cs₂ inner inner' : Object} {home : Option String} {keys : List String}
  {children : List (String × Node)} {xs ys : List Json} {v w x : Json} {place : List Elem}
  {ls ls' : List Located}

/-! ### Writing leaf after leaf -/

/-- Leaves are written one after the other into the held members of a node at a place. The leaves
name their whole path, as a listing gives them, while a write into the members of the node takes
what is left of the path behind the place. Each written leaf is in held form, `fits`, so nothing is
rounded or respelled on its way in. -/
inductive Builds (n : Node) (place : List Elem) : List Located → Object → Object → Prop
  | nil {cs : Object} : Builds n place [] cs cs
  | cons {path : List Elem} {m : Node} {v : Json} {ls : List Located} {cs cs₁ cs₂ : Object}
      (leaf : m.isLeaf = true) (fits : Stands m false v v) (first : Grafts m v n path cs cs₁)
      (rest : Builds n place ls cs₁ cs₂) : Builds n place (⟨place ++ path, v, m⟩ :: ls) cs cs₂

theorem Builds.append (h : Builds n place ls cs cs₁) (h' : Builds n place ls' cs₁ cs₂) :
    Builds n place (ls ++ ls') cs cs₂ := by
  induction h with
  | nil => exact h'
  | cons leaf fits first rest ih => exact .cons leaf fits first (ih h')

/-- **Leaves below what an element selects.** The first of them opens it, and the others find what
has been put there. There has to be a first leaf: without one nothing is put, not even the empty
object that the right side has. -/
theorem Builds.under (hkeyed : child.Everywhere KeyedAt) (hchild : n.child? e.name = some child)
    (members : child.HasMembers e.isKeyed children) (hsel : e.isKeyed = true → Selects child e)
    (h : Builds child (place ++ [e]) ls inner inner') (hopens : Opens child e cs inner)
    (hkeys : hasKeys inner e.keys = true) (hne : ls ≠ []) :
    Builds n place ls cs (setFound e (.obj inner') cs) := by
  -- on the leaves, for any members around: the members that the second leaf is written into are
  -- those that the first has left
  induction h generalizing cs with
  | nil => exact absurd rfl hne
  | @cons path m v ls inner inner₁ inner₂ leaf fits first rest ih =>
    have hkeys₁ : hasKeys inner₁ e.keys = true :=
      (first.keepsKeys hkeyed).hasKeys (ownsKeys_of_selects hsel) hkeys
    have hselected : SelectedBy e (.obj inner₁) := fun _ => hkeys₁
    rw [List.append_assoc, List.singleton_append]
    refine .cons leaf fits (.step hchild members hsel hopens first) ?_
    cases rest with
    | nil => exact .nil
    | cons leaf' fits' first' rest' =>
      -- the other leaves find what the first one has left, and set it once more
      have hfound : Opens child e (setFound e (.obj inner₁) cs) inner₁ :=
        .found (found?_setFound hselected)
      have hrest := ih hfound hkeys₁ (List.cons_ne_nil _ _)
      rwa [setFound_setFound hselected] at hrest

/-! ### Members -/

/-- The leaves of a member are written into members that do not have it yet, but for the keys of an
entry, which are there from the start: they have been added with it, out of the path of its first
leaf. The leaves build what is left of the member, if it holds a leaf. -/
def Restores (n : Node) (name : String) (child : Node) (w : Json) : Prop :=
  ∀ place cs, get? cs name = (if name ∈ n.listKeys?.getD [] then some w else none) →
    Builds n place (leaves (place ++ [Elem.plain name]) child w) cs
      (if holdsLeaf child w then Members.insert cs name (trim child w) else cs)

theorem restores_leaf (hchild : n.child? name = some child) (hlocal : localName name = name)
    (hleaf : child.isLeaf = true) (hfits : Stands child false w w) : Restores n name child w := by
  intro place cs hcs
  rw [leaves_of_isLeaf hleaf, holdsLeaf_of_isLeaf hleaf, if_pos rfl, trim_of_isLeaf hleaf]
  refine .cons hleaf hfits (.leaf hchild hlocal fun keys hkeys hmem => ?_) .nil
  rw [hcs, hkeys, Option.getD_some, if_pos hmem]

/-- A child that has members is no key of its parent. So it is missing when its first leaf is
written. -/
theorem not_mem_keys (hkeyed : n.KeyedAt) (hchild : n.child? name = some child)
    (hlocal : localName name = name) (hmembers : child.children? = some children) :
    name ∉ n.listKeys?.getD [] := by
  intro hmem
  obtain ⟨siblings, hn, hname⟩ := get?_of_child? hchild
  -- a key is a leaf, and a leaf has no members
  cases hkeys : n.listKeys? with
  | none =>
    rw [hkeys] at hmem
    cases hmem
  | some keys =>
    rw [hkeys] at hmem
    obtain ⟨_, kind, hleaf⟩ := (hkeyed keys siblings hkeys hn).2 name hmem
    rw [hlocal] at hname
    obtain rfl := Option.some.inj (hname.symm.trans hleaf)
    cases hmembers

/-- A container is built from the leaves of its members. -/
theorem restores_container (hkeyed : n.KeyedAt) (hkeyed' : child.Everywhere KeyedAt)
    (hchild : n.child? name = some child) (hlocal : localName name = name)
    (hshape : child.HasMembers false children)
    (h : ∀ place, Builds child place (memberLeaves place child ms) [] (trimMembers child ms)) :
    Restores n name child (.obj ms) := by
  intro place cs hcs
  have hleaf := isLeaf_eq_false hshape.1
  -- nothing is there of a container, so the first leaf in it adds it
  rw [if_neg (not_mem_keys hkeyed hchild hlocal hshape.1)] at hcs
  cases hholds : holdsLeaf child (.obj ms) with
  | false =>
    rw [(leaves_eq_nil_iff place (Elem.plain name) child (.obj ms)).2 hholds]
    exact .nil
  | true =>
    have hne : memberLeaves (place ++ [Elem.plain name]) child ms ≠ [] := by
      rw [← leaves_obj hleaf, Ne, leaves_eq_nil_iff, hholds]
      exact Bool.noConfusion
    have hmissing : found? cs (Elem.plain name) = none := by rw [found?_plain hlocal, hcs]
    rw [leaves_obj hleaf, if_pos rfl, trim_obj hleaf, ← setFound_plain hlocal]
    exact (h (place ++ [Elem.plain name])).under hkeyed' hchild hshape (fun he => by cases he)
      (.container rfl hmissing) rfl hne

/-- **Members are built one after the other.** What is built of one has no part in what the others
start with, because the names differ. -/
theorem builds_memberLeaves (hsorted : Sorted ms)
    (h : ∀ o ∈ ms, ∃ child, n.child? o.1 = some child ∧ Restores n o.1 child o.2)
    (hcs : ∀ o ∈ ms, get? cs o.1 = if o.1 ∈ n.listKeys?.getD [] then some o.2 else none) :
    Builds n place (memberLeaves place n ms) cs (Members.insertAll cs (trimMembers n ms)) := by
  induction ms generalizing cs with
  | nil =>
    rw [memberLeaves, trimMembers]
    exact .nil
  | cons o ms ih =>
    obtain ⟨name, w⟩ := o
    obtain ⟨hlt, hs⟩ := Members.sorted_cons.1 hsorted
    obtain ⟨⟨child, hchild, hrestores⟩, h⟩ := List.forall_mem_cons.1 h
    obtain ⟨hhere, hcs⟩ := List.forall_mem_cons.1 hcs
    have hfirst := hrestores place cs hhere
    rw [memberLeaves, trimMembers, hchild]
    dsimp only
    cases hholds : holdsLeaf child w with
    | false =>
      -- nothing is built of it, and nothing of it is left
      rw [hholds, if_neg Bool.false_ne_true] at hfirst
      exact hfirst.append (ih hs h hcs)
    | true =>
      rw [hholds, if_pos rfl] at hfirst
      refine hfirst.append (ih hs h fun o ho => ?_)
      have hne : name ≠ o.1 := fun heq => String.lt_irrefl _ (heq ▸ hlt o ho)
      rw [Members.get?_insert, if_neg hne]
      exact hcs o ho

/-- What an object starts with: nothing, or the keys of an entry. It says so of every name, so that
members with the same keys in the same order are the same object. -/
def StartsWithKeys (n : Node) (ms cs : Object) : Prop :=
  Sorted cs ∧ ∀ name, get? cs name = if name ∈ n.listKeys?.getD [] then get? ms name else none

/-- What is no entry has no keys, so it starts with nothing. -/
theorem startsWithKeys_nil (hshape : n.HasMembers false children) : StartsWithKeys n ms [] := by
  have hlist : n.isList = false := Bool.eq_false_iff.2 fun h =>
    Bool.false_ne_true (hshape.2 h)
  refine ⟨Members.sorted_nil, fun key => ?_⟩
  rw [listKeys?_eq_none hlist, Option.getD_none, if_neg List.not_mem_nil]
  rfl

/-- The keys that an entry starts with are left of its members. So it makes no difference to the
result that they have been there before their own leaves were written. -/
theorem insertAll_trimMembers (hkeyed : n.KeyedAt) (hfree : ColonFreeAt n)
    (hshape : n.HasMembers entry children) (hsorted : Sorted ms) (hcs : StartsWithKeys n ms cs) :
    Members.insertAll cs (trimMembers n ms) = trimMembers n ms := by
  have htrim : Sorted (trimMembers n ms) := sorted_trimMembers hsorted
  refine Members.ext (Members.sorted_insertAll _ hcs.1) htrim fun name => ?_
  rw [Members.get?_insertAll htrim, hcs.2 name]
  -- a name that the trimmed object has is overwritten; one that it has not is no key, for the keys
  -- are never trimmed
  cases hget : get? (trimMembers n ms) name with
  | some v => rfl
  | none =>
    rw [Option.none_or]
    split
    · next hmem =>
      cases hkeys : n.listKeys? with
      | none =>
        rw [hkeys] at hmem
        cases hmem
      | some keys =>
        rw [hkeys] at hmem
        rw [← hget, get?_trimMembers_of_key hkeyed hfree.1 hshape.1 hkeys hmem hsorted]
    · rfl

/-- **An object is built from the leaves of its members.** -/
theorem builds_members (hkeyed : n.KeyedAt) (hfree : ColonFreeAt n)
    (hshape : n.HasMembers entry children) (hsorted : Sorted ms)
    (h : ∀ o ∈ ms, ∃ child, n.child? o.1 = some child ∧ Restores n o.1 child o.2)
    (hcs : StartsWithKeys n ms cs) :
    Builds n place (memberLeaves place n ms) cs (trimMembers n ms) := by
  have hbuilds : Builds n place (memberLeaves place n ms) cs
      (Members.insertAll cs (trimMembers n ms)) :=
    builds_memberLeaves hsorted h fun o ho => by rw [hcs.2, Members.get?_of_mem hsorted ho]
  rwa [insertAll_trimMembers hkeyed hfree hshape hsorted hcs] at hbuilds

/-! ### Entries -/

/-- The key of a valid entry is a leaf that it has, and holds a value of the kind. A valid entry may
lack a key, so this is where it is used that all keys are there. -/
theorem exists_key (hkeyed : (Node.list home keys children).KeyedAt)
    (hvalid : Valid (.list home keys children) true (.obj inner))
    (hfull : none ∉ keyTuple keys (.obj inner)) {key : String} (hkey : key ∈ keys) :
    ∃ home kind held, get? children key = some (.leaf home kind) ∧ get? inner key = some held ∧
      isOfKind kind held = true := by
  obtain ⟨home', kind, hleaf⟩ := (hkeyed keys children rfl rfl).2 key hkey
  obtain ⟨held, hheld⟩ := exists_held_of_keyed hfull hkey
  obtain ⟨-, hmembers⟩ := hvalid.exists_child .list
  obtain ⟨child, hchild, hvalid⟩ := hmembers key held hheld
  obtain rfl := Option.some.inj (hleaf.symm.trans hchild)
  cases hvalid with
  | leaf fits => exact ⟨home', kind, held, hleaf, hheld, fits⟩
  | object shape => cases shape.1

section

variable (hkeyed : (Node.list home keys children).Everywhere KeyedAt)
  (hfree : (Node.list home keys children).Everywhere ColonFreeAt)
  (hdecimal : (Node.list home keys children).Everywhere DecimalFreeAt)
  (hvalid : Valid (.list home keys children) true (.obj inner))
  (hfull : none ∉ keyTuple keys (.obj inner))

include hkeyed hfree hdecimal hvalid hfull

/-- The element of a valid entry selects it: the text of each held key is one that the write reads,
and reads as the held value. For a decimal this fails, since the text of a float need not be a
decimal that gives the float back. -/
theorem selects_entryElem (name : String) :
    Selects (.list home keys children) (entryElem name keys inner) := by
  have hhas : ∀ key, (get? (entryElem name keys inner).keys key).isSome ↔ key ∈ keys :=
    isSome_get?_entryElem hfull
  have hmem : ∀ pair ∈ (entryElem name keys inner).keys, pair.1 ∈ keys := by
    intro pair hpair
    rw [← hhas, Members.get?_of_mem (entryElem name keys inner).sorted hpair]
    rfl
  refine selects_of_ownsKeys hkeyed.here hfree.here hmem (isKeyed_of_keys hkeyed.here hhas) ?_ ?_
  · intro pair hpair leaf kind hleaf hkind
    obtain ⟨home', kind', held, hget, hheld, hfits⟩ :=
      exists_key hkeyed.here hvalid hfull (hmem pair hpair)
    obtain rfl := Option.some.inj (hleaf.symm.trans (hfree.here.child? rfl hget))
    obtain rfl := Option.some.inj hkind
    -- the text of the element is that of the held key
    have htext := Members.get?_of_mem (entryElem name keys inner).sorted hpair
    rw [get?_entryElem, if_pos (hmem pair hpair), hheld, Option.map_some] at htext
    rw [← Option.some.inj htext]
    refine isKeyText_keyString (fun hkind => ?_) ((hfree.child rfl hget).here.2 _ rfl) hfits
    exact (hdecimal.child rfl hget).here (congrArg some hkind)
  · intro keys' hkeys key hkey
    obtain rfl := Option.some.inj hkeys
    exact (hhas key).2 hkey

/-- **The keys that an entry is added with are those that it has.** They are read from the element
of the entry, whose texts have been made of the held keys. So this is the round trip of a key
through its text, for all keys of an entry at once. -/
theorem exists_startsWithKeys (name : String) : ∃ ks,
    HeldKeys (.list home keys children) (entryElem name keys inner) ks ∧
      StartsWithKeys (.list home keys children) inner ks := by
  have hsel := selects_entryElem hkeyed hfree hdecimal hvalid hfull name
  obtain ⟨ks, hks⟩ := hsel.exists_heldKeys
  have hnames : List.Forall₂ (fun (m : String × String) (c : String × Json) => m.1 = c.1)
      (entryElem name keys inner).keys ks := hks.imp fun _ _ h => h.1.symm
  -- a key is held as the entry has it, since its text stands for nothing else
  refine ⟨ks, hks, Members.sorted_of_forall₂ (entryElem name keys inner).sorted hnames,
    fun key => ?_⟩
  change get? ks key = if key ∈ keys then get? inner key else none
  have hget : get? (entryElem name keys inner).keys key
      = if key ∈ keys then (get? inner key).map keyString else none := get?_entryElem key
  split
  · next hkey =>
    obtain ⟨home', kind, held, hleaf, hheld, hfits⟩ := exists_key hkeyed.here hvalid hfull hkey
    rw [if_pos hkey, hheld, Option.map_some] at hget
    obtain ⟨c, hc⟩ := (Members.sameNames_of_forall₂ hnames).exists_right hget
    obtain ⟨leaf, kind', hchild, hkind, hform⟩ :=
      Members.rel_of_get? (hks.imp fun _ _ h => ⟨h.1.symm, h.2⟩) hget hc
    obtain rfl := Option.some.inj (hchild.symm.trans (hfree.here.child? rfl hleaf))
    obtain rfl := Option.some.inj hkind
    have hkind := fun heq => (hdecimal.child rfl hleaf).here (congrArg some heq)
    have hvalues := (hfree.child rfl hleaf).here.2 _ rfl
    rw [canonicalScalar_keyString hkind hvalues hfits] at hform
    rw [hc, hheld, Except.ok.inj hform]
  · next hkey =>
    rw [if_neg hkey] at hget
    exact (Members.sameNames_of_forall₂ hnames).eq_none hget

omit hdecimal in
/-- The keys of a valid entry are listed, so there is a leaf. No entry is lost when a tree is built
from leaves, not even one that has nothing but its keys. -/
theorem memberLeaves_ne_nil (place : List Elem) :
    memberLeaves place (.list home keys children) inner ≠ [] := by
  obtain ⟨hne, -⟩ := hkeyed.here keys children rfl rfl
  obtain ⟨key, hkey⟩ := List.exists_mem_of_ne_nil keys hne
  obtain ⟨home', kind, held, hleaf, hheld, -⟩ := exists_key hkeyed.here hvalid hfull hkey
  have hchild := hfree.here.child? rfl hleaf
  refine List.ne_nil_of_mem (a := ⟨place ++ [Elem.plain key], held, .leaf home' kind⟩) ?_
  rw [memberLeaves_eq, List.mem_flatMap]
  refine ⟨(key, held), Members.mem_of_get? hheld, ?_⟩
  rw [hchild]
  dsimp only
  rw [leaves_of_isLeaf rfl]
  exact List.mem_singleton_self _

/-- **An entry is added and built from the leaves of its members**, if no entry before it has its
keys. With such an entry there, the leaves would be written into that one. -/
theorem builds_entry (hchild : n.child? name = some (.list home keys children))
    (hlocal : localName name = name)
    (h : ∀ place cs, StartsWithKeys (.list home keys children) inner cs →
      Builds (.list home keys children) place (memberLeaves place (.list home keys children) inner)
        cs (trimMembers (.list home keys children) inner))
    (hys : entriesOf cs name = ys) (hnew : keyTuple keys (.obj inner) ∉ ys.map (keyTuple keys))
    (place : List Elem) :
    Builds n place
      (memberLeaves (place ++ [entryElem name keys inner]) (.list home keys children) inner) cs
      (Members.insert cs name
        (.arr (ys ++ [.obj (trimMembers (.list home keys children) inner)]))) := by
  have hsel := selects_entryElem hkeyed hfree hdecimal hvalid hfull name
  -- what is added has the keys of the entry, so its leaves are built from there
  obtain ⟨ks, hks, hstarts⟩ := exists_startsWithKeys hkeyed hfree hdecimal hvalid hfull name
  have hisKeyed : (entryElem name keys inner).isKeyed = true :=
    isKeyed_of_keys hkeyed.here (isSome_get?_entryElem hfull)
  -- nothing is selected yet: an entry that is selected has the same keys
  have hname : localName (entryElem name keys inner).name = name := by
    rw [entryElem_name hlocal, hlocal]
  have hnone : ys.findIdx? (isEntryWith (entryElem name keys inner).keys) = none := by
    rw [List.findIdx?_eq_none_iff]
    intro y hy
    refine Bool.eq_false_iff.2 fun hother => hnew (List.mem_map.2 ⟨y, hy, ?_⟩)
    cases y with
    | obj other => exact (hasKeys_entryElem hfull).1 hother
    | _ => cases hother
  have hmissing : found? cs (entryElem name keys inner) = none := by
    rw [found?_of_isKeyed hisKeyed, hname, hys, List.find?_eq_none]
    intro y hy hother
    exact Bool.false_ne_true ((List.findIdx?_eq_none_iff.1 hnone y hy).symm.trans hother)
  have hset : ∀ v, setFound (entryElem name keys inner) v cs
      = Members.insert cs name (.arr (ys ++ [v])) := by
    intro v
    rw [setFound_of_isKeyed hisKeyed, hname, hys, setEntry_of_none hnone]
  have hmembers : (Node.list home keys children).HasMembers (entryElem name keys inner).isKeyed
      children := by
    rw [hisKeyed]
    exact .list
  have hne := memberLeaves_ne_nil hkeyed hfree hvalid hfull (place ++ [entryElem name keys inner])
  rw [← hset]
  have hchild' : n.child? (entryElem name keys inner).name = some (.list home keys children) := by
    rw [entryElem_name hlocal, hchild]
  exact (h _ ks hstarts).under hkeyed hchild' hmembers (fun _ => hsel)
    (.entry hisKeyed hmissing hks) (hks.stands hsel).2 hne

end

section

variable (hkeyed : (Node.list home keys children).Everywhere KeyedAt)
  (hfree : (Node.list home keys children).Everywhere ColonFreeAt)
  (hdecimal : (Node.list home keys children).Everywhere DecimalFreeAt)
  (hchild : n.child? name = some (.list home keys children)) (hlocal : localName name = name)
  (hentries : ∀ x ∈ xs, ∃ ms, x = .obj ms ∧ Valid (.list home keys children) true (.obj ms) ∧
    none ∉ keyTuple keys (.obj ms))
  (h : ∀ inner, .obj inner ∈ xs → ∀ place cs, StartsWithKeys (.list home keys children) inner cs →
    Builds (.list home keys children) place (memberLeaves place (.list home keys children) inner)
      cs (trimMembers (.list home keys children) inner))

include hkeyed hfree hdecimal hchild hlocal hentries h

/-- **Entries are added one after the other**, behind those that are there. The entries keep their
order because a new one goes to the end, and the leaves of an entry are listed together. -/
theorem builds_entries (hys : entriesOf cs name = ys)
    (hdistinct : (ys.map (keyTuple keys) ++ xs.map (keyTuple keys)).Nodup) (hne : xs ≠ [])
    (place : List Elem) :
    Builds n place (entryLeaves place name (.list home keys children) xs) cs
      (Members.insert cs name (.arr (ys ++ trimEntries (.list home keys children) xs))) := by
  -- on the entries that are still to come, for any that are there: each one that is added joins
  -- those
  induction xs generalizing cs ys with
  | nil => exact absurd rfl hne
  | cons x xs ih =>
    obtain ⟨⟨inner, rfl, hvalid, hfull⟩, hentries'⟩ := List.forall_mem_cons.1 hentries
    have hfirst := h inner List.mem_cons_self
    rw [List.map_cons] at hdistinct
    have hnew : keyTuple keys (.obj inner) ∉ ys.map (keyTuple keys) := fun hmem =>
      (List.nodup_append.1 hdistinct).2.2 _ hmem _ List.mem_cons_self rfl
    have hbuilt := builds_entry hkeyed hfree hdecimal hvalid hfull hchild hlocal hfirst hys hnew
      place
    rw [entryLeaves, trimEntries]
    refine hbuilt.append ?_
    cases xs with
    | nil =>
      rw [entryLeaves, trimEntries]
      exact .nil
    | cons x' xs =>
      -- the entry that has been added is one of those that the others come behind
      have hys' : entriesOf (Members.insert cs name
          (.arr (ys ++ [.obj (trimMembers (.list home keys children) inner)]))) name
          = ys ++ [.obj (trimMembers (.list home keys children) inner)] := entriesOf_insert
      have htuple : keyTuple keys (.obj (trimMembers (.list home keys children) inner))
          = keyTuple keys (.obj inner) :=
        (keepsKeys_trimMembers hkeyed.here hfree.here.1 rfl
          (hvalid.exists_child .list).1).keyTuple rfl
      have hdistinct' : ((ys ++ [Json.obj (trimMembers (.list home keys children) inner)]).map
          (keyTuple keys) ++ (x' :: xs).map (keyTuple keys)).Nodup := by
        rwa [List.map_append, List.map_singleton, htuple, List.append_assoc, List.singleton_append]
      have hothers := ih hentries' (fun inner hx => h inner (List.mem_cons_of_mem _ hx)) hys'
        hdistinct' (List.cons_ne_nil _ _)
      rwa [Members.insert_insert, List.append_assoc, List.singleton_append] at hothers

/-- A list is built from the leaves of its entries. An empty list has no leaf and is not built, and
a list with an entry always has one. -/
theorem restores_list (hkeyedAt : n.KeyedAt) (hdistinct : (xs.map (keyTuple keys)).Nodup) :
    Restores n name (.list home keys children) (.arr xs) := by
  intro place cs hcs
  rw [if_neg (not_mem_keys hkeyedAt hchild hlocal rfl)] at hcs
  have hleaves : leaves (place ++ [Elem.plain name]) (.list home keys children) (.arr xs)
      = entryLeaves place name (.list home keys children) xs := by
    rw [leaves, List.getLast?_concat, List.dropLast_concat]
    rfl
  have htrim : trim (.list home keys children) (.arr xs)
      = .arr (trimEntries (.list home keys children) xs) := by
    rw [trim]
    rfl
  have hholds : holdsLeaf (.list home keys children) (.arr xs)
      = entriesHoldLeaf (.list home keys children) xs := by
    rw [holdsLeaf]
    rfl
  rw [hleaves, htrim, hholds]
  cases xs with
  | nil =>
    rw [entryLeaves, entriesHoldLeaf, if_neg Bool.false_ne_true]
    exact .nil
  | cons x xs =>
    -- the keys of the first entry are leaves, so the list is left in the tree
    have hfirst : entriesHoldLeaf (.list home keys children) (x :: xs) = true := by
      obtain ⟨⟨inner, rfl, hvalid, hfull⟩, -⟩ := List.forall_mem_cons.1 hentries
      have hmembers : membersHoldLeaf (.list home keys children) inner = true := by
        rw [← Bool.not_eq_false, ← memberLeaves_eq_nil_iff place]
        exact memberLeaves_ne_nil hkeyed hfree hvalid hfull place
      rw [entriesHoldLeaf, hmembers, Bool.true_or]
    rw [hfirst, if_pos rfl]
    exact builds_entries hkeyed hfree hdecimal hchild hlocal hentries h (entriesOf_of_none hcs)
      hdistinct (List.cons_ne_nil _ _) place

end

/-! ### Whole trees -/

/-- **Valid data is built from its leaves**, but for what holds none. An entry is built from its
keys on, and a member where it is missing. The induction is on the validity of the data, whose cases
are the shapes that data can have under the schema. -/
theorem builds_leaves (hkeyed : n.Everywhere KeyedAt) (hfree : n.Everywhere ColonFreeAt)
    (hdecimal : n.Everywhere DecimalFreeAt) (hvalid : Valid n entry w) :
    (∀ children ms, n.HasMembers entry children → w = .obj ms → ∀ place cs,
      StartsWithKeys n ms cs → Builds n place (memberLeaves place n ms) cs (trimMembers n ms)) ∧
    (entry = false → ∀ parent name, parent.KeyedAt → parent.child? name = some n →
      localName name = name → Restores parent name n w) := by
  -- an entry is not restored on its own but built where it has been added, hence the two parts
  induction hvalid with
  | leaf fits =>
    refine ⟨fun children ms hshape => ?_, fun _ parent name _ hchild hlocal => ?_⟩
    · cases hshape.1
    · exact restores_leaf hchild hlocal rfl
        (.leaf (coerce?_of_isOfKind (hfree.here.2 _ rfl) fits) fits)
  | leafList fits =>
    refine ⟨fun children ms hshape => ?_, fun _ parent name _ hchild hlocal => ?_⟩
    · cases hshape.1
    · exact restores_leaf hchild hlocal rfl
        (.leafList (Schema.Node.forall₂_coerce?_of_isOfKind (hfree.here.2 _ rfl) fits) fits)
  | @object n entry children ms shape sorted known members ih =>
    -- a member is restored by the second part, at the child that the schema has for it
    have hrestores : ∀ o ∈ ms, ∃ child, n.child? o.1 = some child ∧ Restores n o.1 child o.2 := by
      intro o ho
      have hget := Members.get?_of_mem sorted ho
      obtain ⟨child, hchild⟩ := Option.isSome_iff_exists.1 (known o.1 o.2 hget)
      have hlocal := hfree.here.localName shape.1 hchild
      have hthere := hfree.here.child? shape.1 hchild
      have hmember := ih o.1 child o.2 hchild hget (hkeyed.child shape.1 hchild)
        (hfree.child shape.1 hchild) (hdecimal.child shape.1 hchild)
      exact ⟨child, hthere, hmember.2 rfl n o.1 hkeyed.here hthere hlocal⟩
    have hobject : ∀ place cs, StartsWithKeys n ms cs →
        Builds n place (memberLeaves place n ms) cs (trimMembers n ms) :=
      fun place cs => builds_members hkeyed.here hfree.here shape sorted hrestores
    refine ⟨fun children' ms' _ hms => ?_, fun hentry parent name hparent hchild hlocal => ?_⟩
    · obtain rfl := Json.obj.inj hms
      exact hobject
    · subst hentry
      exact restores_container hparent hkeyed hchild hlocal shape fun place =>
        hobject place [] (startsWithKeys_nil shape)
  | @list home keys children xs entries keyed distinct ih =>
    have hentries : ∀ x ∈ xs, ∃ ms, x = .obj ms ∧ Valid (.list home keys children) true (.obj ms) ∧
        none ∉ keyTuple keys (.obj ms) := by
      intro x hx
      have hvalid := entries x hx
      obtain ⟨ms, rfl⟩ := hvalid.eq_obj .list
      exact ⟨ms, rfl, hvalid, keyed _ hx⟩
    refine ⟨fun children' ms hshape hms => ?_, fun _ parent name hparent hchild hlocal => ?_⟩
    · cases hms
    -- its entries are built by the first part, each from its keys on
    · refine restores_list hkeyed hfree hdecimal hchild hlocal hentries (fun inner hx => ?_) hparent
        distinct
      exact (ih _ hx hkeyed hfree hdecimal).1 children inner .list rfl

end ConfigTree.Tree
