import ConfigTree.Proofs.KeyText
import ConfigTree.Proofs.Tree.Frame

/-!
# Writing one leaf

A write sets what the elements of its path select, one below the other. So the write of one leaf can
be followed step by step on the document that the tree stands for.

* `Grafts`: one leaf is written into held members. What is added on the way has its keys already in
  held form.
* `Grafts.stands`: the write of a leaf leaves a tree that stands for that document.
* `modifyAt_readBy`: it brings no numbers into the tree that a reader rounds.
-/

namespace ConfigTree

open ConfigTree.Path (Elem)
open Members (get? Sorted)
open Schema (Node)
open Schema.Node (Alike Stands keyTuple)

namespace Tree

variable {n m child list : Node} {entry : Bool} {e : Elem} {ms cs cs' inner held : Object}
  {keys : List (String × String)} {xs : List Json} {v w : Json} {path : List Elem} {c : Child}

/-! ### Writing a leaf -/

/-- The members of what an element selects, or of what is added for it: a container is empty then,
and an entry has its keys in held form. The tree itself may hold the texts of the path there; the
document is written as a client will read it. -/
inductive Opens (child : Node) (e : Elem) (cs : Object) : Object → Prop
  | found {inner : Object} (h : found? cs e = some (.obj inner)) : Opens child e cs inner
  | container (he : e.isKeyed = false) (h : found? cs e = none) : Opens child e cs []
  | entry {ks : Object} (he : e.isKeyed = true) (h : found? cs e = none)
      (keys : HeldKeys child e ks) : Opens child e cs ks

/-- The leaf `m` gets the value `v` in held members, at the end of a path from their node. The
relation follows the path on the document alone, so that it can be built up without a tree. A key of
an entry gets the value only that it has: with another one the entry would be selected by other
elements afterwards, and the next leaf of it would not be found to belong to it. -/
inductive Grafts (m : Node) (v : Json) : Node → List Elem → Object → Object → Prop
  | leaf {n : Node} {name : String} {cs : Object} (hchild : n.child? name = some m)
      (local' : localName name = name)
      (same : ∀ keys, n.listKeys? = some keys → name ∈ keys → get? cs name = some v) :
      Grafts m v n [Elem.plain name] cs (Members.insert cs name v)
  | step {n child : Node} {e : Elem} {rest : List Elem} {children : List (String × Node)}
      {cs inner inner' : Object} (hchild : n.child? e.name = some child)
      (members : child.HasMembers e.isKeyed children) (selects : e.isKeyed = true → Selects child e)
      (opens : Opens child e cs inner) (below : Grafts m v child rest inner inner') :
      Grafts m v n (e :: rest) cs (setFound e (.obj inner') cs)

theorem Grafts.keepsKeys (hkeyed : n.Everywhere Node.KeyedAt) (h : Grafts m v n path cs cs') :
    KeepsKeys n cs cs' := by
  cases h with
  | @leaf _ name _ hchild _ same =>
    intro keys hkeys key hkey
    rw [Members.get?_insert]
    split
    · next heq =>
      subst heq
      exact (same keys hkeys hkey).symm
    · rfl
  -- a step sets a member that has members itself, and the keys of a node are leaves
  | step hchild members =>
    exact keepsKeys_of_child hkeyed.here hchild members.1 fun key hne => get?_setFound_of_ne hne

/-- The path of a write leads to the leaf: its elements carry keys only where entries are, and the
keys that the entries have. -/
theorem Grafts.addresses (h : Grafts m v n path cs cs') : Addresses n path := by
  induction h with
  | leaf hchild =>
    refine ⟨m, hchild, fun he => ?_, trivial⟩
    cases he
  | step hchild members selects opens below ih =>
    exact ⟨_, hchild, fun he => (selects he).fit, ih⟩

theorem Grafts.walk? (h : Grafts m v n path cs cs') (home : Option String) :
    ∃ home', n.walk? home path = some (m, home') := by
  induction h generalizing home with
  | @leaf n name cs hchild =>
    have howns : m.OwnsKeys (Elem.plain name) := ownsKeys_of_selects fun he => by cases he
    exact ⟨_, Node.walk?_of_ownsKeys hchild howns rfl⟩
  | step hchild members selects opens below ih =>
    obtain ⟨home', hrest⟩ := ih (Option.or _ home)
    exact ⟨home', Node.walk?_of_ownsKeys hchild (ownsKeys_of_selects selects) hrest⟩

/-- The path ends in the name of the leaf. -/
theorem Grafts.exists_parent (h : Grafts m v n path cs cs') :
    ∃ parent name, path = parent ++ [Elem.plain name] ∧ localName name = name := by
  induction h with
  | @leaf n name cs hchild local' => exact ⟨[], name, rfl, local'⟩
  | @step n child e rest children cs inner inner' hchild members selects opens below ih =>
    obtain ⟨parent, name, rfl, hlocal⟩ := ih
    exact ⟨e :: parent, name, rfl, hlocal⟩

theorem Grafts.ne_nil (h : Grafts m v n path cs cs') : path ≠ [] := by
  obtain ⟨parent, name, rfl, -⟩ := h.exists_parent
  exact List.concat_ne_nil _ _

/-- What a step of the write opens stands for what the document has there. Both are determined by
the document and the element, so no choice is left to the step. -/
theorem Opens.eq_held {opened : Object} (hopened : Opened child e cs c inner held)
    (h : Opens child e cs opened) : held = opened := by
  rcases hopened.found with hfound | ⟨hnone, rfl⟩
  · cases h with
    | found h => exact Json.obj.inj (Option.some.inj (hfound.symm.trans h))
    | container he h => cases hfound.symm.trans h
    | entry he h keys => cases hfound.symm.trans h
  · cases h with
    | found h => cases hnone.symm.trans h
    | container he h =>
      rw [heldKeys, keys_eq_nil he]
      rfl
    | entry he h keys => exact keys.eq_heldKeys.symm

/-- **The write of a leaf leaves a tree that stands for the document with the leaf.** The induction
is on the way that the document takes, for any tree that stands for it: below a step the tree need
not be a part of the old one, since the step may have added it. -/
theorem Grafts.stands {β : Type} {f : Object → Node → β × Object} {out : β} {name : String}
    {parent : List Elem} (hf : ∀ ms n, f ms n = (out, Members.insert ms name v))
    (hv : Stands m false v v) (hkeyed : n.Everywhere Node.KeyedAt)
    (hfree : n.Everywhere Schema.ColonFreeAt) (hs : Stands n entry (.obj ms) (.obj cs))
    (ha : Alike n (.obj ms) (.obj cs)) (h : Grafts m v n (parent ++ [Elem.plain name]) cs cs') :
    ∃ ms', modifyAt true f parent ms n = .ok (out, ms') ∧ Stands n entry (.obj ms') (.obj cs') := by
  generalize hpath : parent ++ [Elem.plain name] = path at h
  induction h generalizing parent entry ms with
  | @leaf n name' cs hchild local' =>
    obtain ⟨rfl, hname⟩ : parent = [] ∧ name' = name := by
      cases parent with
      | nil => exact ⟨rfl, congrArg Elem.name (List.head_eq_of_cons_eq hpath).symm⟩
      | cons e parent =>
        have hnil := (List.cons.inj hpath).2
        cases (List.append_eq_nil_iff.1 hnil).2
    subst hname
    obtain ⟨children, hn, hget⟩ := hs.exists_child hchild
    rw [local'] at hget
    exact ⟨_, by rw [modifyAt, hf], hs.insert hn hget hv⟩
  | @step n child e rest children cs inner inner' hchild members selects opens below ih =>
    cases parent with
    | nil => exact absurd (List.cons.inj hpath).2.symm below.ne_nil
    | cons e' parent =>
      obtain ⟨rfl, hrest⟩ := List.cons.inj hpath
      obtain ⟨siblings, hn, hname⟩ := get?_of_child? hchild
      have hkeyed' := hkeyed.child hn hname
      -- what the step opens in the tree stands for what is opened in the document
      obtain ⟨c, opened, held, hstep, hopened⟩ := descend_opened hfree hs ha hchild members selects
      obtain rfl := opens.eq_held hopened
      obtain ⟨opened', hmodify, hstands⟩ :=
        ih hkeyed' (hfree.child hn hname) hopened.stands hopened.alike hrest
      -- it is selected as before, so setting it gives a tree that stands for the new document
      have hselected := (below.keepsKeys hkeyed').hasKeys (ownsKeys_of_selects selects)
        hopened.selected
      refine ⟨setFound e' (.obj opened') ms, ?_,
        stands_setFound hs ha hchild selects hstands fun _ => hselected⟩
      simp only [modifyAt, hstep, hopened.value, hmodify, Except.map,
        (descend_cases hstep).2.put]

/-! ### Numbers in a tree -/

section

variable {r : Json.Reader}

theorem readBy_insert {name : String} (hms : (Json.obj ms).ReadBy r) (hv : v.ReadBy r) :
    (Json.obj (Members.insert ms name v)).ReadBy r := by
  refine Json.readByMembers_iff.2 fun o ho => ?_
  rcases Members.mem_insert ho with rfl | ho
  · exact hv
  · exact Json.readByMembers_iff.1 hms o ho

theorem readBy_entriesOf {name : String} (hms : (Json.obj ms).ReadBy r)
    (h : v ∈ entriesOf ms name) : v.ReadBy r := by
  unfold entriesOf at h
  cases hget : get? ms name with
  | none =>
    rw [hget] at h
    cases h
  | some x =>
    rw [hget] at h
    have hx := Json.readByMembers_iff.1 hms _ (Members.mem_of_get? hget)
    cases x with
    | arr xs => exact Json.readByList_iff.1 hx v h
    | _ => cases h

theorem readBy_setFound (hms : (Json.obj ms).ReadBy r) (hv : v.ReadBy r) :
    (Json.obj (setFound e v ms)).ReadBy r := by
  refine readBy_insert hms ?_
  split
  · refine Json.readByList_iff.2 fun x hx => ?_
    rcases mem_setEntry hx with rfl | hx
    · exact hv
    · exact readBy_entriesOf hms hx
  · exact hv

theorem readBy_found? (hms : (Json.obj ms).ReadBy r) (h : found? ms e = some v) : v.ReadBy r := by
  cases he : e.isKeyed with
  | true =>
    rw [found?_of_isKeyed he] at h
    exact readBy_entriesOf hms (List.mem_of_find?_eq_some h)
  | false =>
    rw [found?_of_not_isKeyed he] at h
    exact Json.readByMembers_iff.1 hms _ (Members.mem_of_get? h)

theorem readBy_fresh (hdecimal : child.Everywhere Schema.DecimalFreeAt) :
    (fresh child e).ReadBy r := by
  unfold fresh
  split
  · refine Json.readByMembers_iff.2 fun o ho => ?_
    obtain ⟨key, -, rfl⟩ := List.mem_map.1 ho
    refine readBy_keyValue r (fun hkind => ?_) key.2
    obtain ⟨leaf, hleaf, hkind⟩ := Option.bind_eq_some_iff.1 hkind
    obtain ⟨children, hn, hname⟩ := get?_of_child? hleaf
    exact (hdecimal.child hn hname).here hkind
  · exact trivial

/-- **A write of what any reader reads back leaves a tree that it reads back**, if no key is a
decimal. The condition is for what the write adds on its way: the keys of a new entry are read from
the path, and a decimal among them becomes a float, which a reader may round. -/
theorem modifyAt_readBy {β : Type} {f : Object → Node → β × Object} {out : β} {ms' : Object}
    {parent : List Elem} (hdecimal : n.Everywhere Schema.DecimalFreeAt)
    (hf : ∀ ms n, (Json.obj ms).ReadBy r → (Json.obj (f ms n).2).ReadBy r)
    (hms : (Json.obj ms).ReadBy r) (h : modifyAt true f parent ms n = .ok (out, ms')) :
    (Json.obj ms').ReadBy r := by
  induction parent generalizing n ms ms' with
  | nil =>
    have hout := hf ms n hms
    rw [modifyAt] at h
    rwa [Except.ok.inj h] at hout
  | cons e parent ih =>
    obtain ⟨c, child, inner, inner', hstep, hvalue, hinner, rfl⟩ := modifyAt_cons h
    have hsteps := stepsTo_of_descend hstep
    obtain ⟨children, hn, hname⟩ := get?_of_child? (child?_of_childSchema hsteps.schema)
    have hdecimal' := hdecimal.child hn hname
    have hread : (Json.obj inner).ReadBy r := by
      rw [← hvalue]
      -- what is opened was there before, or is fresh and then made of the keys
      rcases hsteps.value with hfound | ⟨-, hfresh⟩
      · exact readBy_found? hms hfound
      · exact hfresh ▸ readBy_fresh hdecimal'
    rw [(descend_cases hstep).2.put]
    exact readBy_setFound hms (ih hdecimal' hread hinner)

end

end Tree

end ConfigTree
