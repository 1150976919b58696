import ConfigTree.Proofs.Store.ForeignKeys
import ConfigTree.Proofs.Tree.Slots
import ConfigTree.Proofs.Tree.Trim

/-!
# What pruning removes

Pruning goes down a path and, on the way back, removes the containers that are empty. One that has
had nothing in it but such containers is empty then too. Nothing else is removed.

* `pruneInPlace`: pruning that changes the tree step by step, and may fail halfway.
  `pruneInPlace_eq` says that it has changed nothing then.
* `Prunes`: what one step comes to.
* `memberLeaves_prune`: pruning keeps every leaf.
* `keptBy_prune`: at each place there is what has been there, unless it is that of a container on
  the path.
-/

namespace ConfigTree.Tree

open ConfigTree.Path (Elem)
open Members (get? Sorted)
open Schema (Node NamesFreeAt)
open Schema.Node (Formed KeyedAt)

/-! ### Pruning in place -/

/-- Pruning of members that are changed in place. Each child is put back as it has become, even if
pruning it has failed. Gives the members after that. This is what a tree looks like to someone who
keeps it when a failure has been reported. -/
def pruneInPlace : List Elem → Object → Node → Except TreeError Unit × Object
  | [], ms, _ => (.ok (), ms)
  | e :: rest, ms, n =>
    match descend ms n e false with
    | .error err => (.error err, ms)
    | .ok none => (.ok (), ms)
    | .ok (some (c, below)) =>
      match c.value with
      | .obj inner =>
        let (out, inner') := pruneInPlace rest inner below
        let ms' := c.slot.put c.members (.obj inner')
        match out with
        | .error err => (.error err, ms')
        | .ok () =>
          if inner'.isEmpty && !e.isKeyed then (.ok (), Members.erase ms' (localName e.name))
          else (.ok (), ms')
      | _ => (.ok (), ms)

/-! ### What is asked of the tree -/

/-- Members of a node have the form of a configuration, and the schema has no names with colons.
Pruning keeps the form but not validity: an entry that is left has its keys, and nothing more is
asked of it. -/
structure Sound (n : Node) (entry : Bool) (ms : Object) : Prop where
  formed : Formed .valid n entry (.obj ms)
  keyed : n.Everywhere KeyedAt
  names : n.Everywhere NamesFreeAt

variable {n below m : Node} {entry : Bool} {e f : Elem} {p rest : List Elem}
  {ms ms' inner inner' : Object} {v w w' : Json} {slot : Slot} {place : List Slot}

theorem Sound.sorted (h : Sound n entry ms) : Sorted ms := by
  obtain ⟨children, hn⟩ := h.formed.exists_children
  exact ((Schema.Node.formed_object_iff hn).1 h.formed).2.1

theorem Sound.namesList (h : Sound n entry ms) (hschema : childSchema n e = .ok below) :
    NamesList ms e :=
  NamesList.of_formed h.formed trivial hschema

/-- The members of what an element selects are sound, at its node. -/
theorem Sound.found (h : Sound n entry ms) (hschema : childSchema n e = .ok below)
    (hfound : found? ms e = some (.obj inner)) : Sound below e.isKeyed inner := by
  obtain ⟨children, hn, hname⟩ := get?_of_child? (child?_of_childSchema hschema)
  exact ⟨formed_found h.formed hschema hfound, h.keyed.child hn hname, h.names.child hn hname⟩

/-- Pruning leaves sound members, and an entry its keys. -/
theorem Sound.of_prune (h : Sound n entry ms) (hprune : prune p ms n = .ok ms') :
    Sound n entry ms' ∧ KeepsKeys n ms ms' := by
  obtain ⟨hformed, hkeeps⟩ := formed_prune h.keyed h.formed hprune
  exact ⟨⟨hformed, h.keyed, h.names⟩, hkeeps trivial⟩

/-- What an element without keys selects is no entry, so an object there is a container. In a tree
of any other form an object might stand where the schema has a leaf, and pruning would remove it
too. -/
theorem Sound.eq_container (h : Sound n false ms) :
    ∃ home children, n = .container home children := by
  cases n with
  | container home children => exact ⟨home, children, rfl⟩
  | list home keys children =>
    obtain ⟨xs, heq⟩ := h.formed.eq_arr trivial rfl
    cases heq
  | leaf home kind =>
    obtain ⟨children, hn⟩ := h.formed.exists_children
    cases hn
  | leafList home kind =>
    obtain ⟨children, hn⟩ := h.formed.exists_children
    cases hn

/-- **Where pruning fails, it has changed nothing.** It fails on the way down, at an element that
the schema does not know, and nothing has been removed by then. -/
theorem pruneInPlace_eq (h : Sound n entry ms) (p : List Elem) :
    pruneInPlace p ms n = match prune p ms n with
      | .ok ms' => (.ok (), ms')
      | .error err => (.error err, ms) := by
  -- by induction on the path: a child that is put back as it was leaves its parent as it was
  induction p generalizing n entry ms with
  | nil => rfl
  | cons e p ih =>
    cases hschema : childSchema n e with
    | error err =>
      have hstep : descend ms n e false = .error err := by
        rw [descend, hschema]
        rfl
      rw [pruneInPlace, prune, hstep]
      rfl
    | ok below =>
      have hlist := h.namesList hschema
      cases hfound : found? ms e with
      | none =>
        rw [pruneInPlace, descend_of_missing hschema hlist hfound,
          prune_of_not_found hschema hlist fun inner => by simp [hfound]]
      | some v =>
        obtain ⟨slot, hstep, hput⟩ := descend_of_found hschema hlist hfound false
        cases v with
        | obj inner =>
          rw [pruneInPlace, hstep, prune_of_found hschema hlist hfound]
          simp only [ih (h.found hschema hfound), hput]
          cases prune p inner below with
          | error err => simp only [Except.map, setFound_found h.sorted hfound]
          | ok inner' =>
            simp only [Except.map]
            split
            · next hgone =>
              have he : e.isKeyed = false := by simpa using (Bool.and_eq_true_iff.1 hgone).2
              rw [setFound_of_not_isKeyed he, Members.erase_insert h.sorted]
            · rfl
        | _ =>
          rw [pruneInPlace, hstep, prune_of_not_found hschema hlist fun inner => by simp [hfound]]

/-! ### One step of pruning -/

/-- What a step of pruning comes to, where it does not fail. An entry is left even if there is
nothing in it any more. -/
inductive Prunes (e : Elem) (rest : List Elem) (n : Node) (ms : Object) : Object → Prop
  | nothing (missing : ∀ inner, found? ms e ≠ some (.obj inner)) : Prunes e rest n ms ms
  | gone {below : Node} {inner : Object} (schema : childSchema n e = .ok below)
      (found : found? ms e = some (.obj inner)) (pruned : prune rest inner below = .ok [])
      (plain : e.isKeyed = false) : Prunes e rest n ms (Members.erase ms (localName e.name))
  | left {below : Node} {inner inner' : Object} (schema : childSchema n e = .ok below)
      (found : found? ms e = some (.obj inner)) (pruned : prune rest inner below = .ok inner')
      (stays : inner' = [] → e.isKeyed = true) : Prunes e rest n ms (setFound e (.obj inner') ms)

theorem Sound.prunes (h : Sound n entry ms) (hprune : prune (e :: rest) ms n = .ok ms') :
    Prunes e rest n ms ms' := by
  cases hschema : childSchema n e with
  | error err =>
    rw [prune, descend, hschema] at hprune
    cases hprune
  | ok below =>
    have hlist := h.namesList hschema
    by_cases hfound : ∃ inner, found? ms e = some (.obj inner)
    · obtain ⟨inner, hfound⟩ := hfound
      rw [prune_of_found hschema hlist hfound] at hprune
      obtain ⟨inner', hinner, rfl⟩ := map_eq_ok_iff.1 hprune
      -- an object that was pruned empty goes with its member unless it is an entry; every other one
      -- is put back
      split
      · next hgone =>
        obtain ⟨hempty, he⟩ := Bool.and_eq_true_iff.1 hgone
        obtain rfl := List.isEmpty_iff.1 hempty
        exact .gone hschema hfound hinner (by simpa using he)
      · next hleft =>
        refine .left hschema hfound hinner ?_
        rintro rfl
        simpa using hleft
    · rw [prune_of_not_found hschema hlist (not_exists.1 hfound)] at hprune
      obtain rfl := Except.ok.inj hprune
      exact .nothing (not_exists.1 hfound)

/-! ### Leaves -/

/-- The leaves of a list are as before if those of each entry are, and an entry has kept its
keys. -/
theorem leaves_set_entry {home : Option String} {keys : List String}
    {children : List (String × Node)} {xs : List Json} {i : Nat} {name : String}
    {above : List Elem} (hx : xs[i]? = some (.obj inner))
    (hkeeps : KeepsKeys (.list home keys children) inner inner')
    (h : ∀ above, memberLeaves above (.list home keys children) inner'
      = memberLeaves above (.list home keys children) inner) :
    leaves (above ++ [Elem.plain name]) (.list home keys children) (.arr (xs.set i (.obj inner')))
      = leaves (above ++ [Elem.plain name]) (.list home keys children) (.arr xs) := by
  rw [leaves_list, leaves_list, List.flatMap_def, List.flatMap_def]
  refine congrArg List.flatten (map_set_of_eq hx ?_)
  simp only [Json.obj?, hkeeps.entryElem rfl, h]

/-- What an element selects may be changed to an object with the same leaves and the same keys. The
keys count because the places of an entry's leaves are told by them. -/
theorem memberLeaves_setFound (h : Sound n entry ms) (hschema : childSchema n e = .ok below)
    (hfound : found? ms e = some (.obj inner)) (hkeeps : KeepsKeys below inner inner')
    (hleaves : ∀ above, memberLeaves above below inner' = memberLeaves above below inner)
    (above : List Elem) :
    memberLeaves above n (setFound e (.obj inner') ms) = memberLeaves above n ms := by
  obtain ⟨children, hn, hname⟩ := get?_of_child? (child?_of_childSchema hschema)
  have hchild := h.names.here.child? hn hname
  -- only one member differs, so it is enough that its leaves are the same
  rw [memberLeaves_eq, memberLeaves_eq]
  cases he : e.isKeyed with
  | true =>
    obtain ⟨home, keys, children, rfl⟩ := exists_list_of_childSchema hschema he
    obtain ⟨xs, i, hw, hindex, hx⟩ := exists_arr_of_found he hfound
    rw [setFound_of_isKeyed he, entriesOf_of_get? hw, setEntry_of_some hindex]
    refine Members.flatMap_insert h.sorted hw ?_
    simp only [hchild]
    exact leaves_set_entry hx hkeeps hleaves
  | false =>
    obtain ⟨_, hbelow⟩ := (h.found hschema hfound).formed.exists_children
    rw [found?_of_not_isKeyed he] at hfound
    rw [setFound_of_not_isKeyed he]
    refine Members.flatMap_insert h.sorted hfound ?_
    simp only [hchild, leaves_obj (isLeaf_eq_false hbelow), hleaves]

/-- A container without leaves may be removed. -/
theorem memberLeaves_erase (h : Sound n entry ms) (hschema : childSchema n e = .ok below)
    (hfound : found? ms e = some (.obj inner)) (he : e.isKeyed = false)
    (hleaves : ∀ above, memberLeaves above below inner = []) (above : List Elem) :
    memberLeaves above n (Members.erase ms (localName e.name)) = memberLeaves above n ms := by
  obtain ⟨children, hn, hname⟩ := get?_of_child? (child?_of_childSchema hschema)
  obtain ⟨_, hbelow⟩ := (h.found hschema hfound).formed.exists_children
  rw [found?_of_not_isKeyed he] at hfound
  rw [memberLeaves_eq, memberLeaves_eq]
  refine Members.flatMap_erase fun v hv => ?_
  obtain rfl := Option.some.inj (hfound.symm.trans (Members.get?_of_mem h.sorted hv))
  simp only [h.names.here.child? hn hname, leaves_obj (isLeaf_eq_false hbelow), hleaves]

/-- **Pruning keeps every leaf, at its place.** -/
theorem memberLeaves_prune (h : Sound n entry ms) (hprune : prune p ms n = .ok ms')
    (above : List Elem) : memberLeaves above n ms' = memberLeaves above n ms := by
  -- by induction on the path: what the first element selects keeps its leaves
  induction p generalizing n entry ms ms' above with
  | nil =>
    obtain rfl := Except.ok.inj hprune
    rfl
  | cons e p ih =>
    cases h.prunes hprune with
    | nothing => rfl
    | gone schema found pruned plain =>
      -- what is left of the container has no leaves, so it has had none
      refine memberLeaves_erase h schema found plain (fun above => ?_) above
      rw [← ih (h.found schema found) pruned above, memberLeaves]
    | left schema found pruned =>
      have hinner := h.found schema found
      exact memberLeaves_setFound h schema found (hinner.of_prune pruned).2 (ih hinner pruned) above

/-! ### What is left, by place -/

/-- Two values that differ inside of them at most: objects, arrays of one length, or the same value.
So what two trees have at a place is compared without what is below, which has places of its own. -/
def SameFace : Json → Json → Prop
  | .obj _, .obj _ => True
  | .arr xs, .arr ys => ys.length = xs.length
  | v, w => w = v

theorem SameFace.refl (v : Json) : SameFace v v := by
  cases v with
  | obj => trivial
  | _ => rfl

theorem rel_sameFace_refl (o : Option Json) : Option.Rel SameFace o o := by
  cases o with
  | none => exact .none
  | some v => exact .some (.refl v)

/-- A place is that of a container on a path: a prefix of the path that ends without keys leads
there, before anything is removed. -/
def ContainerOn (n : Node) (p : List Elem) (tree : Json) (place : List Slot) : Prop :=
  ∃ above e home children members, above ++ [e] <+: p ∧ e.isKeyed = false ∧
    place? (above ++ [e]) tree = some place ∧
    lookup (above ++ [e]) tree n = .ok (some (.obj members, .container home children))

theorem ContainerOn.cons (hschema : childSchema n e = .ok below)
    (hfound : found? ms e = some v) (hslot : slot? ms e = some slot)
    (h : ContainerOn below rest v place) : ContainerOn n (e :: rest) (.obj ms) (slot :: place) := by
  obtain ⟨above, f, home, children, members, hprefix, hf, hplace, hlookup⟩ := h
  have hv : slot.get? ms = some v := (found?_of_slot? hslot).symm.trans hfound
  refine ⟨e :: above, f, home, children, members, ?_, hf, ?_, ?_⟩
  · exact List.prefix_cons_inj e |>.2 hprefix
  · rw [List.cons_append, place?_of_slot? hslot hv, hplace, Option.map_some]
  · rw [List.cons_append, lookup_cons_of_found hschema hfound, hlookup]

/-- At each place there is what has been there, but for what is inside of it, or there has been a
container on the path, which is gone. Places are told by numbers of entries, so it says too that
entries keep their order. -/
def KeptBy (n : Node) (p : List Elem) (before after : Json) (place : List Slot) : Prop :=
  Option.Rel SameFace (at? place before) (at? place after) ∨
    at? place after = none ∧ ContainerOn n p before place

/-- Where the slot of a place has not been changed, or is a list as long as before, the place is
kept. -/
theorem KeptBy.of_slot {other : Slot} (h : other.get? ms' = other.get? ms ∨
      ∃ xs xs', other.get? ms = some (.arr xs) ∧ other.get? ms' = some (.arr xs') ∧
        xs'.length = xs.length) (place : List Slot) :
    KeptBy n p (.obj ms) (.obj ms') (other :: place) := by
  left
  rw [at?, at?]
  rcases h with hsame | ⟨xs, xs', hxs, hxs', hlength⟩
  · rw [hsame]
    exact rel_sameFace_refl _
  · rw [hxs, hxs', Option.bind_some, Option.bind_some]
    cases place with
    | nil => exact .some hlength
    | cons => exact .none

/-- Where a container goes that nothing is left in, all of it has been containers on the path. For a
place below it either nothing has been there, or the container that was has been removed from an
object that is now empty. -/
theorem KeptBy.of_gone (h : Sound n entry ms) (hschema : childSchema n e = .ok below)
    (hfound : found? ms e = some (.obj inner)) (he : e.isKeyed = false)
    (hinner : KeptBy below rest (.obj inner) (.obj []) place) :
    KeptBy n (e :: rest) (.obj ms) (.obj (Members.erase ms (localName e.name)))
      (.member (localName e.name) :: place) := by
  have hget : get? ms (localName e.name) = some (.obj inner) := by
    rw [← found?_of_not_isKeyed he, hfound]
  have hslot : slot? ms e = some (.member (localName e.name)) := by
    rw [slot?_of_not_isKeyed he, hget, Option.map_some]
  have hafter : at? (.member (localName e.name) :: place)
      (.obj (Members.erase ms (localName e.name))) = none := by
    rw [at?, get?_erase_member hget, if_pos rfl, Option.bind_none]
  cases place with
  | nil =>
    have hbelow := h.found hschema hfound
    rw [he] at hbelow
    obtain ⟨home, children, rfl⟩ := hbelow.eq_container
    refine .inr ⟨hafter, [], e, home, children, inner, List.prefix_append [e] rest, he, ?_, ?_⟩
    · rw [List.nil_append, place?_of_slot? hslot hget]
      rfl
    · rw [List.nil_append, lookup_cons_of_found hschema hfound]
      rfl
  | cons next place =>
    rcases hinner with hrel | ⟨-, hon⟩
    · -- nothing is inside of the container after pruning, so nothing has been at this place
      left
      have hnone : at? (next :: place) (.obj []) = none := by
        rw [at?, Slot.get?_nil, Option.bind_none]
      rw [hafter, at?, Slot.get?, hget, Option.bind_some]
      rwa [hnone] at hrel
    · exact .inr ⟨hafter, hon.cons hschema hfound hslot⟩

/-- **What pruning keeps, and what it removes.** Each place is accounted for, so nothing is new and
nothing has moved. -/
theorem keptBy_prune (h : Sound n entry ms) (hprune : prune p ms n = .ok ms')
    (place : List Slot) : KeptBy n p (.obj ms) (.obj ms') place := by
  -- by induction on the path: a place is in the slot that the first element selects, where pruning
  -- goes on, or in another one, which is not changed
  induction p generalizing n entry ms ms' place with
  | nil =>
    obtain rfl := Except.ok.inj hprune
    exact .inl (rel_sameFace_refl _)
  | cons e p ih =>
    cases place with
    | nil => exact .inl (.some trivial)
    | cons other place =>
      cases h.prunes hprune with
      | nothing => exact .inl (rel_sameFace_refl _)
      | @gone below inner schema found pruned plain =>
        by_cases hother : other = .member (localName e.name)
        · subst hother
          exact .of_gone h schema found plain (ih (h.found schema found) pruned place)
        · rw [found?_of_not_isKeyed plain] at found
          exact .of_slot (.inl (by rw [get?_erase_member found, if_neg hother])) place
      | @left below inner inner' schema found pruned stays =>
        obtain ⟨slot, hslot, hinner⟩ := exists_slot_of_found found
        by_cases hother : other = slot
        · subst hother
          have hinner' := get?_slot_setFound (v := .obj inner') hslot
          have hkept := ih (h.found schema found) pruned place
          rw [KeptBy, at?, at?, hinner, hinner', Option.bind_some, Option.bind_some]
          exact hkept.imp_right (And.imp_right (ContainerOn.cons schema found hslot))
        · exact .of_slot (get?_setFound_of_ne_slot hslot found hother) place

end ConfigTree.Tree
