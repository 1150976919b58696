import ConfigTree.Proofs.Tree.Prune

/-!
# Pruning a path again

Pruning removes what is empty on the way that a path takes before anything has been removed. A path
may select an entry by the text of a container in it. When that container has changed, the path
leads to another entry, in which there may be an empty container too. So pruning the path again may
remove more, and it does just if the path has come to lead elsewhere.

* `NoneEmpty`: no prefix of a path leads to an empty container. `noneEmpty_of_prune_eq` and
  `eq_of_noneEmpty` say that pruning changes nothing just then.
* `Steady`: a path leads nowhere but where it led before.
* `noneEmpty_iff_steady`, `prune_again_iff`: no empty container is left on a path, and pruning it
  again changes nothing, just if it is steady. `steady_of_ownKeys` says that it is if its keys are
  those of the lists that it names.
* `prune_of_valid`: what pruning makes of a valid tree.
-/

namespace ConfigTree.Tree

open ConfigTree.Path (Elem)
open Members (get? Sorted)
open Schema (Node NamesFreeAt)
open Schema.Node (Formed KeyedAt OwnKeys)

variable {n below m : Node} {entry : Bool} {e f : Elem} {p rest : List Elem}
  {ms ms' inner inner' other : Object} {v w w' : Json} {slot : Slot} {place : List Slot}

/-! ### Paths without empty containers -/

/-- No prefix of a path that ends without keys leads to an empty container. It is asked of the tree
after pruning, where the path is looked up anew and may lead elsewhere than it led before. -/
def NoneEmpty (n : Node) (p : List Elem) (tree : Json) : Prop :=
  ∀ above e, above ++ [e] <+: p → e.isKeyed = false →
    ∀ m, lookup (above ++ [e]) tree n ≠ .ok (some (.obj [], m))

theorem noneEmpty_nil (n : Node) (tree : Json) : NoneEmpty n [] tree := by
  intro above e hprefix
  cases List.append_ne_nil_of_right_ne_nil above (List.cons_ne_nil e []) (List.prefix_nil.1 hprefix)

/-- The first element leads to no empty container, and the others do not from there. This is the
form in which it can be followed along the recursion of pruning. -/
theorem noneEmpty_cons : NoneEmpty n (e :: rest) (.obj ms) ↔
    ∀ below inner, childSchema n e = .ok below → found? ms e = some (.obj inner) →
      (inner = [] → e.isKeyed = true) ∧ NoneEmpty below rest (.obj inner) := by
  constructor
  · intro h below inner hschema hfound
    constructor
    · rintro rfl
      cases he : e.isKeyed with
      | true => rfl
      | false =>
        refine absurd ?_ (h [] e (List.prefix_append [e] rest) he below)
        rw [List.nil_append, lookup_cons_of_found hschema hfound]
        rfl
    · intro above f hprefix hf m hlookup
      refine h (e :: above) f ((List.prefix_cons_inj e).2 hprefix) hf m ?_
      rw [List.cons_append, lookup_cons_of_found hschema hfound, hlookup]
  · intro h above f hprefix hf m hlookup
    cases above with
    | nil =>
      obtain ⟨rfl, -⟩ := List.cons_prefix_cons.1 hprefix
      obtain ⟨v, below, hschema, hfound, hv⟩ := exists_found_of_lookup hlookup
      obtain ⟨rfl, -⟩ := Prod.mk.inj (Option.some.inj (Except.ok.inj hv))
      rw [(h below [] hschema hfound).1 rfl] at hf
      cases hf
    | cons g above =>
      obtain ⟨rfl, hfurther⟩ := List.cons_prefix_cons.1 hprefix
      obtain ⟨v, below, hschema, hfound, hrest⟩ := exists_found_of_lookup hlookup
      -- something is found below, so it is an object
      obtain ⟨inner, rfl⟩ : ∃ inner, v = .obj inner := by
        cases above with
        | nil => exact exists_obj_of_lookup hrest
        | cons => exact exists_obj_of_lookup hrest
      exact (h below inner hschema hfound).2 above f hfurther hf m hrest

/-- It depends on what the first element selects. -/
theorem noneEmpty_congr (h : found? ms' e = found? ms e) :
    NoneEmpty n (e :: rest) (.obj ms') ↔ NoneEmpty n (e :: rest) (.obj ms) := by
  rw [noneEmpty_cons, noneEmpty_cons, h]

/-- **Pruning a path without empty containers changes nothing.** -/
theorem eq_of_noneEmpty (h : Sound n entry ms) (hprune : prune p ms n = .ok ms')
    (hnone : NoneEmpty n p (.obj ms)) : ms' = ms := by
  induction p generalizing n entry ms ms' with
  | nil => exact (Except.ok.inj hprune).symm
  | cons e p ih =>
    rw [noneEmpty_cons] at hnone
    cases h.prunes hprune with
    | nothing => rfl
    | @gone below inner schema found pruned plain =>
      -- the container is empty before, which has been ruled out
      obtain ⟨hempty, hrest⟩ := hnone below inner schema found
      have hnil := ih (h.found schema found) pruned hrest
      rw [hempty hnil.symm] at plain
      cases plain
    | @left below inner inner' schema found pruned stays =>
      obtain rfl := ih (h.found schema found) pruned (hnone below inner schema found).2
      exact setFound_found h.sorted found

/-- **If pruning changes nothing, the path has no empty containers.** For it would have removed the
first one on its way. -/
theorem noneEmpty_of_prune_eq (h : Sound n entry ms) (hprune : prune p ms n = .ok ms) :
    NoneEmpty n p (.obj ms) := by
  -- on the path: what the first element selects is left as it was, so pruning changes nothing in it
  -- either
  induction p generalizing n entry ms with
  | nil => exact noneEmpty_nil n _
  | cons e p ih =>
    rw [noneEmpty_cons]
    intro below inner hschema hfound
    have hlist := h.namesList hschema
    obtain ⟨slot, hslot, hinner⟩ := exists_slot_of_found hfound
    rw [prune_of_found hschema hlist hfound] at hprune
    obtain ⟨inner', hpruned, hsame⟩ := map_eq_ok_iff.1 hprune
    split at hsame
    · -- the container is still there, so it has not been removed
      rw [← hsame, found?_erase] at hfound
      cases hfound
    · next hleft =>
      have hinner' := get?_slot_setFound (v := .obj inner') hslot
      rw [hsame, hinner] at hinner'
      obtain rfl := Json.obj.inj (Option.some.inj hinner')
      refine ⟨?_, ih (h.found hschema hfound) hpruned⟩
      rintro rfl
      simpa using hleft

/-! ### Paths that lead where they led -/

/-- A path that leads somewhere after a change leads to the same place as before, and so does each
prefix of it. It may lead nowhere, since what it led to may have been removed. -/
def Steady (p : List Elem) (before after : Json) : Prop :=
  ∀ q, q <+: p → ∀ place, place? q after = some place → place? q before = some place

theorem steady_nil (before after : Json) : Steady [] before after := by
  intro q hprefix place hplace
  obtain rfl := List.prefix_nil.1 hprefix
  exact hplace

theorem Steady.refl (p : List Elem) (tree : Json) : Steady p tree tree := fun _ _ _ h => h

/-- A path that leads nowhere after a change is steady. -/
theorem steady_of_missing (h : found? ms' e = none) (rest : List Elem) :
    Steady (e :: rest) (.obj ms) (.obj ms') := by
  intro q hprefix place hplace
  cases q with
  | nil => exact hplace
  | cons g q =>
    obtain ⟨rfl, -⟩ := List.cons_prefix_cons.1 hprefix
    rw [place?_of_missing h] at hplace
    cases hplace

/-- Where the first element selects the same slot, a path is steady if the rest of it is. What is in
the slot may differ. -/
theorem steady_cons_iff (hslot : slot? ms e = some slot) (hw : slot.get? ms = some w)
    (hslot' : slot? ms' e = some slot) (hw' : slot.get? ms' = some w') :
    Steady (e :: rest) (.obj ms) (.obj ms') ↔ Steady rest w w' := by
  -- every place below the element starts with its slot, which is the same before and after; it is
  -- put in front or taken off
  constructor
  · intro h q hprefix place hplace
    have hcons := h (e :: q) ((List.prefix_cons_inj e).2 hprefix) (slot :: place)
      (by rw [place?_of_slot? hslot' hw', hplace, Option.map_some])
    rw [place?_of_slot? hslot hw] at hcons
    obtain ⟨place', hplace', heq⟩ := Option.map_eq_some_iff.1 hcons
    obtain ⟨-, rfl⟩ := List.cons.inj heq
    exact hplace'
  · intro h q hprefix place hplace
    cases q with
    | nil => exact hplace
    | cons g q =>
      obtain ⟨rfl, hfurther⟩ := List.cons_prefix_cons.1 hprefix
      rw [place?_of_slot? hslot' hw'] at hplace
      obtain ⟨place', hplace', rfl⟩ := Option.map_eq_some_iff.1 hplace
      rw [place?_of_slot? hslot hw, h q hfurther place' hplace', Option.map_some]

/-- The first element of a steady path that selects something selects the same slot as before. -/
theorem Steady.slot? (h : Steady (e :: rest) (.obj ms) (.obj ms'))
    (hslot' : slot? ms' e = some slot) (hw' : slot.get? ms' = some w') :
    Tree.slot? ms e = some slot := by
  have hplace := h [e] (List.prefix_append [e] rest) [slot] (by
    rw [place?_of_slot? hslot' hw']
    rfl)
  obtain ⟨ms, slot', v, below, hms, hslot, -, -, heq⟩ := exists_slot_of_place hplace
  obtain rfl := Json.obj.inj hms
  rw [hslot, (List.cons.inj heq).1]

/-- **Pruning a steady path again changes nothing.** Whatever it meets has been left by the first
pruning, which leaves no empty container where it has been. -/
theorem prune_of_steady (h : Sound n entry ms) (hprune : prune p ms n = .ok ms')
    (hsteady : Steady p (.obj ms) (.obj ms')) : prune p ms' n = .ok ms' := by
  -- by induction on the path: what the first element selects now has been left by pruning before
  induction p generalizing n entry ms ms' with
  | nil => rfl
  | cons e p ih =>
    obtain ⟨h', -⟩ := h.of_prune hprune
    cases h.prunes hprune with
    | nothing => exact hprune
    | gone schema =>
      exact prune_of_not_found schema (h'.namesList schema) (by simp [found?_erase]) p
    | @left below inner inner' schema found pruned stays =>
      obtain ⟨slot, hslot, hinner⟩ := exists_slot_of_found found
      have hinner' := get?_slot_setFound (v := .obj inner') hslot
      cases hfound' : found? (setFound e (.obj inner') ms) e with
      | none => exact prune_of_not_found schema (h'.namesList schema) (by simp [hfound']) p
      | some v =>
        -- it is the object that has been left
        obtain ⟨slot', hslot', hv⟩ := exists_slot_of_found hfound'
        obtain rfl := Option.some.inj (hslot.symm.trans (hsteady.slot? hslot' hv))
        obtain rfl := Option.some.inj (hv.symm.trans hinner')
        have hrest := (steady_cons_iff hslot hinner hslot' hinner').1 hsteady
        rw [prune_of_found schema (h'.namesList schema) hfound',
          ih (h.found schema found) pruned hrest, Except.map, setFound_found h'.sorted hfound']
        split
        · next hgone =>
          obtain ⟨hempty, he⟩ := Bool.and_eq_true_iff.1 hgone
          rw [stays (List.isEmpty_iff.1 hempty)] at he
          cases he
        · rfl

/-- Entries with the text of a container have the same container. A key that fits is a leaf, but an
element may name any member as if it were a key, and the text of a container is the JSON text of it,
which determines the container. -/
theorem found?_eq_of_keys (h : Sound n entry ms) (h' : Sound n entry ms')
    (hschema : childSchema n f = .ok below) (hfound : found? ms f = some (.obj inner))
    (hkey : (get? ms (localName f.name)).map keyString
      = (get? ms' (localName f.name)).map keyString) : found? ms' f = found? ms f := by
  have hchild := child?_of_childSchema hschema
  obtain ⟨children, hbelow⟩ := (h.found hschema hfound).formed.exists_children
  -- what stands there is no string, so it is told by its text
  have hrender : ∀ {ms : Object} {w : Json}, Sound n entry ms →
      get? ms (localName f.name) = some w → keyString w = w.render := by
    intro ms w h hw
    cases h.formed.member hchild hw with
    | value shape => cases hbelow.symm.trans shape
    | object => rfl
    | list => rfl
  cases hw : get? ms (localName f.name) with
  | none =>
    rw [found?_of_none hw] at hfound
    cases hfound
  | some w =>
    rw [hw, Option.map_some] at hkey
    obtain ⟨w', hw', htext⟩ := Option.map_eq_some_iff.1 hkey.symm
    rw [hrender h hw, hrender h' hw'] at htext
    exact found?_congr (by rw [hw, hw', Json.render_injective htext])

/-- Pruning changes a member that the path names first, and no other. -/
theorem get?_prune_of_ne (hprune : prune (e :: rest) ms n = .ok ms') {key : String}
    (hne : key ≠ localName e.name) : get? ms' key = get? ms key := by
  rcases prune_cons hprune with rfl | ⟨below, inner, inner', -, -, -, rfl | rfl⟩
  · rfl
  · rw [Members.get?_erase, if_neg (Ne.symm hne)]
  · exact get?_setFound_of_ne hne

/-- **An entry that is selected in the place of one that has been pruned has an empty container on
the path too.** The one before has changed in a member whose text is asked for, and the other one
still has the same member. This is the crux: the path can come to lead elsewhere only by a change
that pruning it there would make again. -/
theorem not_noneEmpty_of_unselected (h : Sound below entry inner) (h' : Sound below entry other)
    (hprune : prune rest inner below = .ok inner') (hinner : hasKeys inner e.keys = true)
    (hother : hasKeys other e.keys = true) (hinner' : ¬ hasKeys inner' e.keys = true) :
    ¬ NoneEmpty below rest (.obj other) := by
  have hne : inner' ≠ inner := fun heq => hinner' (heq ▸ hinner)
  cases rest with
  | nil => exact absurd (Except.ok.inj hprune).symm hne
  | cons f rest =>
    -- the member that has changed is one of those that the keys ask for
    obtain ⟨text, htext⟩ : ∃ text, (localName f.name, text) ∈ e.keys := by
      by_contra hnot
      refine hinner' (hasKeys_iff.2 fun key hkey => ?_)
      have hkept : key.1 ≠ localName f.name := fun heq => hnot ⟨key.2, heq ▸ hkey⟩
      rw [get?_prune_of_ne hprune hkept]
      exact hasKeys_iff.1 hinner key hkey
    have hkey := (hasKeys_iff.1 hinner _ htext).trans (hasKeys_iff.1 hother _ htext).symm
    rcases prune_cons hprune with heq | ⟨child, old, _, hschema, hfound, -⟩
    · exact absurd heq hne
    · rw [noneEmpty_congr (found?_eq_of_keys h h' hschema hfound hkey)]
      exact fun hnone => hne (eq_of_noneEmpty h hprune hnone)

/-- **A path without empty containers after pruning leads where it led.** -/
theorem steady_of_noneEmpty (h : Sound n entry ms) (hprune : prune p ms n = .ok ms')
    (hnone : NoneEmpty n p (.obj ms')) : Steady p (.obj ms) (.obj ms') := by
  -- by induction on the path: if its first element selected another entry than before, pruning
  -- would have emptied a container that this entry has too
  induction p generalizing n entry ms ms' with
  | nil => exact steady_nil _ _
  | cons e p ih =>
    obtain ⟨h', -⟩ := h.of_prune hprune
    cases h.prunes hprune with
    | nothing => exact .refl _ _
    | gone => exact steady_of_missing found?_erase p
    | @left below inner inner' schema found pruned stays =>
      have hinner := h.found schema found
      obtain ⟨slot, hslot, hget⟩ := exists_slot_of_found found
      have hget' := get?_slot_setFound (v := .obj inner') hslot
      by_cases hselected : SelectedBy e (.obj inner')
      · have hslot' := slot?_setFound hslot hselected
        have hfound' := (found?_of_slot? hslot').trans hget'
        rw [steady_cons_iff hslot hget hslot' hget']
        exact ih hinner pruned (noneEmpty_cons.1 hnone below inner' schema hfound').2
      · cases hfound' : found? (setFound e (.obj inner') ms) e with
        | none => exact steady_of_missing hfound' p
        | some v =>
          obtain ⟨he, hlost⟩ := Classical.not_imp.1 hselected
          obtain ⟨home, keys, children, rfl⟩ := exists_list_of_childSchema schema he
          have hformed := formed_found h'.formed schema hfound'
          rw [he] at hformed
          obtain ⟨other, rfl⟩ := hformed.eq_obj .list
          exact absurd (noneEmpty_cons.1 hnone _ other schema hfound').2
            (not_noneEmpty_of_unselected hinner (h'.found schema hfound') pruned
              (hasKeys_of_found? found) (hasKeys_of_found? hfound') hlost)

/-- **A path whose keys are those of the lists that it names leads where it led.** An entry keeps
its keys when something in it is removed, for these are leaves. -/
theorem steady_of_ownKeys (h : Sound n entry ms) (hprune : prune p ms n = .ok ms')
    (howns : n.OwnKeys p) : Steady p (.obj ms) (.obj ms') := by
  induction p generalizing n entry ms ms' with
  | nil => exact steady_nil _ _
  | cons e p ih =>
    cases h.prunes hprune with
    | nothing => exact .refl _ _
    | gone => exact steady_of_missing found?_erase p
    | @left below inner inner' schema found pruned stays =>
      have hinner := h.found schema found
      obtain ⟨hkeys, hrest⟩ := howns below (child?_of_childSchema schema)
      obtain ⟨slot, hslot, hget⟩ := exists_slot_of_found found
      -- an entry keeps its keys, so it is still selected
      have hselected : SelectedBy e (.obj inner') := fun _ =>
        (hinner.of_prune pruned).2.hasKeys hkeys (hasKeys_of_found? found)
      have hslot' := slot?_setFound hslot hselected
      rw [steady_cons_iff hslot hget hslot' (get?_slot_setFound hslot)]
      exact ih hinner pruned hrest

/-- **No empty container is left on a path just if it leads where it led.** -/
theorem noneEmpty_iff_steady (h : Sound n entry ms) (hprune : prune p ms n = .ok ms') :
    NoneEmpty n p (.obj ms') ↔ Steady p (.obj ms) (.obj ms') :=
  ⟨steady_of_noneEmpty h hprune, fun hsteady =>
    noneEmpty_of_prune_eq (h.of_prune hprune).1 (prune_of_steady h hprune hsteady)⟩

/-- **Pruning again changes nothing just if the path leads where it led.** -/
theorem prune_again_iff (h : Sound n entry ms) (hprune : prune p ms n = .ok ms') :
    prune p ms' n = .ok ms' ↔ Steady p (.obj ms) (.obj ms') :=
  ⟨fun hagain => steady_of_noneEmpty h hprune (noneEmpty_of_prune_eq (h.of_prune hprune).1 hagain),
    prune_of_steady h hprune⟩

/-! ### Valid trees -/

/-- What pruning a path makes of the members of a root, in place and where it does not fail. The
fields above `ownKeys` hold of every path; the last three say when the path is done. -/
structure PrunesTo (n : Node) (p : List Elem) (ms ms' : Object) : Prop where
  inPlace : pruneInPlace p ms n = (.ok (), ms')
  leaves : Tree.leaves [] n (.obj ms') = Tree.leaves [] n (.obj ms)
  /-- Each list is in its place, with as many entries. -/
  lists : ∀ place xs, at? place (.obj ms) = some (.arr xs) →
    ∃ xs', at? place (.obj ms') = some (.arr xs') ∧ xs'.length = xs.length
  /-- Each entry is in its place. -/
  entries : ∀ above list i, (at? (above ++ [.entry list i]) (.obj ms)).isSome →
    (at? (above ++ [.entry list i]) (.obj ms')).isSome
  /-- Only containers on the path are gone, and nothing is new. -/
  kept : ∀ place, KeptBy n p (.obj ms) (.obj ms') place
  /-- If the keys of the path are those of the lists that it names, then it has no empty containers
  any more, and pruning it again changes nothing. -/
  ownKeys : n.OwnKeys p → NoneEmpty n p (.obj ms') ∧ prune p ms' n = .ok ms'
  /-- In any case it has none just if it leads where it led. -/
  noneEmpty_iff : NoneEmpty n p (.obj ms') ↔ Steady p (.obj ms) (.obj ms')
  /-- And just then pruning it again changes nothing. -/
  again_iff : prune p ms' n = .ok ms' ↔ Steady p (.obj ms) (.obj ms')

/-- A place of what is no container on the path is not gone. -/
theorem KeptBy.rel {before after : Json} (h : KeptBy n p before after place)
    (hnot : ¬ ContainerOn n p before place) :
    Option.Rel SameFace (at? place before) (at? place after) :=
  h.resolve_right fun hgone => hnot hgone.2

theorem ContainerOn.exists_obj {tree : Json} (h : ContainerOn n p tree place) :
    ∃ members, at? place tree = some (.obj members) := by
  obtain ⟨above, e, home, children, members, -, -, hplace, hlookup⟩ := h
  obtain ⟨place', hplace', hat⟩ := at?_of_lookup hlookup
  obtain rfl := Option.some.inj (hplace.symm.trans hplace')
  exact ⟨members, hat⟩

/-- An entry is no container on a path, since an element that leads to one has keys. So no entry is
ever removed. -/
theorem not_containerOn_entry {tree : Json} {above : List Slot} {list : String} {i : Nat} :
    ¬ ContainerOn n p tree (above ++ [.entry list i]) := by
  rintro ⟨_, e, _, _, _, -, he, hplace, -⟩
  obtain ⟨init, heq⟩ := exists_member_of_place he hplace
  have hlast := List.append_inj_right' heq rfl
  cases hlast

/-- **What pruning makes of sound members.** The lists and the entries follow from what is kept at
each place, because only containers may be gone. -/
theorem Sound.prunesTo (h : Sound n entry ms) (hprune : prune p ms n = .ok ms') :
    PrunesTo n p ms ms' where
  inPlace := by rw [pruneInPlace_eq h, hprune]
  leaves := by
    obtain ⟨children, hn⟩ := h.formed.exists_children
    rw [leaves_obj (isLeaf_eq_false hn), leaves_obj (isLeaf_eq_false hn),
      memberLeaves_prune h hprune]
  -- a list keeps its length, so that it is an array afterwards too; an entry is never a container
  -- that has gone
  lists place xs hxs := by
    have hrel := (keptBy_prune h hprune place).rel fun hon => by
      obtain ⟨members, hat⟩ := hon.exists_obj
      cases hxs.symm.trans hat
    rw [hxs] at hrel
    generalize at? place (.obj ms') = after at hrel
    cases hrel with
    | @some _ w hface =>
      cases w with
      | arr xs' => exact ⟨xs', rfl, hface⟩
      | _ => cases hface
  entries above list i hsome := by
    have hrel := (keptBy_prune h hprune (above ++ [.entry list i])).rel not_containerOn_entry
    obtain ⟨v, hv⟩ := Option.isSome_iff_exists.1 hsome
    rw [hv] at hrel
    generalize at? (above ++ [.entry list i]) (.obj ms') = after at hrel
    cases hrel with
    | some => rfl
  kept := keptBy_prune h hprune
  ownKeys howns := by
    have hsteady := steady_of_ownKeys h hprune howns
    exact ⟨(noneEmpty_iff_steady h hprune).2 hsteady, (prune_again_iff h hprune).2 hsteady⟩
  noneEmpty_iff := noneEmpty_iff_steady h hprune
  again_iff := prune_again_iff h hprune

/-- **Pruning a valid tree removes nothing but emptiness.** Where it fails, the tree is as before.
Where it does not, every leaf, every list and every entry is still there, in its place, and what is
gone are containers on the path. If the keys of the path are those of the lists that it names, then
no prefix of it that ends without keys leads to an empty container any more, and pruning it again
changes nothing. With other keys the path may lead to another entry after the removal than before,
and both hold just if it does not. -/
theorem prune_of_valid {s : Schema} {tree : Json} (hs : s.Loaded) (hnames : s.NamesFree)
    (htree : tree.Normal) (hvalid : s.validate (Subtree.root tree) = .ok ()) (p : List Elem) :
    ∃ ms, tree = .obj ms ∧
      (∀ err, prune p ms s.root = .error err → pruneInPlace p ms s.root = (.error err, ms)) ∧
      ∀ ms', prune p ms s.root = .ok ms' → PrunesTo s.root p ms ms' := by
  have hroot := Schema.valid_root htree hvalid
  obtain ⟨children, hshape⟩ := hs.hasMembers
  obtain ⟨ms, rfl⟩ := hroot.eq_obj hshape
  have hsound : Sound s.root false ms := ⟨hroot.formed, hs.keyed, hnames⟩
  refine ⟨ms, rfl, fun err herr => ?_, fun ms' hprune => hsound.prunesTo hprune⟩
  rw [pruneInPlace_eq hsound, herr]

/-! ### Servers that are told apart by what is pruned -/

/-- Servers with a container of limits. -/
def limitsSchema : Schema where
  models := []
  root := .container none [
    ("server", .list none ["port"] [
      ("limits", .container none [("clients", .leaf none (.uint 16))]),
      ("port", .leaf none (.uint 16))])]

theorem loaded_limitsSchema : limitsSchema.Loaded := by
  refine ⟨.nearest, limitsSchema.toJson.render, ?_⟩
  rw [Schema.load, Json.Term.parse?_render]
  rfl

/-- A server whose limits are empty. -/
def limited (port : UInt64) : Json := .obj [("limits", .obj []), ("port", .num (.ofUInt64 port))]

/-- A server without limits. -/
def unlimited (port : UInt64) : Json := .obj [("port", .num (.ofUInt64 port))]

/-- The limits of the first server that has empty ones. -/
def emptyLimits : List Elem := [Elem.ofKeys "server" [("limits", "\x7b\x7d")], Elem.plain "limits"]

theorem normal_limited : (Json.obj [("server", .arr [limited 80, limited 8080])]).Normal :=
  ⟨by decide, ⟨⟨by decide, ⟨by decide, trivial⟩, trivial, trivial⟩,
    ⟨by decide, ⟨by decide, trivial⟩, trivial, trivial⟩, trivial⟩, trivial⟩

/-- The limits of one server are removed, and then the path leads to those of the next one. -/
theorem prune_emptyLimits :
    PrunesTo limitsSchema.root emptyLimits [("server", .arr [limited 80, limited 8080])]
      [("server", .arr [unlimited 80, limited 8080])] ∧
    prune emptyLimits [("server", .arr [unlimited 80, limited 8080])] limitsSchema.root
      = .ok [("server", .arr [unlimited 80, unlimited 8080])] ∧
    ¬ NoneEmpty limitsSchema.root emptyLimits
      (.obj [("server", .arr [unlimited 80, limited 8080])]) := by
  obtain ⟨ms, hms, -, hprunes⟩ :=
    prune_of_valid loaded_limitsSchema (by decide) normal_limited rfl emptyLimits
  obtain rfl := Json.obj.inj hms
  have hprune := hprunes [("server", .arr [unlimited 80, limited 8080])] rfl
  have hsecond : prune emptyLimits [("server", .arr [unlimited 80, limited 8080])]
      limitsSchema.root = .ok [("server", .arr [unlimited 80, unlimited 8080])] := rfl
  refine ⟨hprune, hsecond, fun hnone => ?_⟩
  -- pruning again would change nothing
  have hagain := hprune.again_iff.2 (hprune.noneEmpty_iff.1 hnone)
  have hsame := Except.ok.inj (hsecond.symm.trans hagain)
  simp [limited, unlimited] at hsame

end ConfigTree.Tree
