import ConfigTree.Proofs.Tree.Alter
import ConfigTree.Proofs.Tree.Selects

/-!
# Changes at a path

What a deletion or a write makes of a configuration, as a function of its members: down the path of
the change each element selects something, which is changed in turn.

* `Change.along`: a change at the end of a path. On its way a change that puts something adds what
  is missing, and one that cuts something off takes the containers with it that this leaves empty.
* `Change.Fits`: a path that a change can take. It selects an entry in each list and does not end in
  a key, so the keys of entries are kept (`Fits.keepsKeys`).
* `Branch`: two paths branch.
* `through_comm`: changes inside a node that commute do so with what they do to the node.
* `reordered_along`: changes at paths that branch commute, but for the order of entries.
-/

namespace ConfigTree.Tree

open ConfigTree.Path (Elem)
open Json (Reordered)
open Members (get? Sorted)
open Schema (Node)
open Schema.Node (Form Formed Stands)

variable {n child list : Node} {entry : Bool} {e f : Elem} {ms fresh : Object} {v : Json}
  {found : Option Json} {keys : List (String × String)} {p q rest : List Elem}

/-- Nothing but keys is added for an element. -/
theorem get?_heldKeys_of_not_mem {name : String} (hsel : e.isKeyed = true → Selects child e)
    (hname : ∀ keys, child.listKeys? = some keys → name ∉ keys) :
    get? (heldKeys child e.keys) name = none := by
  rw [heldKeys, Members.get?_map fun key => heldKey child key, Option.map_eq_none_iff]
  refine Option.eq_none_iff_forall_ne_some.2 fun text htext => ?_
  obtain ⟨keys, _, _, hkeys, hmem, -⟩ :=
    (hsel (isKeyed_of_get? htext)).fit.child? (Members.mem_of_get? htext)
  exact hname keys hkeys hmem

/-! ### Paths that branch -/

/-- Two paths branch: after elements that select the same, theirs select different things. Elements
may write one name with and without its module, so the common part is told by names without modules
and by keys. -/
inductive Branch : List Elem → List Elem → Prop
  | here {e f : Elem} {ps qs : List Elem} (apart : Apart e f) : Branch (e :: ps) (f :: qs)
  | there {e f : Elem} {ps qs : List Elem} (name : localName e.name = localName f.name)
      (keys : e.keys = f.keys) (rest : Branch ps qs) : Branch (e :: ps) (f :: qs)

theorem Branch.symm (h : Branch p q) : Branch q p := by
  induction h with
  | here apart => exact .here apart.symm
  | there name keys _ ih => exact .there name.symm keys.symm ih

/-! ### Changes -/

/-- A change of what is at a path: it is cut off, or something is put there that may depend on what
has been there. A replacement and an update differ only in what they put. -/
inductive Change where
  | cut
  | put (value : Option Json → Json)

namespace Change

/-- What the change makes of what its path leads to. -/
def last : Change → Option Json → Option Json
  | .cut, _ => none
  | .put value, found => some (value found)

/-- What a change inside a container or an entry makes of it. Where something is put, what is
missing is added. Where something is cut off, a container that it leaves empty goes too; an entry
stays, and so does a container that was empty before, which only goes if something in it went. -/
def through (c : Change) (keys : List (String × String)) (fresh : Object)
    (inside : Object → Object) (found : Option Json) : Option Json :=
  match c, found with
  | .put _, some (.obj ms) => some (.obj (inside ms))
  | .put _, _ => some (.obj (inside fresh))
  | .cut, some (.obj ms) =>
    if (inside ms).isEmpty && !ms.isEmpty && keys.isEmpty then none else some (.obj (inside ms))
  | .cut, found => found

/-- What a change at a path makes of what an element with those keys has selected. -/
def below (c : Change) : List Elem → List (String × String) → Node → Option Json → Option Json
  | [], _, _ => c.last
  | e :: rest, keys, n => c.through keys (heldKeys n keys) fun ms =>
    match n.child? e.name with
    | some child => alterFound e (c.below rest e.keys child) ms
    | none => ms

/-- What a change at a path makes of the members of a node. -/
def along (c : Change) (path : List Elem) (n : Node) (ms : Object) : Object :=
  match path with
  | [] => ms
  | e :: rest =>
    match n.child? e.name with
    | some child => alterFound e (c.below rest e.keys child) ms
    | none => ms

variable {c c' : Change} {inside : Object → Object}

theorem below_cons (c : Change) (e : Elem) (rest : List Elem) (keys : List (String × String))
    (n : Node) :
    c.below (e :: rest) keys n = c.through keys (heldKeys n keys) (c.along (e :: rest) n) :=
  rfl

theorem along_cons (hchild : n.child? e.name = some child) (rest : List Elem) (ms : Object) :
    c.along (e :: rest) n ms = alterFound e (c.below rest e.keys child) ms := by
  simp only [along, hchild]

/-! ### Paths that a change can take -/

/-- A path that a change can take: it goes through containers and through entries that its elements
select, it does not end in a key of an entry, and what is put is selected by the last element.
Unlike the path of a deletion, it may go through what is not there. -/
inductive Fits (c : Change) : Node → List Elem → Prop
  | last {n child : Node} {e : Elem} (hchild : n.child? e.name = some child)
      (noKey : ∀ keys, n.listKeys? = some keys → localName e.name ∉ keys)
      (selects : e.isKeyed = true → Selects child e)
      (selected : ∀ found, ∀ v ∈ c.last found, SelectedBy e v) : Fits c n [e]
  | step {n child : Node} {children : List (String × Node)} {e f : Elem} {rest : List Elem}
      (hchild : n.child? e.name = some child) (members : child.HasMembers e.isKeyed children)
      (selects : e.isKeyed = true → Selects child e) (fits : Fits c child (f :: rest)) :
      Fits c n (e :: f :: rest)

/-- The first element of such a path names no key of the node. -/
theorem Fits.noKey (h : Fits c n (e :: rest)) (hkeyed : n.KeyedAt) {keys : List String}
    (hkeys : n.listKeys? = some keys) : localName e.name ∉ keys := by
  cases h with
  | last hchild noKey => exact noKey keys hkeys
  | step hchild members =>
    -- a node on the way has members, and keys are leaves
    intro hmem
    obtain ⟨children, hn, hname⟩ := get?_of_child? hchild
    obtain ⟨home, kind, hleaf⟩ := (hkeyed keys children hkeys hn).2 _ hmem
    obtain rfl := Option.some.inj (hname.symm.trans hleaf)
    cases members.1

theorem Fits.exists_child (h : Fits c n (e :: rest)) :
    ∃ child, n.child? e.name = some child ∧ (e.isKeyed = true → Selects child e) := by
  cases h with
  | last hchild noKey selects => exact ⟨_, hchild, selects⟩
  | step hchild members selects => exact ⟨_, hchild, selects⟩

theorem Fits.fullAt (h : Fits c n (e :: rest)) : FullAt n e := by
  obtain ⟨child, hchild, hsel⟩ := h.exists_child
  intro he child' hchild'
  obtain rfl := Option.some.inj (hchild.symm.trans hchild')
  exact (hsel he).full

theorem Fits.hasObjects (h : Fits c n (e :: rest)) (hformed : Formed .valid n entry (.obj ms)) :
    HasObjects ms e := by
  obtain ⟨child, hchild, hsel⟩ := h.exists_child
  refine .of_formed hformed fun he => ?_
  obtain ⟨home, keys, children, rfl, -⟩ := (hsel he).fit
  exact ⟨home, keys, children, hchild⟩

/-- A change touches the member that its path names first. -/
theorem get?_along_of_ne {key : String} (hne : key ≠ localName e.name) :
    get? (c.along (e :: rest) n ms) key = get? ms key := by
  unfold along
  dsimp only
  split
  · exact get?_putFound_of_ne hne
  · rfl

/-- A change along a path that names no key first keeps the keys of entries. -/
theorem keepsKeys_of_noKey
    (h : ∀ e ∈ p.head?, ∀ keys, n.listKeys? = some keys → localName e.name ∉ keys) :
    KeepsKeys n ms (c.along p n ms) := by
  intro keys hkeys key hkey
  cases p with
  | nil => rfl
  | cons e rest => exact get?_along_of_ne fun heq => h e rfl keys hkeys (heq ▸ hkey)

/-- **A change keeps the keys of entries.** -/
theorem Fits.keepsKeys (h : Fits c n p) (hkeyed : n.KeyedAt) : KeepsKeys n ms (c.along p n ms) := by
  refine keepsKeys_of_noKey fun e he keys hkeys => ?_
  obtain ⟨rest, rfl⟩ := List.head?_eq_some_iff.1 he
  exact h.noKey hkeyed hkeys

/-- **What a change makes of what an element selects is selected by it.** This is what lets the
change of a node be put where it was found, and two changes below one element be seen as one. -/
theorem Fits.selected (h : Fits c n (e :: rest)) (hkeyed : n.Everywhere Node.KeyedAt)
    (hchild : n.child? e.name = some child) (hfound : ∀ v ∈ found, SelectedBy e v) :
    ∀ v ∈ c.below rest e.keys child found, SelectedBy e v := by
  cases h with
  | last hchild' noKey selects selected => exact selected found
  | @step _ child' children _ f rest hchild' members selects fits =>
    obtain rfl := Option.some.inj (hchild.symm.trans hchild')
    obtain ⟨siblings, hn, hname⟩ := get?_of_child? hchild
    obtain ⟨-, hfresh⟩ := stands_heldKeys members selects
    -- inside an entry the change keeps the keys
    have hkept : ∀ ms, hasKeys ms e.keys = true →
        SelectedBy e (.obj (c.along (f :: rest) child ms)) := fun ms hms _ =>
      (fits.keepsKeys (hkeyed.child hn hname).here).hasKeys (ownsKeys_of_selects selects) hms
    have hhas : ∀ ms, found = some (.obj ms) → hasKeys ms e.keys = true := by
      intro ms hms
      cases he : e.isKeyed with
      | true => exact hfound _ hms he
      | false =>
        rw [keys_eq_nil he]
        rfl
    rw [below_cons]
    intro v hv
    unfold through at hv
    split at hv
    · next ms => exact Option.some.inj hv ▸ hkept ms (hhas ms rfl)
    · exact Option.some.inj hv ▸ hkept _ hfresh
    · next ms =>
      split at hv
      · cases hv
      · exact Option.some.inj hv ▸ hkept ms (hhas ms rfl)
    · exact hfound v hv

/-! ### What a change leaves -/

/-- What a change that puts something makes of what it finds, or of what it adds. -/
theorem exists_through_put {value : Option Json → Json} (keys : List (String × String))
    (fresh : Object) (found : Option Json) : ∃ inner, ∀ inside : Object → Object,
      (Change.put value).through keys fresh inside found = some (.obj (inside inner)) := by
  cases found with
  | none => exact ⟨fresh, fun _ => rfl⟩
  | some v =>
    cases v with
    | obj inner => exact ⟨inner, fun _ => rfl⟩
    | _ => exact ⟨fresh, fun _ => rfl⟩

/-- A change that puts something leaves something. So a container in which something is put is not
taken for one that a deletion has emptied. -/
theorem Fits.along_ne_nil {value : Option Json → Json} (h : Fits (.put value) n (e :: rest)) :
    Change.along (.put value) (e :: rest) n ms ≠ [] := by
  obtain ⟨child, hchild, -⟩ := h.exists_child
  rw [along_cons hchild, alterFound]
  -- a put always leaves a value, whatever was there, so the member of the first element is there
  -- afterwards
  obtain ⟨v, hv⟩ : ∃ v, Change.below (.put value) rest e.keys child (found? ms e) = some v := by
    cases rest with
    | nil => exact ⟨_, rfl⟩
    | cons f rest =>
      obtain ⟨inner, hinner⟩ := exists_through_put e.keys (heldKeys child e.keys) (found? ms e)
      exact ⟨_, hinner _⟩
  rw [hv]
  intro hnil
  have hget := Members.eq_nil_iff.1 hnil (localName e.name)
  rw [putFound, setFound, Members.get?_insert, if_pos rfl] at hget
  cases hget

/-- Where its path leads nowhere there is nothing to cut off. -/
theorem along_cut_of_missing (hchild : n.child? e.name = some child) (h : found? ms e = none) :
    Change.cut.along (e :: rest) n ms = ms := by
  rw [along_cons hchild, alterFound, h]
  cases rest with
  | nil => exact putFound_none_of_missing h
  | cons f rest => exact putFound_none_of_missing h

/-- What a change inside what has been added for an element, and inside nothing, comes to. A change
that puts something never leaves nothing; one that cuts finds nothing to cut in either, for it does
not cut keys. -/
structure Acts (c : Change) (fresh : Object) (inside : Object → Object) : Prop where
  puts : ∀ value, c = .put value → ∀ ms, inside ms ≠ []
  cuts : c = .cut → inside [] = [] ∧ inside fresh = fresh

theorem Acts.ne_nil (h : c.Acts fresh inside) (hput : c ≠ .cut) (ms : Object) : inside ms ≠ [] := by
  cases c with
  | put value => exact h.puts value rfl ms
  | cut => exact absurd rfl hput

theorem Fits.acts (h : Fits c child (f :: rest)) (hkeyed : child.KeyedAt)
    (hsel : e.isKeyed = true → Selects child e) :
    c.Acts (heldKeys child e.keys) (c.along (f :: rest) child) := by
  refine ⟨fun value heq ms => ?_, fun heq => ?_⟩
  · subst heq
    exact h.along_ne_nil
  · subst heq
    obtain ⟨child', hchild', -⟩ := h.exists_child
    refine ⟨along_cut_of_missing hchild' (found?_of_none rfl), along_cut_of_missing hchild' ?_⟩
    exact found?_of_none (get?_heldKeys_of_not_mem hsel fun keys hkeys => h.noKey hkeyed hkeys)

/-! ### Changes inside one node -/

variable {A B : Object → Object}

/-- An object, unless it is empty. -/
def objectOf (ms : Object) : Option Json := if ms.isEmpty then none else some (.obj ms)

theorem rel_objectOf {ms ms' : Object} (h : Reordered (.obj ms) (.obj ms')) :
    Option.Rel Reordered (objectOf ms) (objectOf ms') := by
  unfold objectOf
  have hiff := h.eq_nil_iff
  rw [← List.isEmpty_iff, ← List.isEmpty_iff] at hiff
  split
  · next hempty =>
    rw [if_pos (hiff.1 hempty)]
    exact .none
  · next hne =>
    rw [if_neg fun hempty => hne (hiff.2 hempty)]
    exact .some h

section

variable {value : Option Json → Json}

theorem through_put_none :
    (Change.put value).through keys fresh A none = some (.obj (A fresh)) := rfl

theorem through_put_some :
    (Change.put value).through keys fresh A (some (.obj ms)) = some (.obj (A ms)) := rfl

theorem through_cut_none : Change.cut.through keys fresh A none = none := rfl

theorem through_cut_some : Change.cut.through keys fresh A (some (.obj ms)) =
    if (A ms).isEmpty && !ms.isEmpty && keys.isEmpty then none else some (.obj (A ms)) := rfl

theorem through_cut_of_ne (h : A ms ≠ []) :
    Change.cut.through keys fresh A (some (.obj ms)) = some (.obj (A ms)) := by
  have hleft : (A ms).isEmpty = false := List.isEmpty_eq_false_iff.2 h
  rw [through_cut_some, hleft, Bool.false_and, Bool.false_and, if_neg Bool.false_ne_true]

theorem through_cut_of_keys (hkeys : keys.isEmpty = false) :
    Change.cut.through keys fresh A (some (.obj ms)) = some (.obj (A ms)) := by
  rw [through_cut_some, hkeys, Bool.and_false, if_neg Bool.false_ne_true]

/-- A container that has been empty before stays. -/
theorem through_cut_nil (hA : A [] = []) :
    Change.cut.through keys fresh A (some (.obj [])) = some (.obj []) := by
  rw [through_cut_some, hA]
  rfl

/-- Where something has been cut off, what is put is put all the same. The container that has gone
in between is added again, empty as it was left. -/
theorem through_put_through_cut (hfresh : keys.isEmpty = true → fresh = []) :
    (Change.put value).through keys fresh A (Change.cut.through keys fresh B (some (.obj ms)))
      = some (.obj (A (B ms))) := by
  rw [through_cut_some]
  split
  · next hgone =>
    -- the container has gone, and an empty one is added
    obtain ⟨hleft, hkeys⟩ := Bool.and_eq_true_iff.1 hgone
    obtain ⟨hempty, -⟩ := Bool.and_eq_true_iff.1 hleft
    rw [through_put_none, hfresh hkeys, List.isEmpty_iff.1 hempty]
  · rfl

/-- Two things are cut off inside a container that is not empty. -/
theorem through_cut_through_cut (hA : A [] = []) (hkeys : keys.isEmpty = true) (hms : ms ≠ []) :
    Change.cut.through keys fresh A (Change.cut.through keys fresh B (some (.obj ms)))
      = objectOf (A (B ms)) := by
  have hsome : ms.isEmpty = false := List.isEmpty_eq_false_iff.2 hms
  rw [through_cut_some (A := B), hsome, hkeys, Bool.not_false, Bool.and_true, Bool.and_true]
  split
  · next hgone =>
    rw [List.isEmpty_iff.1 hgone, hA]
    rfl
  · next hleft =>
    rw [Bool.not_eq_true] at hleft
    rw [through_cut_some, hleft, hkeys, Bool.not_false, Bool.and_true, Bool.and_true, objectOf]

end

/-- Two cuts inside a node come to the same in either order. A container goes if it is empty in the
end, whichever cut has emptied it. -/
theorem rel_through_cut (hA : A [] = []) (hB : B [] = [])
    (hsame : Reordered (.obj (A (B ms))) (.obj (B (A ms)))) :
    Option.Rel Reordered
      (Change.cut.through keys fresh A (Change.cut.through keys fresh B (some (.obj ms))))
      (Change.cut.through keys fresh B (Change.cut.through keys fresh A (some (.obj ms)))) := by
  cases hkeys : keys.isEmpty with
  | false =>
    -- an entry stays in any case
    rw [through_cut_of_keys hkeys, through_cut_of_keys hkeys, through_cut_of_keys hkeys,
      through_cut_of_keys hkeys]
    exact .some hsame
  | true =>
    by_cases hms : ms = []
    · rw [hms, through_cut_nil hA, through_cut_nil hB, through_cut_nil hA]
      exact .some (.refl _)
    · rw [through_cut_through_cut hA hkeys hms, through_cut_through_cut hB hkeys hms]
      exact rel_objectOf hsame

/-- Two changes inside a node of which one puts something. What is missing is added then, and what
the other one empties is not left out. So nothing has to be said of emptiness, and the two changes
are one inside the node. -/
theorem through_through (hA : c.Acts fresh A) (hB : c'.Acts fresh B)
    (hfresh : keys.isEmpty = true → fresh = []) (hputs : c ≠ .cut ∨ c' ≠ .cut)
    (hopens : found = some (.obj ms) ∨ found = none ∧ ms = fresh) (hne : A (B ms) ≠ []) :
    c.through keys fresh A (c'.through keys fresh B found) = some (.obj (A (B ms))) := by
  -- with nothing found a put starts from the fresh object and a cut does nothing at all; that both
  -- are cuts is excluded by `hputs`
  cases c with
  | put value =>
    cases c' with
    | put value' => rcases hopens with rfl | ⟨rfl, rfl⟩ <;> rfl
    | cut =>
      rcases hopens with rfl | ⟨rfl, rfl⟩
      · exact through_put_through_cut hfresh
      · rw [through_cut_none, through_put_none, (hB.cuts rfl).2]
  | cut =>
    cases c' with
    | put value' =>
      rcases hopens with rfl | ⟨rfl, rfl⟩
      · rw [through_put_some, through_cut_of_ne hne]
      · rw [through_put_none, through_cut_of_ne hne]
    | cut => exact absurd rfl (hputs.elim id id)

/-- **Changes inside a node that commute do so with what they do to the node**: what one adds on its
way the other may leave empty. The cases are two cuts, where the node may go, and all others, where
it stays. -/
theorem through_comm (hA : c.Acts fresh A) (hB : c'.Acts fresh B)
    (hfresh : keys.isEmpty = true → fresh = [])
    (hopens : found = some (.obj ms) ∨ found = none ∧ ms = fresh)
    (hsame : Reordered (.obj (A (B ms))) (.obj (B (A ms)))) :
    Option.Rel Reordered (c.through keys fresh A (c'.through keys fresh B found))
      (c'.through keys fresh B (c.through keys fresh A found)) := by
  by_cases hcuts : c = .cut ∧ c' = .cut
  · obtain ⟨rfl, rfl⟩ := hcuts
    rcases hopens with rfl | ⟨rfl, -⟩
    · exact rel_through_cut (hA.cuts rfl).1 (hB.cuts rfl).1 hsame
    · exact .none
  · have hputs := not_and_or.1 hcuts
    -- where something is put neither order leaves nothing
    have hne : A (B ms) ≠ [] := by
      rcases hputs with hput | hput
      · exact hA.ne_nil hput _
      · exact fun hnil => hB.ne_nil hput _ (hsame.eq_nil_iff.1 hnil)
    have hne' : B (A ms) ≠ [] := fun hnil => hne (hsame.eq_nil_iff.2 hnil)
    rw [through_through hA hB hfresh hputs hopens hne,
      through_through hB hA hfresh hputs.symm hopens hne']
    exact .some hsame

/-! ### Changes at paths that branch -/

theorem through_eq_none (hkeys : keys.isEmpty = false)
    (h : c.through keys fresh inside found = none) : found = none := by
  unfold through at h
  split at h
  · cases h
  · cases h
  · rw [hkeys, Bool.and_false, if_neg Bool.false_ne_true] at h
    cases h
  · exact h

theorem selectedBy_of_found (v : Json) (hv : v ∈ found? ms e) : SelectedBy e v := by
  intro he
  rw [found?_of_isKeyed he] at hv
  exact List.find?_some hv

/-- Elements of one name with the same keys select the same. -/
theorem alterFound_congr {change : Option Json → Option Json}
    (hname : localName e.name = localName f.name) (hkeys : e.keys = f.keys) :
    alterFound f change ms = alterFound e change ms := by
  simp only [alterFound, putFound, setFound, dropFound, found?, Elem.isKeyed, hname, hkeys]
  rfl

/-- Two changes of what one element selects are one change of it. -/
theorem along_along_cons {g : Elem} {ps qs : List Elem} (hchild : n.child? e.name = some child)
    (hs : Sorted ms)
    (hselected : ∀ v ∈ c'.below (g :: qs) e.keys child (found? ms e), SelectedBy e v) :
    c.along (e :: f :: ps) n (c'.along (e :: g :: qs) n ms) = putFound e
      (c.below (f :: ps) e.keys child (c'.below (g :: qs) e.keys child (found? ms e))) ms := by
  rw [along_cons hchild, along_cons hchild]
  refine alterFound_alterFound hs hselected fun he => ?_
  -- an entry is not taken out by a change inside it
  have hkeys : e.keys.isEmpty = false := by simpa [Elem.isKeyed] using he
  exact ⟨through_eq_none hkeys, through_eq_none hkeys⟩

/-- Changes of what one element selects commute if they do so inside. -/
theorem reordered_along_cons {children : List (String × Node)} {g : Elem} {ps qs : List Elem}
    (hkeyed : n.Everywhere Node.KeyedAt) (h : Formed .valid n entry (.obj ms))
    (hchild : n.child? e.name = some child) (members : child.HasMembers e.isKeyed children)
    (selects : e.isKeyed = true → Selects child e) (hp : c.Fits child (f :: ps))
    (hq : c'.Fits child (g :: qs))
    (hcomm : ∀ inner, Formed .valid child e.isKeyed (.obj inner) →
      Reordered (.obj (c.along (f :: ps) child (c'.along (g :: qs) child inner)))
        (.obj (c'.along (g :: qs) child (c.along (f :: ps) child inner)))) :
    Reordered (.obj (c.along (e :: f :: ps) n (c'.along (e :: g :: qs) n ms)))
      (.obj (c'.along (e :: g :: qs) n (c.along (e :: f :: ps) n ms))) := by
  have hp' : c.Fits n (e :: f :: ps) := .step hchild members selects hp
  have hq' : c'.Fits n (e :: g :: qs) := .step hchild members selects hq
  obtain ⟨siblings, hn, hname⟩ := get?_of_child? hchild
  have hkeyed' := (hkeyed.child hn hname).here
  have hschema := childSchema_eq hchild fun he => (selects he).fit
  have hsorted := ((Schema.Node.formed_object_iff hn).1 h).2.1
  -- the element selects what each of the changes makes of what it has selected
  have hfirst : ∀ v ∈ c.below (f :: ps) e.keys child (found? ms e), SelectedBy e v :=
    hp'.selected hkeyed hchild selectedBy_of_found
  have hsecond : ∀ v ∈ c'.below (g :: qs) e.keys child (found? ms e), SelectedBy e v :=
    hq'.selected hkeyed hchild selectedBy_of_found
  rw [along_along_cons hchild hsorted hsecond, along_along_cons hchild hsorted hfirst]
  refine reordered_putFound hsorted (hp'.hasObjects h) (hp'.selected hkeyed hchild hsecond) ?_
  have hfresh : e.keys.isEmpty = true → heldKeys child e.keys = [] := fun hempty => by
    rw [List.isEmpty_iff.1 hempty]
    rfl
  have hacts := hp.acts hkeyed' selects
  have hacts' := hq.acts hkeyed' selects
  cases hfound : found? ms e with
  | none =>
    exact through_comm hacts hacts' hfresh (.inr ⟨rfl, rfl⟩)
      (hcomm _ (Schema.Node.formed_of_stands (stands_heldKeys members selects).1))
  | some v =>
    have hinner := formed_found h hschema hfound
    obtain ⟨inner, rfl⟩ := hinner.eq_obj members
    exact through_comm hacts hacts' hfresh (.inl rfl) (hcomm inner hinner)

/-- **Changes at paths that branch commute**, but for the order of entries. The induction is on how
the paths branch: below a common element by the lemma above, and where they part by what is known of
elements apart. -/
theorem reordered_along (hkeyed : n.Everywhere Node.KeyedAt)
    (h : Formed .valid n entry (.obj ms)) (hp : c.Fits n p) (hq : c'.Fits n q)
    (hbranch : Branch p q) :
    Reordered (.obj (c.along p n (c'.along q n ms))) (.obj (c'.along q n (c.along p n ms))) := by
  induction hbranch generalizing n entry ms with
  | @here e f ps qs hapart =>
    obtain ⟨child, hchild, -⟩ := hp.exists_child
    obtain ⟨child', hchild', -⟩ := hq.exists_child
    obtain ⟨siblings, hn, -⟩ := get?_of_child? hchild
    have hsorted := ((Schema.Node.formed_object_iff hn).1 h).2.1
    have ho : ∀ v ∈ c.below ps e.keys child (found? ms e), SelectedBy e v :=
      hp.selected hkeyed hchild selectedBy_of_found
    have hu : ∀ v ∈ c'.below qs f.keys child' (found? ms f), SelectedBy f v :=
      hq.selected hkeyed hchild' selectedBy_of_found
    -- neither change is seen by the element of the other
    rw [along_cons hchild, along_cons hchild', along_cons hchild', along_cons hchild, alterFound,
      alterFound, alterFound, alterFound,
      found?_putFound_of_apart h trivial hu hp.fullAt hapart.symm,
      found?_putFound_of_apart h trivial ho hq.fullAt hapart]
    exact reordered_putFound_comm h trivial hsorted (hp.hasObjects h) ho hu hp.fullAt hq.fullAt
      hapart
  | @there e f ps qs hname hkeys hrest ih =>
    cases hp with
    | last => cases hrest
    | @step _ child _ _ f' ps hchild members selects fits =>
      cases hq with
      | last => cases hrest
      | @step _ child' _ _ g' qs hchild' members' selects' fits' =>
        have hsame : n.child? f.name = n.child? e.name := by rw [Node.child?, ← hname, Node.child?]
        obtain rfl := Option.some.inj (hchild.symm.trans (hsame.symm.trans hchild'))
        obtain ⟨siblings, hn, hget⟩ := get?_of_child? hchild
        -- the second path may as well go through the element of the first one
        have hpath : ∀ ms, c'.along (f :: g' :: qs) n ms = c'.along (e :: g' :: qs) n ms :=
          fun ms => by
            rw [along_cons hchild', along_cons hchild, alterFound_congr hname hkeys, hkeys]
        rw [hpath, hpath]
        exact reordered_along_cons hkeyed h hchild members selects fits fits' fun inner hinner =>
          ih (hkeyed.child hn hget) hinner fits fits'

end Change

end ConfigTree.Tree
