import ConfigTree.Proofs.Tree.Along

/-!
# Putting data at a path

A write puts its data at the end of a path, in the place of what is there or with what it keeps of
that, and adds what is missing above. This is a change along the path.

* `Edit.written`: what a write puts in the place of what is there.
* `Edit.putInside_eq_setFound`: a write of a child sets what its element selects.
* `Edit.exists_putAt`: putting valid data at a path leaves a tree that stands for the document that
  the change makes.
* `Edit.exists_lookup_putAt`: what is found at the path before and after.
-/

namespace ConfigTree.Edit

open ConfigTree.Path (Elem)
open ConfigTree.Tree (Object Selects Change EndsAt SelectedBy found? setFound heldKeys keyMembers)
open Members (get? Sorted)
open Schema (Node)
open Schema.Node (Alike Stands)

variable {s : Schema} {n list target m : Node} {e last : Elem} {entry : Bool} {mode : WriteMode}
  {place : String} {ms cs ks old new fresh fresh' : Object} {d : Json} {p : Path}
  {above : List Elem} {found found' : Option Json}

/-- The data for an entry has no key that contradicts the path. The write refuses data of which this
is not true. -/
def Agrees (p : Path) (data : Json) : Prop :=
  ∀ last ∈ p.elems.getLast?, ∀ members ∈ data.obj?, ∀ member ∈ members,
    contradicts last member = false

/-- An entry of data that agrees with the path is still the one that the path selects. -/
theorem hasKeys_insertAll (hks : Tree.hasKeys ks e.keys = true) (hnew : Members.Sorted new)
    (hagrees : ∀ member ∈ new, contradicts e member = false) :
    Tree.hasKeys (Members.insertAll ks new) e.keys = true := by
  rw [Tree.hasKeys_iff] at hks ⊢
  intro key hkey
  rw [Members.get?_insertAll hnew]
  -- a key comes from the data, which does not contradict it, or from the path
  cases hvalue : get? new key.1 with
  | none => exact hks key hkey
  | some v =>
    have hsame := hagrees (key.1, v) (Members.mem_of_get? hvalue)
    rw [contradicts, Members.get?_of_mem e.sorted hkey] at hsame
    simpa using hsame

/-! ### What a write puts -/

/-- What a write keeps of what is there. Where there is nothing, that is what is added for it. A
replacement keeps nothing. -/
def kept (mode : WriteMode) (fresh : Object) (found : Option Json) : Object :=
  match mode, found with
  | .update, some (.obj old) => old
  | .update, _ => fresh
  | .replace, _ => []

/-- What a write of data puts in the place of what is there. An object gets what is added for the
path, which for an entry are its keys, and what the write keeps. The data comes last, so it wins
over both, and the keys of the path win over what is kept. -/
def written (mode : WriteMode) (fresh : Object) (d : Json) (found : Option Json) : Json :=
  match d with
  | .obj new => .obj (Members.insertAll (Members.insertAll (kept mode fresh found) fresh) new)
  | d => d

/-- Where nothing is kept and nothing added, the data stands as it is. -/
theorem written_of_kept_nil (hd : d.Normal) (hkept : kept mode [] found = []) :
    written mode [] d found = d := by
  cases d with
  | obj new =>
    rw [written, hkept]
    exact congrArg Json.obj (Members.ofList_of_sorted hd.1)
  | _ => rfl

/-- A member is written in this way with nothing to be added for it. -/
theorem putMember_eq_written {name : String} (hd : d.Normal) :
    putMember mode name d ms = Members.insert ms name (written mode [] d (get? ms name)) := by
  -- only an object can be merged; every other value replaces what was there in both readings
  cases d with
  | obj new =>
    unfold putMember
    split
    · next new' old heq hold =>
      rw [hold]
      cases heq
      rfl
    · next hms =>
      refine congrArg (Members.insert ms name) (written_of_kept_nil hd ?_).symm
      unfold kept
      split
      · next old hold => exact (hms new old rfl rfl hold).elim
      · rfl
      · rfl
  | _ =>
    unfold putMember
    split
    · next heq _ => cases heq
    · rfl

/-- An entry is written in this way with the keys of its element. One that has just been added has
nothing else, so it does not matter that the write takes it for an old one. -/
theorem entryMembers_eq_written (mode : WriteMode) (place : String)
    (hagrees : ∀ member ∈ new, contradicts e member = false)
    (hold : found = some (.obj old) ∨ found = none ∧ old = keyMembers list e) :
    (entryMembers mode list e place old new).map Json.obj
      = .ok (written mode (keyMembers list e) (.obj new) found) := by
  have hnone : new.find? (contradicts e) = none :=
    List.find?_eq_none.2 fun member hmem => by simp [hagrees member hmem]
  simp only [entryMembers, hnone, Except.map, written]
  cases mode with
  | replace => rfl
  | update =>
    -- a fresh entry holds the keys already, so merging into it and putting the keys first are one
    -- thing
    rcases hold with rfl | ⟨rfl, rfl⟩
    · rfl
    · rfl

/-- **A write sets what its last element selects.** A member and an entry are written by different
functions, and this is where the difference ends. -/
theorem putInside_eq_setFound (place : String) (hs : Stands n entry (.obj ms) (.obj cs))
    (hchild : n.child? e.name = some target) (hsel : e.isKeyed = true → Selects target e)
    (hd : Stands target e.isKeyed d d)
    (hagrees : ∀ new, d = .obj new → ∀ member ∈ new, contradicts e member = false) :
    putInside mode e place d ms n
      = (.ok (), setFound e (written mode (keyMembers target e) d (found? ms e)) ms) := by
  rw [putInside_eq_ok_iff, putChild]
  cases he : e.isKeyed with
  | false =>
    rw [if_neg Bool.false_ne_true, putMember_eq_written hd.normal, Tree.setFound_of_not_isKeyed he,
      Tree.found?_of_not_isKeyed he, keyMembers, Tree.keys_eq_nil he, List.map_nil]
  | true =>
    have hschema := Tree.childSchema_eq hchild fun he => (hsel he).fit
    obtain ⟨c, hstep⟩ := Tree.exists_descend hs hschema fun he => (hsel he).fit.isList
    obtain ⟨-, hat⟩ := Tree.descend_cases hstep
    have hcreate := (Tree.descend_keyed_iff hschema he).1 hstep
    -- the data is that of an entry, and so is what is there
    rw [he] at hd
    obtain ⟨home, keys, children, rfl, -⟩ := id (hsel he).fit
    obtain ⟨new, -, rfl, -⟩ := hd.eq_obj .list
    obtain ⟨old, hvalue, hold⟩ : ∃ old, c.value = .obj old ∧
        (found? ms e = some (.obj old) ∨
          found? ms e = none ∧ old = keyMembers (.list home keys children) e) := by
      rcases hat.value with hfound | ⟨hnone, hfresh⟩
      · obtain ⟨old, hvalue⟩ := Tree.exists_obj_of_isEntryWith
          (Tree.Change.selectedBy_of_found c.value hfound he)
        exact ⟨old, hvalue, .inl (hvalue ▸ hfound)⟩
      · rw [hfresh, Tree.fresh, if_pos he]
        exact ⟨_, rfl, .inr ⟨hnone, rfl⟩⟩
    have hentry := entryMembers_eq_written mode place (hagrees new rfl) hold
    obtain ⟨members, hmembers, hwritten⟩ := map_eq_ok_iff.1 hentry
    rw [if_pos rfl, hchild]
    simp only [putEntry, hcreate, hvalue, hmembers, Except.map, hat.put, hwritten]

/-- What a write puts into the tree stands for what it puts into the document. The tree may have the
keys of the path as they are spelled there, and the document has them in held form. -/
theorem stands_written (hfresh : ∀ children, target.HasMembers entry children →
      Stands target entry (.obj fresh) (.obj fresh'))
    (hfound : Option.Rel (fun x y => Stands target entry x y ∧ Alike target x y) found found')
    (hd : Stands target entry d d) :
    Stands target entry (written mode fresh d found) (written mode fresh' d found') := by
  cases d with
  | obj new =>
    obtain ⟨children, hn⟩ := hd.exists_hasMembers
    -- what the put starts from: nothing for a replacement, else what was found or the keys of a
    -- fresh entry
    have hkept : Stands target entry (.obj (kept mode fresh found))
        (.obj (kept mode fresh' found')) := by
      cases mode with
      | replace => exact (Schema.Node.stands_object_iff hn).2 .nil
      | update =>
        cases hfound with
        | none => exact hfresh children hn
        | some hxy =>
          obtain ⟨old, old', rfl, rfl⟩ := hxy.1.eq_obj hn
          exact hxy.1
    exact (hkept.insertAll hn (hfresh children hn)).insertAll hn hd
  | _ => exact hd

/-- What a write puts at an entry has the keys of its element, so it is still the entry that the
path selects. -/
theorem selectedBy_written (hsel : e.isKeyed = true → Selects target e)
    (hd : Stands target e.isKeyed d d)
    (hagrees : ∀ new, d = .obj new → ∀ member ∈ new, contradicts e member = false)
    (found : Option Json) : SelectedBy e (written mode (heldKeys target e.keys) d found) := by
  intro he
  rw [he] at hd
  obtain ⟨home, keys, children, rfl, -⟩ := id (hsel he).fit
  obtain ⟨new, -, rfl, -⟩ := hd.eq_obj .list
  obtain ⟨-, hkeys⟩ := Tree.stands_heldKeys (he ▸ Node.HasMembers.list) hsel
  refine hasKeys_insertAll (Tree.hasKeys_iff.2 fun key hkey => ?_) hd.normal.1 (hagrees new rfl)
  -- the keys are put over what is kept
  have hsorted : Sorted (heldKeys (.list home keys children) e.keys) :=
    Members.sorted_map _ e.sorted
  obtain ⟨v, hv, htext⟩ := Option.map_eq_some_iff.1 (Tree.hasKeys_iff.1 hkeys key hkey)
  rw [Members.get?_insertAll hsorted, hv, ← htext]
  rfl

/-- **A write of a child** is the change that puts the child there, in the document that the tree
stands for. -/
theorem exists_putInside (place : String) (hkeyed : n.Everywhere Node.KeyedAt)
    (hs : Stands n entry (.obj ms) (.obj cs)) (ha : Alike n (.obj ms) (.obj cs))
    (hchild : n.child? e.name = some target) (hsel : e.isKeyed = true → Selects target e)
    (hd : Stands target e.isKeyed d d)
    (hagrees : ∀ new, d = .obj new → ∀ member ∈ new, contradicts e member = false) :
    ∃ ms', putInside mode e place d ms n = (.ok (), ms') ∧ Stands n entry (.obj ms')
      (.obj ((Change.put (written mode (heldKeys target e.keys) d)).along [e] n cs)) := by
  refine ⟨_, putInside_eq_setFound place hs hchild hsel hd hagrees, ?_⟩
  rw [Change.along_cons hchild]
  have hfound := Tree.found?_stands hs ha hkeyed hchild (Tree.ownsKeys_of_selects hsel)
  exact Tree.stands_setFound hs ha hchild hsel
    (stands_written (fun children hn => (Tree.stands_heldKeys hn hsel).1) hfound hd)
    (selectedBy_written hsel hd hagrees _)

/-! ### Putting data -/

/-- **A write of valid data is a change at its path**, which puts something at its end. It succeeds
from every tree in its held form, because what is missing above can be added. -/
theorem exists_putAt (mode : WriteMode) (hkeyed : s.root.Everywhere Node.KeyedAt)
    (hfree : s.ColonFree) (hsplit : p.splitLast? = some (above, last))
    (hends : EndsAt s.root above last m target)
    (hd : Stands target last.isKeyed d d) (hagrees : Agrees p d) :
    (Change.put (written mode (heldKeys target last.keys) d)).Fits s.root (above ++ [last]) ∧
      ∀ ms, s.root.Stands false (.obj ms) (.obj ms) → ∃ ms', putAt s mode p d ms = .ok ms' ∧
        s.root.Stands false (.obj ms') (.obj ((Change.put
          (written mode (heldKeys target last.keys) d)).along (above ++ [last]) s.root ms)) := by
  have helems := splitLast?_eq_some hsplit
  have hmembers : ∀ new, d = .obj new → ∀ member ∈ new, contradicts last member = false := by
    rintro new rfl member hmem
    exact hagrees last (by simp [helems]) new rfl member hmem
  have hselected : ∀ found,
      ∀ v ∈ (Change.put (written mode (heldKeys target last.keys) d)).last found,
        SelectedBy last v := fun found v hv =>
    Option.some.inj hv ▸ selectedBy_written hends.selects hd hmembers found
  -- the change is fixed before any object is given: it depends on the path, the data and the mode
  -- only
  refine ⟨hends.fits hselected, fun ms hms => ?_⟩
  obtain ⟨ms', hmodify, hstands⟩ := Tree.exists_modifyAt_put hends.leads
    (.last hends.child hends.noKey hends.selects hselected) hkeyed hfree hms
    (Alike.of_stands hfree hms) fun entry ms cs hms hsame => exists_putInside p.text
      (hkeyed.below? hends.below) hms hsame hends.child hends.selects hd hmembers
  exact ⟨ms', by rw [putAt_eq hsplit, hmodify], hstands⟩

/-- **What is found at the path of a write** has been made of what was found there before. -/
theorem exists_lookup_putAt (mode : WriteMode) (hs : s.Loaded) (hfree : s.ColonFree)
    {home : Option String} (hstands : s.root.Stands false (.obj ms) (.obj ms))
    (hsplit : p.splitLast? = some (above, last)) (hnode : s.nodeAt p.elems = .ok (target, home))
    (hselects : Tree.SelectsEntries s.root p.elems)
    (hvalid : Tree.EachKey IsKeyText s.root p.elems) (hkey : ¬ Tree.EndsInKey s.root p.elems)
    (hd : Stands target last.isKeyed d d) (hagrees : Agrees p d) :
    ∃ ms' cs' before held, putAt s mode p d ms = .ok ms' ∧
      s.root.Stands false (.obj ms') (.obj cs') ∧
      Tree.lookup p.elems (.obj ms) s.root = .ok (before.map fun v => (v, target)) ∧
      Tree.lookup p.elems (.obj cs') s.root = .ok (some (held, target)) ∧
      held = written mode (heldKeys target last.keys) d before ∧
      (last.isKeyed = true → Selects target last) ∧ Stands target last.isKeyed held held := by
  have hwalk := walk?_of_nodeAt hnode
  have hbelow := Node.below?_of_walk? hwalk
  rw [splitLast?_eq_some hsplit] at hwalk hbelow hselects hvalid hkey ⊢
  obtain ⟨m, hends⟩ := Tree.exists_endsAt hs.keyed hfree hwalk hselects hvalid hkey
  obtain ⟨hfits, hput⟩ := exists_putAt mode hs.keyed hfree hsplit hends hd hagrees
  obtain ⟨ms', hput, hms'⟩ := hput ms hstands
  obtain ⟨before, hbefore, hafter⟩ :=
    Tree.lookup_along_put hs.keyed (Node.formed_of_stands hstands) hfits hbelow
  -- what is found in a document stands for itself, as the document does
  obtain ⟨-, hheld⟩ := Tree.stands_of_lookup hs.keyed hfree (hms'.held hfree) hwalk hafter
  have hentry : Tree.entryAt false (above ++ [last]) = last.isKeyed := by simp [Tree.entryAt]
  exact ⟨ms', _, before, _, hput, hms', hbefore, hafter, rfl, hends.selects, hentry ▸ hheld⟩

end ConfigTree.Edit
