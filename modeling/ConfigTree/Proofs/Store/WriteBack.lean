import ConfigTree.Proofs.Schema.Emit
import ConfigTree.Proofs.Store.Frame

/-!
# Writing back what has been read

A get and a set are inverse: the value that a get answers for a path, sent back in a set at the same
path, leaves the store as it is. This holds for every kind of node but decimals, in both encodings,
and for replacing as well as for updating.

* `Tree.modifyAt_same`: a change that leaves the node at the end of a path as it is leaves the tree
  as it is.
* `Edit.putAt_same`: putting what a look-up finds at a path changes nothing.
* `Store.dataAt_of_valueAt`: the value that a get answers stands for what the look-up has found.
* `Store.set_of_get`: the set after the get.

Two things are shown apart from each other: that the value is read as the data that the look-up has
found, and that putting this data where it is changes nothing. The second is an induction along the
path, in which each step finds what it would otherwise create.
-/

namespace ConfigTree

open ConfigTree.Path (Elem)
open ConfigTree.Tree (Object StepsTo found? lookup entryAt)
open Members (get? Sorted)
open Schema (Node)
open Schema.Node (Alike Stands)

/-! ### Steps that change nothing -/

namespace Tree

variable {n child : Node} {entry : Bool} {e : Elem} {ms cs : Object} {v : Json}

theorem StepsTo.eq_value {c : Child} (h : StepsTo ms n e c child) (hfound : found? ms e = some v) :
    c.value = v := by
  rcases h.value with hvalue | ⟨hnone, -⟩
  · exact Option.some.inj (hvalue.symm.trans hfound)
  · cases hfound.symm.trans hnone

/-- **A change that leaves the node at the end of a path as it is changes nothing.** The change is
asked to do so only where the path leads, and only of members that are in held form. -/
theorem modifyAt_same {β : Type} {g : Object → Node → β × Object} {out : β} {parent : List Elem}
    {last : Elem} {home : Option String} {target : Node × Option String}
    (hkeyed : n.Everywhere Node.KeyedAt) (hfree : n.Everywhere Schema.ColonFreeAt)
    (hs : Stands n entry (.obj ms) (.obj ms))
    (hwalk : n.walk? home (parent ++ [last]) = some target)
    (hlookup : lookup (parent ++ [last]) (.obj ms) n = .ok (some (v, target.1)))
    (hg : ∀ m entry ms, m.child? last.name = some target.1 → target.1.OwnsKeys last →
      Stands m entry (.obj ms) (.obj ms) → found? ms last = some v → g ms m = (out, ms)) :
    modifyAt true g parent ms n = .ok (out, ms) := by
  -- on the path: each step opens what is there, and the change below gives that back as it was
  induction parent generalizing n entry ms home with
  | nil =>
    obtain ⟨c, hc, howns, htarget⟩ := Node.walk?_cons hwalk
    obtain rfl := Option.some.inj htarget
    obtain ⟨x, below, -, hfound, heq⟩ := exists_found_of_lookup hlookup
    obtain ⟨rfl, -⟩ := Prod.mk.inj (Option.some.inj (Except.ok.inj heq))
    rw [modifyAt, hg n entry ms hc howns hs hfound]
  | cons e parent ih =>
    rw [List.cons_append] at hwalk hlookup
    obtain ⟨child, hchild, howns, hwalk⟩ := Node.walk?_cons hwalk
    obtain ⟨children, hn, hname⟩ := get?_of_child? hchild
    obtain ⟨x, below, hschema, hfound, hlookup⟩ := exists_found_of_lookup hlookup
    obtain rfl := Option.some.inj (hchild.symm.trans (child?_of_childSchema hschema))
    -- something is found further below, so what is found here is an object
    obtain ⟨inner, rfl⟩ : ∃ inner, x = .obj inner := by
      cases parent with
      | nil => exact exists_obj_of_lookup hlookup
      | cons => exact exists_obj_of_lookup hlookup
    have hself := found?_stands hs (Alike.of_stands hfree hs) hkeyed hchild howns
    rw [hfound] at hself
    cases hself with
    | some hself =>
      have hbelow := ih (hkeyed.child hn hname) (hfree.child hn hname) hself.1 hwalk hlookup
      -- the step opens what is found, and puts it back
      obtain ⟨c, hstep⟩ := exists_descend hs hschema (isList_of_ownsKeys howns)
      have hsteps := stepsTo_of_descend hstep
      have hvalue := hsteps.eq_value hfound
      have hsame := hsteps.same ((Schema.Node.Stands.normal hs).1) (hvalue ▸ hfound)
      rw [hvalue] at hsame
      simp only [modifyAt, hstep, hvalue, hbelow, Except.map, hsame]

end Tree

namespace Edit

variable {s : Schema} {r : Json.Reader} {n list target : Node} {entry : Bool} {e : Elem}
  {mode : WriteMode} {place : String} {ms old : Object} {held : Json} {p : Path}

/-! ### Putting back what is there -/

/-- An entry that is filled with its own members is the entry again, whatever of it was kept: the
keys of the path are among its members. -/
theorem insertAll_keyMembers_same {kept : Object} (hold : Sorted old) (hkept : Sorted kept)
    (hkeys : Tree.hasKeys old e.keys = true)
    (hnames : ∀ name, get? old name = none → get? kept name = none) :
    Members.insertAll (Members.insertAll kept (Tree.keyMembers list e)) old = old := by
  refine Members.ext (Members.sorted_insertAll _ (Members.sorted_insertAll _ hkept)) hold ?_
  intro name
  rw [Members.get?_insertAll hold, Members.get?_insertAll (Tree.sorted_keyMembers list e)]
  cases hget : get? old name with
  | some v => rfl
  | none =>
    -- a name that the entry does not have is no key of the path either
    have hnot : get? (Tree.keyMembers list e) name = none := by
      rw [Tree.get?_keyMembers]
      cases htext : get? e.keys name with
      | none => rfl
      | some text =>
        have hmember := Tree.hasKeys_iff.1 hkeys _ (Members.mem_of_get? htext)
        rw [hget] at hmember
        cases hmember
    rw [hnot, hnames name hget]
    rfl

/-- An entry that is written over itself stays as it is: its keys are those of the path already. -/
theorem entryMembers_same (hold : Sorted old) (hkeys : Tree.hasKeys old e.keys = true) :
    entryMembers mode list e place old old = .ok old := by
  -- the entry holds its keys, so none of its own members contradicts the path
  have hnone : old.find? (contradicts e) = none := by
    refine List.find?_eq_none.2 fun member hmem => ?_
    unfold contradicts
    split
    · next text htext =>
      have hmember := Tree.hasKeys_iff.1 hkeys _ (Members.mem_of_get? htext)
      rw [Members.get?_of_mem hold hmem] at hmember
      simp [Option.some.inj hmember]
    · exact Bool.false_ne_true
  unfold entryMembers
  rw [hnone]
  cases mode with
  | replace =>
    exact congrArg _ (insertAll_keyMembers_same hold Members.sorted_nil hkeys fun _ _ => rfl)
  | update => exact congrArg _ (insertAll_keyMembers_same hold hold hkeys fun _ hget => hget)

theorem putMember_same {name : String} (hs : Sorted ms) (hheld : held.Normal)
    (hget : get? ms name = some held) : putMember mode name held ms = ms := by
  have hinsert : Members.insert ms name held = ms := Members.insert_of_get? hs hget
  unfold putMember
  split
  -- merging an object into itself gives the object
  · next new old hold =>
    obtain rfl := Json.obj.inj (Option.some.inj (hget.symm.trans hold))
    have hmerge : Members.insertAll new new = new := by
      refine Members.ext (Members.sorted_insertAll _ hheld.1) hheld.1 fun key => ?_
      rw [Members.get?_insertAll hheld.1]
      cases get? new key <;> rfl
    rw [hmerge, hinsert]
  · exact hinsert

/-- **Putting back the child that an element selects changes nothing.** For a replacement it matters
that the child is put back whole, and for an update that merging it with itself adds nothing. -/
theorem putInside_same (hs : Stands n entry (.obj ms) (.obj ms))
    (hchild : n.child? e.name = some target) (howns : target.OwnsKeys e) (hheld : held.Normal)
    (hobject : e.isKeyed = true → ∃ old, held = .obj old) (hfound : found? ms e = some held) :
    putInside mode e place held ms n = (.ok (), ms) := by
  have hsorted := (Schema.Node.Stands.normal hs).1
  have hput : putChild mode e place held ms n = .ok ms := by
    unfold putChild
    cases he : e.isKeyed with
    | false =>
      rw [Tree.found?_of_not_isKeyed he] at hfound
      exact congrArg Except.ok (putMember_same hsorted hheld hfound)
    | true =>
      obtain ⟨old, rfl⟩ := hobject he
      have hkeys : Tree.hasKeys old e.keys = true := by
        rw [Tree.found?_of_isKeyed he] at hfound
        exact List.find?_some (p := Tree.isEntryWith e.keys) hfound
      -- the entry is there, so nothing is created and the entry is put back over itself
      have hschema := Tree.childSchema_of_ownsKeys hchild howns
      obtain ⟨c, hstep⟩ := Tree.exists_descend hs hschema (Tree.isList_of_ownsKeys howns)
      have hcreate := (Tree.descend_keyed_iff hschema he).1 hstep
      have hsteps := Tree.stepsTo_of_descend hstep
      have hvalue := hsteps.eq_value hfound
      simp only [if_true, hchild, putEntry, hcreate, hvalue, entryMembers_same hheld.1 hkeys,
        Except.map]
      rw [← hvalue, hsteps.same hsorted (hvalue ▸ hfound)]
  exact putInside_eq_ok_iff.2 hput

/-- **Putting back what a look-up finds changes nothing.** It need not be asked that the path
selects an entry in each list: where it leads somewhere it goes through the entry that it finds
there. -/
theorem putAt_same {home : Option String} (hs : s.Loaded) (hfree : s.ColonFree)
    (hstands : s.root.Stands false (.obj ms) (.obj ms))
    (hwalk : s.root.walk? s.root.home p.elems = some (target, home))
    (hlookup : lookup p.elems (.obj ms) s.root = .ok (some (held, target))) :
    putAt s mode p held ms = .ok ms := by
  obtain ⟨-, hheld⟩ := Tree.stands_of_lookup hs.keyed hfree hstands hwalk hlookup
  cases hsplit : p.splitLast? with
  | none =>
    rw [splitLast?_eq_none hsplit] at hlookup
    obtain ⟨rfl, -⟩ := Prod.mk.inj (Option.some.inj (Except.ok.inj hlookup))
    rw [putAt, hsplit]
  | some split =>
    obtain ⟨parent, last⟩ := split
    rw [splitLast?_eq_some hsplit] at hwalk hlookup hheld
    have hentry : entryAt false (parent ++ [last]) = last.isKeyed := by simp [entryAt]
    rw [hentry] at hheld
    have hobject : target.OwnsKeys last → last.isKeyed = true → ∃ old, held = .obj old := by
      intro howns he
      rw [he] at hheld
      -- what is selected by keys is an entry of a list
      obtain ⟨mod, keys, children, rfl⟩ := Tree.exists_list_of_ownsKeys howns he
      obtain ⟨old, -, rfl, -⟩ := hheld.eq_obj .list
      exact ⟨old, rfl⟩
    have hmodify : Tree.modifyAt true (putInside mode last p.text held) parent ms s.root
        = .ok (.ok (), ms) :=
      Tree.modifyAt_same hs.keyed hfree hstands hwalk hlookup
        fun m entry ms hchild howns hms hfound =>
          putInside_same hms hchild howns hheld.normal (hobject howns) hfound
    rw [putAt_eq hsplit, hmodify]

/-! ### The data of a value that has been read -/

end Edit

namespace Schema

variable {s : Schema} {n : Node}

/-- Nodes below come from modules whose names have no colon. -/
theorem home_of_walk? {home : Option String} {elems : List Elem} {found : Node × Option String}
    (hhomes : n.Everywhere HomeFreeAt) (hhome : ∀ m ∈ home, ':' ∉ m.toList)
    (h : n.walk? home elems = some found) : ∀ m ∈ found.2, ':' ∉ m.toList := by
  induction elems generalizing n home with
  | nil => exact Option.some.inj h ▸ hhome
  | cons e elems ih =>
    -- a node that names no module is in that of the node above
    obtain ⟨c, hc, -, hrest⟩ := Node.walk?_cons h
    obtain ⟨children, hn, hname⟩ := Tree.get?_of_child? hc
    have hbelow := hhomes.child hn hname
    refine ih hbelow (fun m hm => ?_) hrest
    rcases Option.or_eq_some_iff.1 hm with hm | ⟨-, hm⟩
    · exact hbelow.here m hm
    · exact hhome m hm

theorem Node.reach_le_of_below? {elems : List Elem} {m : Node} (h : n.below? elems = some m) :
    m.reach ≤ n.reach := by
  induction elems generalizing n with
  | nil => rw [Option.some.inj h]
  | cons e elems ih =>
    obtain ⟨c, hc, hrest⟩ := Option.bind_eq_some_iff.1 h
    obtain ⟨children, hn, hname⟩ := Tree.get?_of_child? hc
    -- a child reaches no further than the deepest of the children, and a node with members reaches
    -- further than those
    refine Nat.le_trans (ih hrest) (Nat.le_trans (Node.reach_le_reachChildren hname) ?_)
    cases n with
    | container home cs =>
      obtain rfl := Option.some.inj hn
      exact Nat.le_succ _
    | list home keys cs =>
      obtain rfl := Option.some.inj hn
      exact Nat.le_add_right _ 2
    | leaf home kind => cases hn
    | leafList home kind => cases hn

theorem Node.reachOf_le (n : Node) (entry : Bool) : n.reachOf entry ≤ n.reach := by
  cases n with
  | list home keys children =>
    cases entry with
    | true => exact Nat.le_succ _
    | false => exact Nat.le_refl _
  | _ => exact Nat.le_refl _

/-- Data at a place of the schema is not too deep to be read. -/
theorem depth_le_maxDepth {entry : Bool} {elems : List Elem} {w c : Json} (hs : s.Loaded)
    (hbelow : s.root.below? elems = some n) (h : n.Stands entry w c) :
    w.depth ≤ Json.Term.maxDepth :=
  calc w.depth ≤ n.reachOf entry := h.depth_le
    _ ≤ n.reach := n.reachOf_le entry
    _ ≤ s.root.reach := Node.reach_le_of_below? hbelow
    _ ≤ Json.Term.maxDepth := hs.reach_le

end Schema

namespace Store

variable {st : Store} {p : Path} {target : Node} {encoding : Encoding} {models : List Model}
  {value : TypedValue} {held : Json}

/-! ### What a get answers -/

/-- A subtree as a value is the text of its document, in one of the two namings. -/
theorem exists_marshal_of_subtreeValue {s : Schema}
    (h : subtreeValue s encoding p held = .ok value) : ∃ naming j,
      s.marshal ⟨p.elems, held⟩ naming = .ok j ∧ value.document? = some j.bytes := by
  have hdocument : ∀ naming text,
      subtreeValue.document s p naming ⟨p.elems, held⟩ = .ok text →
        ∃ j, s.marshal ⟨p.elems, held⟩ naming = .ok j ∧ text = j.bytes := by
    intro naming text htext
    unfold subtreeValue.document at htext
    split at htext
    · next j hj => exact ⟨j, hj, (Except.ok.inj htext).symm⟩
    · cases htext
  unfold subtreeValue at h
  split at h
  · obtain ⟨text, htext, rfl⟩ := map_eq_ok_iff.1 h
    obtain ⟨j, hj, rfl⟩ := hdocument _ _ htext
    exact ⟨.plain, j, hj, rfl⟩
  · obtain ⟨text, htext, rfl⟩ := map_eq_ok_iff.1 h
    obtain ⟨j, hj, rfl⟩ := hdocument _ _ htext
    exact ⟨.qualified, j, hj, rfl⟩

/-- A value that a get answers has been found by a look-up: it is the typed value of scalars, and
the text of a document else. In which of the namings the text is spelled does not matter to the set,
which reads either. -/
theorem exists_lookup_of_valueAt (h : st.valueAt encoding models p = .ok value) :
    ∃ held n, lookup p.elems st.tree st.schema.root = .ok (some (held, n)) ∧
      match n.scalar? with
      | some kind => TypedValue.ofHeld p.text kind held = .ok value
      | none => ∃ naming j, st.schema.marshal ⟨p.elems, held⟩ naming = .ok j ∧
          value.document? = some j.bytes := by
  unfold valueAt at h
  split at h
  · cases h
  · cases h
  · next held n hlookup =>
    refine ⟨held, n, hlookup, ?_⟩
    -- the same split as in the reader: a scalar is answered by itself, everything else by a
    -- document
    cases hkind : n.scalar? with
    | some kind =>
      simp only [hkind] at h
      exact mapError_eq_ok_iff.1 h
    | none =>
      simp only [hkind] at h
      split at h
      · exact exists_marshal_of_subtreeValue h
      · cases h

/-- The typed value of scalars has the data that it has been made of. Decimals are left out, for
they are sent as floats. -/
theorem toHeld_of_stands {entry : Bool} {kind : ScalarKind} {place place' : String}
    (hkind : target.scalar? = some kind) (hne : kind ≠ .decimal) (h : Stands target entry held held)
    (hvalue : TypedValue.ofHeld place kind held = .ok value) :
    value.toHeld place' = .ok held := by
  -- `Stands` gives the shape of what is held for each kind of node; the two with members have no
  -- scalar
  cases h with
  | leaf hheld fits =>
    obtain rfl := Option.some.inj hkind
    exact (toHeld_of_ofHeld hne (isScalar_of_coerce? hheld) hvalue place').1
  | leafList hheld fits =>
    obtain rfl := Option.some.inj hkind
    refine toHeld_of_ofHeld_arr hne (fun c hc => ?_) hvalue place'
    obtain ⟨_, -, hc⟩ := exists_mem_right_of_forall₂ hheld hc
    exact isScalar_of_coerce? hc
  | object shape =>
    cases target with
    | leaf home kind => cases shape.1
    | leafList home kind => cases shape.1
    | container home cs => cases hkind
    | list home keys cs => cases hkind
  | list => cases hkind

/-- **The value that a get answers stands for what the look-up has found.** For scalars this is the
round trip through a typed value, and for all else the round trip through the text of a document
with the names that the schema gives its members. -/
theorem dataAt_of_valueAt {home : Option String} (hs : st.schema.Loaded)
    (hfree : st.schema.ColonFree) (hhomes : st.schema.HomeFree) (hr : st.reader.ReadsBack)
    (htree : st.schema.root.Stands false st.tree st.tree)
    (hnode : st.schema.nodeAt p.elems = .ok (target, home))
    (hkind : target.scalar? ≠ some .decimal) (h : st.valueAt encoding models p = .ok value) :
    ∃ held, lookup p.elems st.tree st.schema.root = .ok (some (held, target)) ∧
      Edit.dataAt st.schema st.reader p value = .ok held := by
  obtain ⟨held, n, hlookup, hvalue⟩ := exists_lookup_of_valueAt h
  have hwalk := Edit.walk?_of_nodeAt hnode
  have hbelow := Node.below?_of_walk? hwalk
  obtain ⟨rfl, hheld⟩ := Tree.stands_of_lookup hs.keyed hfree htree hwalk hlookup
  refine ⟨held, hlookup, ?_⟩
  have htfree : n.Everywhere Schema.ColonFreeAt := hfree.below? hbelow
  have hvalid := hheld.validate (Path.textOf p.elems)
  -- a text is read back if it is in normal form, and no deeper than the data
  have hparse : ∀ j : Json, j.Normal → j.depth ≤ held.depth →
      Json.parseBytes? st.reader j.bytes = some j := by
    intro j hnormal hdepth
    rw [Json.parseBytes?_bytes hr, Json.normalize_of_normal hnormal]
    exact ⟨Nat.le_trans hdepth (Schema.depth_le_maxDepth hs hbelow hheld), rfl⟩
  cases hscalar : n.scalar? with
  -- a scalar is sent as a typed value, whose data is written as the text of the payload
  | some kind =>
    rw [hscalar] at hvalue hkind
    have htoHeld : value.toHeld p.text = .ok held :=
      toHeld_of_stands hscalar (fun heq => hkind (congrArg _ heq)) hheld hvalue
    have htext : Edit.payload n p.text value = .ok held.bytes := by
      simp only [Edit.payload, Node.isLeaf, hscalar, Option.isSome_some, if_true, htoHeld]
    exact Edit.dataAt_of_payload hnode htext (hparse held hheld.normal (Nat.le_refl _))
      (hheld.conform htfree _) hvalid
  -- anything else is sent as the text of its document, which is held as the data again
  | none =>
    rw [hscalar] at hvalue
    obtain ⟨naming, j, hmarshal, hdocument⟩ := hvalue
    rw [Schema.marshal, hnode] at hmarshal
    obtain rfl := Except.ok.inj hmarshal
    have htext : Edit.payload n p.text value = .ok (Node.emit naming home true
        (Subtree.isEntryPlace p.elems) n held).bytes := by
      simp only [Edit.payload, Node.isLeaf, hscalar, Option.isSome_none, Bool.false_eq_true,
        if_false, hdocument]
    have hhome : ∀ m ∈ home, ':' ∉ m.toList :=
      Schema.home_of_walk? hhomes (fun m hm => hhomes.here m hm) hwalk
    exact Edit.dataAt_of_payload hnode htext
      (hparse _ (Node.normal_emit hheld.normal) (Node.depth_emit_le held))
      (Node.conform_emit htfree (hhomes.below? hbelow) hhome hheld _) hvalid

/-! ### The set after a get -/

theorem valueAt_of_get {g : GetRequest} {now : Int64} {resp : GetResponse}
    (h : st.get now g = .ok resp) : ∀ n ∈ resp.notifications, ∀ u ∈ n.updates,
      st.valueAt g.encoding g.models (u.path.under n.base) = .ok u.value := by
  unfold get at h
  dsimp only at h
  by_cases htype : (g.dataType != .all) = true
  · rw [if_pos htype] at h
    cases h
  · rw [if_neg htype] at h
    obtain ⟨_, -, h⟩ := bind_eq_ok_iff.1 h
    by_cases hpoisoned : st.poisoned = true
    · rw [if_pos hpoisoned] at h
      cases h
    · rw [if_neg hpoisoned] at h
      -- each path has a notification with one update
      obtain ⟨notifications, hall, h⟩ := bind_eq_ok_iff.1 h
      obtain rfl := Except.ok.inj h
      intro n hn u hu
      obtain ⟨p, -, hp⟩ := exists_mem_of_forall₂ (mapM_eq_ok_iff.1 hall) hn
      obtain ⟨value, hvalue, heq⟩ := bind_eq_ok_iff.1 hp
      obtain rfl := Except.ok.inj heq
      obtain rfl := List.mem_singleton.1 hu
      exact hvalue

/-- **Writing back what has been read changes nothing.** In a reachable store without a device, a
get has answered a value for a path that the schema has, not of decimals. A set that replaces or
updates the node at that path by the value succeeds, and leaves the store as it is. Only the root
cannot be updated. -/
theorem set_of_get (h : Reachable st) (hfree : st.schema.ColonFree) (hhomes : st.schema.HomeFree)
    (hr : st.reader.ReadsBack) (hd : st.device = none) {g : GetRequest} {now now' : Int64}
    {resp : GetResponse} (hget : st.get now g = .ok resp) {n : Notification}
    (hn : n ∈ resp.notifications) {u : Update} (hu : u ∈ n.updates)
    (htarget : st.schema.resolve? (u.path.under n.base).elems = some target)
    (hkind : target.scalar? ≠ some .decimal) (mode : WriteMode)
    (hmode : mode = .update → (u.path.under n.base).elems ≠ []) :
    ∃ answer, st.set now' (.single mode n.base u) = (.ok answer, st) := by
  have hinv := h.invariant
  have hstands := hinv.stands hfree
  have htree := h.tree_eq hfree
  obtain ⟨⟨target', home⟩, hwalk, rfl⟩ := Option.map_eq_some_iff.1 htarget
  have hnode : st.schema.nodeAt (u.path.under n.base).elems = .ok (target', home) := by
    unfold Schema.nodeAt
    rw [hwalk]
  obtain ⟨held, hlookup, hdata⟩ := dataAt_of_valueAt hinv.loaded hfree hhomes hr hstands hnode hkind
    (valueAt_of_get hget n hn u hu)
  rw [htree] at hstands hlookup
  have hput : Edit.putAt st.schema mode (u.path.under n.base) held st.members = .ok st.members :=
    Edit.putAt_same hinv.loaded hfree hstands hwalk hlookup
  -- only the root cannot be updated
  have hroot : ((u.path.under n.base).isRoot && mode == .update) = false := by
    cases mode with
    | replace => exact Bool.and_false _
    | update =>
      have hne := hmode rfl
      unfold Path.isRoot
      cases helems : (u.path.under n.base).elems with
      | nil => exact absurd helems hne
      | cons => rfl
  -- nothing has changed in the tree, so it stands for itself as before
  obtain ⟨answer, hset⟩ := set_single_of_stands hinv.loaded hfree hr hd hinv.poisoned hroot hdata
    hput hstands now'
  rw [← htree] at hset
  exact ⟨answer, hset⟩

/-! ### A server that is written back -/

/-- The server that the store has. -/
def server : Path := Path.ofElems [Path.Elem.ofKeys "server" [("port", "80")]]

/-- Its members. -/
def serverEntry : Json := .obj [("enabled", .bool true), ("port", .num (.ofUInt64 80))]

theorem get_server : (serverStore none []).get 0 ⟨none, [server], .all, .json, []⟩
    = .ok ⟨[⟨0, none, [⟨server, .json serverEntry.bytes⟩], []⟩]⟩ := by
  have hnormal : serverEntry.Normal := ⟨by decide, trivial, trivial, trivial⟩
  have hvalue : (serverStore none []).valueAt .json [] (server.under none)
      = .ok (.json serverEntry.bytes) := valueAt_of_lookup rfl rfl hnormal rfl
  exact get_single hvalue rfl 0

theorem set_of_get_server : ∃ answer, (serverStore none []).set 1
    (.single .update none ⟨server, .json serverEntry.bytes⟩) = (.ok answer, serverStore none []) :=
  set_of_get reachable_serverStore colonFree_serverSchema (by decide)
    Json.Reader.readsBack_nearest rfl get_server List.mem_cons_self List.mem_cons_self rfl
    (by decide) .update (fun _ => by decide)

end Store

end ConfigTree
