import ConfigTree.Proofs.Store.Delete

/-!
# Edits that commute

Two requests with one edit each, at paths that branch, succeed in either order and leave the same
tree, but for the order of entries. What one adds on its way the other may leave empty, and an entry
that is deleted leaves its place to the last one; so it is not for each path alone that the outcome
is the same, but for the tree as a whole.

* `Edit.OfNode`: an edit of one node, which its path tells from all others.
* `Edit.OfNode.exists_change`: such an edit is a change at its path, whatever the configuration.
* `Store.set_comm`: the two requests, in either order.

To commute the edits directly would be to compare two runs, each on a tree that the other edit has
changed. Instead each edit is shown to be one `Change`, which depends on its path, its data and its
mode alone. After that no run is looked at any more, only whether two changes at paths that branch
commute (`Change.reordered_along`).
-/

namespace ConfigTree

open ConfigTree.Path (Elem)
open ConfigTree.Tree (Object SelectsEntries EachKey EndsInKey Change Branch lookup)
open Schema (Node)
open Schema.Node (Stands)

namespace Edit

variable {s : Schema} {r : Json.Reader} {ms : Object} {p : Path}

/-! ### Edits as changes -/

/-- An edit of one node: its path leads into the schema and selects an entry in each list, by texts
that valid keys have, but does not end in a key. What is written there is valid and agrees with the
keys of the path. -/
structure OfNode (s : Schema) (r : Json.Reader) (edit : Edit) : Prop where
  below : edit.path.elems ≠ []
  resolves : (s.resolve? edit.path.elems).isSome = true
  selects : SelectsEntries s.root edit.path.elems
  texts : EachKey IsKeyText s.root edit.path.elems
  noKey : ¬ EndsInKey s.root edit.path.elems
  data : ∀ mode p value, edit = .write mode p value →
    ∃ d, dataAt s r p value = .ok d ∧ Agrees p d

/-- **A deletion cuts off what its path leads to**, if it leads somewhere. Where it does not, to cut
it off changes nothing, and neither does the deletion. -/
theorem exists_deleteAt_cut (hs : s.Loaded) (hfree : s.ColonFree) {home : Option String}
    {found : Node × Option String} (hp : p.elems ≠ [])
    (hwalk : s.root.walk? home p.elems = some found) (hkey : ¬ EndsInKey s.root p.elems)
    (hms : s.root.Stands false (.obj ms) (.obj ms)) :
    ∃ flag, deleteAt s p ms = .ok (flag, Change.cut.along p.elems s.root ms) ∧
      s.root.Stands false (.obj (Change.cut.along p.elems s.root ms))
        (.obj (Change.cut.along p.elems s.root ms)) := by
  have hformed := Schema.Node.formed_of_stands hms
  by_cases hmissing : ∀ place, lookup p.elems (.obj ms) s.root ≠ .ok (some place)
  · obtain ⟨parent, last, hsplit⟩ := exists_splitLast? hp
    rw [Tree.along_cut_of_lookup_ne hformed hwalk hmissing]
    exact ⟨false, (deleteAt_of_missing hformed trivial hsplit hmissing).1
      (not_keysElsewhere hformed trivial hwalk), hms⟩
  · obtain ⟨place, hplace⟩ := Classical.not_forall.1 hmissing
    obtain ⟨hdelete, hleft⟩ := deleteAt_cut hs.keyed hformed trivial trivial hp hwalk hkey
      (Classical.not_not.1 hplace)
    -- what is left is valid, so it stands for itself
    exact ⟨true, hdelete, hleft.stands_self hfree⟩

/-- **An edit of one node is a change at its path**, the same one whatever the configuration. This
is what makes it possible to swap two of them: the change does not depend on what the other edit has
done before. -/
theorem OfNode.exists_change (hs : s.Loaded) (hfree : s.ColonFree) {edit : Edit}
    (h : edit.OfNode s r) : ∃ c : Change, c.Fits s.root edit.path.elems ∧
      ∀ ms, s.root.Stands false (.obj ms) (.obj ms) → ∃ flag ms',
        edit.apply s r ms = .ok (flag, ms') ∧
        s.root.Stands false (.obj ms') (.obj (c.along edit.path.elems s.root ms)) := by
  obtain ⟨above, last, hsplit⟩ := exists_splitLast? h.below
  have helems := splitLast?_eq_some hsplit
  obtain ⟨n, hn⟩ := Option.isSome_iff_exists.1 h.resolves
  obtain ⟨found, hwalk, -⟩ := Option.map_eq_some_iff.1 hn
  obtain ⟨m, hends⟩ := Tree.exists_endsAt hs.keyed hfree (helems ▸ hwalk) (helems ▸ h.selects)
    (helems ▸ h.texts) (helems ▸ h.noKey)
  cases edit with
  | delete p =>
    refine ⟨.cut, ?_, fun ms hms => ?_⟩
    · rw [helems]
      exact hends.fits fun found v hv => by cases hv
    · obtain ⟨flag, hdelete, hstands⟩ := exists_deleteAt_cut hs hfree h.below hwalk h.noKey hms
      exact ⟨flag, _, hdelete, hstands⟩
  | write mode p value =>
    -- the data depends on the path alone
    obtain ⟨d, hdata, hagrees⟩ := h.data mode p value rfl
    obtain ⟨target, home, hnode, hd⟩ := stands_of_dataAt hfree hdata
    obtain rfl := Option.some.inj (hwalk.symm.trans (walk?_of_nodeAt hnode))
    change p.elems = above ++ [last] at helems
    have hplace : Subtree.isEntryPlace p.elems = last.isKeyed := by
      simp [Subtree.isEntryPlace, helems]
    obtain ⟨hfits, hput⟩ := exists_putAt mode hs.keyed hfree hsplit hends (hplace ▸ hd) hagrees
    rw [← helems] at hfits hput
    refine ⟨_, hfits, fun ms hms => ?_⟩
    obtain ⟨ms', hput, hstands⟩ := hput ms hms
    have hbelow : p.elems.isEmpty = false := List.isEmpty_eq_false_iff.2 h.below
    have hroot : (p.isRoot && mode == .update) = false := by
      rw [Path.isRoot, hbelow, Bool.false_and]
    have hwrite : writeAt s r mode p value ms = .ok ms' :=
      writeAt_eq_ok_iff.2 ⟨hroot, d, hdata, hput⟩
    exact ⟨true, ms', by rw [apply, hwrite]; rfl, hstands⟩

end Edit

namespace Store

variable {st : Store} {q q' : SetRequest} {edit edit' : Edit}

/-! ### Two requests in turn -/

/-- Two requests succeed, one after the other, and leave a store. -/
def SetsInTurn (st : Store) (now now' : Int64) (q q' : SetRequest) (st' : Store) : Prop :=
  ∃ mid resp resp', st.set now q = (.ok resp, mid) ∧ mid.set now' q' = (.ok resp', st')

/-- **A request with an edit of one node** makes a change of the committed tree, the same one in all
stores of a schema. -/
theorem exists_change_of_set {s : Schema} {r : Json.Reader} (hs : s.Loaded) (hfree : s.ColonFree)
    (hr : r.ReadsBack) (hq : q.edits = [edit]) (hedit : edit.OfNode s r) :
    ∃ c : Change, c.Fits s.root edit.path.elems ∧ ∀ st : Store, Reachable st → st.schema = s →
      st.reader = r → st.device = none → ∀ now, ∃ resp, st.set now q
        = (.ok resp, { st with tree := .obj (c.along edit.path.elems s.root st.members) }) := by
  obtain ⟨c, hfits, happly⟩ := hedit.exists_change hs hfree
  refine ⟨c, hfits, fun st h hschema hreader hd now => ?_⟩
  subst hschema hreader
  have hstands := h.invariant.stands hfree
  rw [h.tree_eq hfree] at hstands
  -- what `apply` leaves need not be the changed object, only stand for it; the read at the commit
  -- turns it into that object
  obtain ⟨flag, ms', hms', hleft⟩ := happly st.members hstands
  have hread := Schema.rederive_of_stands hs hfree hr hleft
  have hsettle : settle st.schema st.reader q.edits st.members
      = .ok (.obj (c.along edit.path.elems st.schema.root st.members)) := by
    rw [hq, settle_of_read hms' hread, settle_nil hread, Subtree.root]
  exact (set_eq_ok_iff hd h.invariant.poisoned).2 ⟨_, hsettle, rfl⟩

/-- **Edits of different nodes commute.** In a reachable store without a device there are two
requests with one edit each, at paths that branch. They succeed in either order, and leave the same
tree but for the order of entries. The order may differ: an entry that is deleted leaves its place
to the last one, which may be the entry that the other edit has added. -/
theorem set_comm (h : Reachable st) (hfree : st.schema.ColonFree) (hr : st.reader.ReadsBack)
    (hd : st.device = none) (hq : q.edits = [edit]) (hq' : q'.edits = [edit'])
    (hedit : edit.OfNode st.schema st.reader) (hedit' : edit'.OfNode st.schema st.reader)
    (hbranch : Branch edit.path.elems edit'.path.elems) (t₁ t₂ t₃ t₄ : Int64) :
    ∃ left right, st.SetsInTurn t₁ t₂ q q' left ∧ st.SetsInTurn t₃ t₄ q' q right ∧
      left.tree.Reordered right.tree := by
  have hs := h.invariant.loaded
  obtain ⟨c, hfits, hset⟩ := exists_change_of_set hs hfree hr hq hedit
  obtain ⟨c', hfits', hset'⟩ := exists_change_of_set hs hfree hr hq' hedit'
  obtain ⟨resp₁, hfirst⟩ := hset st h rfl rfl hd t₁
  obtain ⟨resp₃, hsecond⟩ := hset' st h rfl rfl hd t₃
  -- after the first request the store is one of the same schema, still without a device
  have hmid := h.set t₁ q
  have hmid' := h.set t₃ q'
  rw [hfirst] at hmid
  rw [hsecond] at hmid'
  obtain ⟨resp₂, hleft⟩ := hset' _ hmid rfl rfl hd t₂
  obtain ⟨resp₄, hright⟩ := hset _ hmid' rfl rfl hd t₄
  exact ⟨_, _, ⟨_, _, _, hfirst, hleft⟩, ⟨_, _, _, hsecond, hright⟩,
    Change.reordered_along hs.keyed (h.formed_members hfree) hfits' hfits hbranch.symm⟩

/-! ### A server that takes the place of another -/

theorem ofNode_oldServer : (Edit.delete (serverAt "80")).OfNode serverSchema .nearest where
  below := List.cons_ne_nil _ []
  resolves := rfl
  selects := selectsEntries_server_cons trivial
  texts := eachKey_server ⟨.num (.ofUInt64 80), rfl, rfl, by decide⟩ trivial
  noKey := Tree.not_endsInKey_singleton rfl
  data := by
    intro mode p value heq
    cases heq

theorem ofNode_newFlag :
    (Edit.write .update newFlag (.bool true)).OfNode serverSchema .nearest where
  below := List.cons_ne_nil _ _
  resolves := rfl
  selects := selectsEntries_server "8080" "enabled"
  texts := by
    refine eachKey_server isKeyText_8080 fun child _ => ⟨fun key hkey => ?_, trivial⟩
    cases hkey
  noKey := not_endsInKey_flag "8080"
  data := by
    intro mode p value heq
    cases heq
    refine ⟨_, dataAt_newFlag, fun last _ members hmembers => ?_⟩
    cases hmembers

/-- Deleting the only server and adding another one: the list goes and comes again, or the new
server takes the place of the old one. -/
theorem set_comm_servers : ∃ left right,
    (serverStore none []).SetsInTurn 0 1 (.deletion none (serverAt "80"))
      (.single .update none ⟨newFlag, .bool true⟩) left ∧
    (serverStore none []).SetsInTurn 2 3 (.single .update none ⟨newFlag, .bool true⟩)
      (.deletion none (serverAt "80")) right ∧
    left.tree.Reordered right.tree :=
  set_comm reachable_serverStore colonFree_serverSchema Json.Reader.readsBack_nearest rfl rfl rfl
    ofNode_oldServer ofNode_newFlag
    (.here (.inr ⟨rfl, "port", "80", "8080", rfl, rfl, by decide⟩)) 0 1 2 3

end Store

end ConfigTree
