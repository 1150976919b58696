import ConfigTree.Store.Edit
import ConfigTree.Proofs.Tree.Alike

/-!
# Edits of trees that are alike

An edit fails on both of two trees that are alike, or succeeds on both with the same answer to
whether the device has to see it, and leaves trees that are alike.

* `stands_of_dataAt`: the data that a write puts into the tree stands for itself.
* `deleteAt_alike`, `putAt_alike`: deletion and writing.
* `apply_alike`: every edit.
-/

namespace ConfigTree

open ConfigTree.Path (Elem)
open ConfigTree.Tree (Object Addresses KeysFit)
open Members (get? Sorted SameNames)
open Schema (Node)
open Schema.Node (Alike Stands)

namespace Edit

variable {s : Schema} {r : Json.Reader} {n list target : Node} {e : Elem} {name place : String}
  {children : List (String × Node)} {ms vs : Object} {d : Json} {mode : WriteMode} {p : Path}

/-! ### The data of a write -/

theorem exists_of_unmarshal {elems : List Elem} {text : ByteArray} {c : Subtree}
    (h : s.unmarshal r elems text = .ok c) : ∃ raw found,
      s.nodeAt elems = .ok found ∧ c = ⟨elems, c.data⟩ ∧
      found.1.conform (Path.textOf elems) (Subtree.isEntryPlace elems) raw = .ok c.data := by
  obtain ⟨found, raw, hfound, -, hconform, rfl⟩ := Schema.unmarshal_eq_ok_iff.1 h
  exact ⟨raw, found, hfound, rfl, hconform⟩

theorem walk?_of_nodeAt {elems : List Elem} {found : Node × Option String}
    (h : s.nodeAt elems = .ok found) : s.root.walk? s.root.home elems = some found := by
  unfold Schema.nodeAt at h
  split at h
  · next heq => rw [heq, Except.ok.inj h]
  · cases h

/-- **The data that a value is at a path stands for itself there.** It has been read and checked at
the node of the path, whatever the tree holds, so the same data is put into any tree. -/
theorem stands_of_dataAt (hfree : s.ColonFree) {value : TypedValue}
    (h : dataAt s r p value = .ok d) : ∃ target home, s.nodeAt p.elems = .ok (target, home) ∧
      Stands target (Subtree.isEntryPlace p.elems) d d := by
  unfold dataAt at h
  split at h
  · cases h
  -- the text of the value is read at the path and then checked there
  · obtain ⟨text, -, h⟩ := bind_eq_ok_iff.1 h
    obtain ⟨c, hread, h⟩ := bind_eq_ok_iff.1 h
    obtain ⟨_, hvalid, h⟩ := bind_eq_ok_iff.1 h
    obtain rfl := Except.ok.inj h
    obtain ⟨raw, found, hfound, hc, hconform⟩ := exists_of_unmarshal (mapError_eq_ok_iff.1 hread)
    have hbelow := Node.below?_of_walk? (walk?_of_nodeAt hfound)
    rw [mapError_eq_ok_iff, hc, Schema.validate] at hvalid
    obtain ⟨found', hfound', hvalid⟩ := bind_eq_ok_iff.1 hvalid
    obtain rfl := Except.ok.inj (hfound.symm.trans hfound')
    exact ⟨found.1, found.2, hfound, Node.stands_of_conform (hfree.below? hbelow) hconform hvalid⟩

/-- The data that a text is at a path, if the text is that of a document which is held as the
data. -/
theorem dataAt_of_payload {home : Option String} {value : TypedValue} {j d : Json}
    (hnode : s.nodeAt p.elems = .ok (target, home))
    (htext : payload target p.text value = .ok j.bytes)
    (hparse : Json.parseBytes? r j.bytes = some j)
    (hconform : target.conform (Path.textOf p.elems) (Subtree.isEntryPlace p.elems) j = .ok d)
    (hvalid : target.validate (Path.textOf p.elems) (Subtree.isEntryPlace p.elems) d = .ok ()) :
    dataAt s r p value = .ok d := by
  have hresolve : s.resolve? p.elems = some target := by
    rw [Schema.resolve?, Node.resolve?, walk?_of_nodeAt hnode, Option.map_some]
  -- three steps, in the order in which they run: the text is parsed, what is parsed is brought to
  -- the schema, and that is checked
  have hread : s.unmarshal r p.elems j.bytes = .ok ⟨p.elems, d⟩ :=
    Schema.unmarshal_eq_ok_iff.2 ⟨_, j, hnode, hparse, hconform, rfl⟩
  have hcheck : s.validate ⟨p.elems, d⟩ = .ok () := by
    unfold Schema.validate
    simp only [hnode, hvalid, bind, Except.bind]
  unfold dataAt
  simp only [hresolve, htext, hread, hcheck, bind, Except.bind, Except.mapError]
  rfl

/-- What a write comes to: the data that its value is at the path is put there. -/
theorem writeAt_eq_ok_iff {value : TypedValue} : writeAt s r mode p value ms = .ok vs ↔
    (p.isRoot && mode == .update) = false ∧
      ∃ d, dataAt s r p value = .ok d ∧ putAt s mode p d ms = .ok vs := by
  unfold writeAt
  split
  · next hroot => simp [hroot]
  · next hroot =>
    simp only [hroot, true_and]
    exact bind_eq_ok_iff

/-! ### Writing a member -/

/-- A member that is written into objects that are alike leaves objects that are alike. It has to be
ruled out that an update merges on one side and replaces on the other. -/
theorem putMember_alike (h : Alike n (.obj ms) (.obj vs)) (hn : n.children? = some children)
    (hget : get? children name = some target) (hd : Alike target d d) :
    Alike n (.obj (putMember mode name d ms)) (.obj (putMember mode name d vs)) := by
  have hplain := h.insert hn hget hd
  unfold putMember
  -- an update merges objects, and all else is put in place of what was there
  split
  · next new old hold =>
    obtain ⟨w, hw, halike⟩ := h.member hn hget hold
    obtain ⟨old', rfl⟩ := halike.eq_obj
    rw [hw]
    exact h.insert hn hget (halike.insertAll hd)
  · next hms =>
    split
    · next new old hold =>
      -- an object on the right is alike to an object on the left
      obtain ⟨w, hw, halike⟩ := h.symm.member hn hget hold
      obtain ⟨old', rfl⟩ := halike.eq_obj
      exact (hms new old' rfl rfl hw).elim
    · exact hplain

/-! ### Writing an entry -/

theorem entryMembers_alike (h : Alike list (.obj ms) (.obj vs)) (hkeys : KeysFit list e)
    {new : Object} (hd : Alike list (.obj new) (.obj new)) :
    Together (fun a b : Object => Alike list (.obj a) (.obj b))
      (entryMembers mode list e place ms new) (entryMembers mode list e place vs new) := by
  obtain ⟨cs, hcs⟩ := h.exists_children
  have hwritten : ∀ {old old' : Object}, Alike list (.obj old) (.obj old') →
      Alike list (.obj (Members.insertAll (Members.insertAll old (Tree.keyMembers list e)) new))
        (.obj (Members.insertAll (Members.insertAll old' (Tree.keyMembers list e)) new)) :=
    fun hold => (hold.insertAll (Tree.newEntry_alike hkeys)).insertAll hd
  -- whether a member contradicts the path is told from the data alone, so both sides fail together
  unfold entryMembers
  split
  · exact .error _ _
  · cases mode with
    | replace => exact .ok (hwritten (Alike.empty hcs))
    | update => exact .ok (hwritten h)

/-- An entry is found in both trees or is added to both, since alike entries have the same texts of
keys as long as the path has them in stored form. -/
theorem putEntry_alike (h : Alike n (.obj ms) (.obj vs)) (hchild : n.child? e.name = some list)
    (hkeys : KeysFit list e) (hd : Alike list d d) :
    Together (fun a b : Object => Alike n (.obj a) (.obj b))
      (putEntry mode list e place d ms) (putEntry mode list e place d vs) := by
  unfold putEntry
  rcases (Tree.findOrCreate_alike h hchild hkeys true).some_or_none with
    ⟨⟨members, slot, value⟩, ⟨members', slot', value'⟩, hx, hy, hc⟩ | ⟨hx, hy⟩ | ⟨err, err', hx, hy⟩
  · rw [hx, hy]
    cases value with
    | obj old =>
      obtain ⟨old', rfl⟩ := hc.value.eq_obj
      cases d with
      | obj new => exact (entryMembers_alike hc.value hkeys hd).map fun _ _ hab => hc.put hab
      | _ => exact .error _ _
    | _ =>
      -- neither entry is an object, so both writes fail
      cases value' with
      | obj old' =>
        obtain ⟨old, hold⟩ := hc.value.symm.eq_obj
        cases hold
      | _ => exact .error _ _
  · rw [hx, hy]
    exact .error _ _
  · rw [hx, hy]
    exact .error _ _

theorem putChild_alike (h : Alike n (.obj ms) (.obj vs)) (hchild : n.child? e.name = some target)
    (hkeys : e.isKeyed = true → KeysFit target e) (hd : Alike target d d) :
    Together (fun a b : Object => Alike n (.obj a) (.obj b))
      (putChild mode e place d ms n) (putChild mode e place d vs n) := by
  unfold putChild
  cases hkeyed : e.isKeyed with
  | true =>
    rw [hchild]
    exact putEntry_alike h hchild (hkeys hkeyed) hd
  | false =>
    obtain ⟨children, hn, hget⟩ := Tree.get?_of_child? hchild
    exact .ok (putMember_alike h hn hget hd)

/-! ### Edits of a tree -/

theorem splitLast?_eq_some {parent : List Elem} {last : Elem}
    (h : p.splitLast? = some (parent, last)) : p.elems = parent ++ [last] := by
  obtain ⟨l, hl, heq⟩ := Option.map_eq_some_iff.1 h
  obtain ⟨rfl, rfl⟩ := Prod.mk.inj heq
  exact (List.dropLast_append_getLast? l hl).symm

theorem splitLast?_eq_none (h : p.splitLast? = none) : p.elems = [] :=
  List.getLast?_eq_none_iff.1 (Option.map_eq_none_iff.1 h)

/-- What writing does at the node above the one that is written. The whole write is a change below
the path to that node, so what is known of such changes holds of it. -/
def putInside (mode : WriteMode) (last : Elem) (place : String) (data : Json) (members : Object)
    (n : Node) : Except StoreError Unit × Object :=
  match putChild mode last place data members n with
  | .ok changed => (.ok (), changed)
  | .error e => (.error e, members)

theorem putInside_eq_ok_iff :
    putInside mode e place d ms n = (.ok (), vs) ↔ putChild mode e place d ms n = .ok vs := by
  unfold putInside
  cases putChild mode e place d ms n with
  | ok changed => exact ⟨fun h => congrArg _ (Prod.mk.inj h).2, fun h => by rw [Except.ok.inj h]⟩
  | error err => exact ⟨fun h => (nomatch (Prod.mk.inj h).1), fun h => nomatch h⟩

/-- What deletion does at the node above the one that is deleted. -/
def removeInside (last : Elem) (members : Object) (_ : Node) : Except TreeError Bool × Object :=
  match removeChild last members with
  | .ok (removed, rest) => (.ok removed, rest)
  | .error e => (.error e, members)

theorem putAt_eq {parent : List Elem} {last : Elem} (h : p.splitLast? = some (parent, last))
    (tree : Object) : putAt s mode p d tree =
      match Tree.modifyAt true (putInside mode last p.text d) parent tree s.root with
      | .error obstacle => .error (obstacleError p.text obstacle)
      | .ok (.error e, _) => .error e
      | .ok (.ok (), changed) => .ok changed := by
  unfold putAt
  rw [h]
  rfl

theorem deleteAt_eq {parent : List Elem} {last : Elem} (h : p.splitLast? = some (parent, last))
    (tree : Object) : deleteAt s p tree =
      match Tree.modifyAt false (removeInside last) parent tree s.root with
      | .error _ => .ok (false, tree)
      | .ok (.error e, _) => .error (.navigation p.text e)
      | .ok (.ok false, _) => .ok (false, tree)
      | .ok (.ok true, rest) =>
        match Tree.prune parent rest s.root with
        | .error e => .error (.navigation p.text e)
        | .ok pruned => .ok (true, pruned) := by
  unfold deleteAt
  rw [h]
  rfl

theorem putInside_alike (h : Alike n (.obj ms) (.obj vs)) (hchild : n.child? e.name = some target)
    (hkeys : e.isKeyed = true → KeysFit target e) (hd : Alike target d d) :
    Together (fun _ _ : Unit => True) (putInside mode e place d ms n).1
        (putInside mode e place d vs n).1 ∧
      Alike n (.obj (putInside mode e place d ms n).2)
        (.obj (putInside mode e place d vs n).2) := by
  have hput : Together (fun a b : Object => Alike n (.obj a) (.obj b))
      (putChild mode e place d ms n) (putChild mode e place d vs n) :=
    putChild_alike h hchild hkeys hd
  -- on a failure the element keeps its members, which are alike by hypothesis
  unfold putInside
  rcases hput.ok_or_error with ⟨ms', vs', hx, hy, hab⟩ | ⟨err, err', hx, hy⟩
  · rw [hx, hy]
    exact ⟨.ok trivial, hab⟩
  · rw [hx, hy]
    exact ⟨.error _ _, h⟩

/-- **Putting data into trees that are alike** leaves trees that are alike. On the way both trees
are changed at the node above the last element, which is reached in both or in neither. -/
theorem putAt_alike (h : Alike s.root (.obj ms) (.obj vs)) (hpath : Addresses s.root p.elems)
    (htarget : s.root.below? p.elems = some target) (hd : Alike target d d) :
    Together (fun a b : Object => Alike s.root (.obj a) (.obj b))
      (putAt s mode p d ms) (putAt s mode p d vs) := by
  cases hsplit : p.splitLast? with
  -- at the root the data is the whole tree
  | none =>
    unfold putAt
    rw [hsplit]
    rw [splitLast?_eq_none hsplit] at htarget
    obtain rfl := Option.some.inj htarget
    cases d with
    | obj members => exact .ok hd
    | _ => exact .error _ _
  | some split =>
    obtain ⟨parent, last⟩ := split
    have helems := splitLast?_eq_some hsplit
    rw [helems] at hpath htarget
    rw [Node.below?_append] at htarget
    -- the change at the end of the path is the one of `putInside`, on both sides
    have hmodify : Together (fun a b : Except StoreError Unit × Object =>
        Together (fun _ _ : Unit => True) a.1 b.1 ∧ Alike s.root (.obj a.2) (.obj b.2))
        (Tree.modifyAt true (putInside mode last p.text d) parent ms s.root)
        (Tree.modifyAt true (putInside mode last p.text d) parent vs s.root) := by
      refine Tree.modifyAt_alike (List.cons_ne_nil last []) hpath h ?_
      rintro m ms vs hm ⟨child, hchild, hkeys, -⟩ hms
      rw [hm, Option.bind_some, Node.below?_cons hchild] at htarget
      obtain rfl := Option.some.inj htarget
      exact putInside_alike hms hchild hkeys hd
    rw [putAt_eq hsplit, putAt_eq hsplit]
    rcases hmodify.ok_or_error with
      ⟨⟨done, changed⟩, ⟨done', changed'⟩, hx, hy, hdone, hchanged⟩ | ⟨err, err', hx, hy⟩
    · rw [hx, hy]
      -- the change below the path may have failed, on both sides then
      cases hdone with
      | ok _ => exact .ok hchanged
      | error err err' => exact .error _ _
    · rw [hx, hy]
      exact .error _ _

theorem removeInside_alike (h : Alike n (.obj ms) (.obj vs))
    (hchild : n.child? e.name = some target) (hkeys : e.isKeyed = true → KeysFit target e) :
    Together Eq (removeInside e ms n).1 (removeInside e vs n).1 ∧
      Alike n (.obj (removeInside e ms n).2) (.obj (removeInside e vs n).2) := by
  have hremove : Together (fun a b : Bool × Object => a.1 = b.1 ∧ Alike n (.obj a.2) (.obj b.2))
      (removeChild e ms) (removeChild e vs) := by
    unfold removeChild
    cases hkeyed : e.isKeyed with
    | true => exact Tree.deleteEntry_alike h hchild (hkeys hkeyed)
    -- erasing by name says whether the name was there, and two objects that are alike have the same
    -- names
    | false => exact .ok ⟨h.sameNames _, h.erase _⟩
  unfold removeInside
  rcases hremove.ok_or_error with ⟨a, b, hx, hy, hab⟩ | ⟨err, err', hx, hy⟩
  · rw [hx, hy]
    exact ⟨.ok hab.1, hab.2⟩
  · rw [hx, hy]
    exact ⟨.error _ _, h⟩

/-- **Deleting from trees that are alike** leaves trees that are alike, with the same answer to
whether anything has been deleted. -/
theorem deleteAt_alike (h : Alike s.root (.obj ms) (.obj vs)) (hpath : Addresses s.root p.elems) :
    Together (fun a b : Bool × Object => a.1 = b.1 ∧ Alike s.root (.obj a.2) (.obj b.2))
      (deleteAt s p ms) (deleteAt s p vs) := by
  cases hsplit : p.splitLast? with
  | none =>
    unfold deleteAt
    rw [hsplit]
    -- the root is emptied
    obtain ⟨cs, hcs⟩ := h.exists_children
    exact .ok ⟨by rw [Tree.isEmpty_alike h], Alike.empty hcs⟩
  | some split =>
    obtain ⟨parent, last⟩ := split
    rw [splitLast?_eq_some hsplit] at hpath
    have hmodify : Together (fun a b : Except TreeError Bool × Object =>
        Together Eq a.1 b.1 ∧ Alike s.root (.obj a.2) (.obj b.2))
        (Tree.modifyAt false (removeInside last) parent ms s.root)
        (Tree.modifyAt false (removeInside last) parent vs s.root) := by
      refine Tree.modifyAt_alike (List.cons_ne_nil last []) hpath h ?_
      rintro m ms vs - ⟨child, hchild, hkeys, -⟩ hms
      exact removeInside_alike hms hchild hkeys
    rw [deleteAt_eq hsplit, deleteAt_eq hsplit]
    rcases hmodify.ok_or_error with
      ⟨⟨removed, changed⟩, ⟨removed', changed'⟩, hx, hy, hremoved, hchanged⟩ | ⟨err, err', hx, hy⟩
    · rw [hx, hy]
      cases hremoved with
      | error err err' => exact .error _ _
      | @ok flag _ heq =>
        subst heq
        cases flag with
        | false => exact .ok ⟨rfl, h⟩
        | true =>
          -- only a removal is followed by pruning
          dsimp only
          rcases (Tree.prune_alike hpath.prefix hchanged).ok_or_error with
            ⟨pruned, pruned', hx, hy, hab⟩ | ⟨err, err', hx, hy⟩
          · rw [hx, hy]
            exact .ok ⟨rfl, hab⟩
          · rw [hx, hy]
            exact .error _ _
    · rw [hx, hy]
      exact .ok ⟨rfl, h⟩

/-- The path that an edit is about. -/
def path : Edit → Path
  | .delete p => p
  | .write _ p _ => p

/-- **An edit of trees that are alike** leaves trees that are alike, or fails on both. The errors
need not be the same, for they may show what a tree holds. -/
theorem apply_alike (hfree : s.ColonFree) {edit : Edit} (h : Alike s.root (.obj ms) (.obj vs))
    (hpath : Addresses s.root edit.path.elems) :
    Together (fun a b : Bool × Object => a.1 = b.1 ∧ Alike s.root (.obj a.2) (.obj b.2))
      (edit.apply s r ms) (edit.apply s r vs) := by
  cases edit with
  | delete p => exact deleteAt_alike h hpath
  | write mode p value =>
    have hwrite : Together (fun a b : Object => Alike s.root (.obj a) (.obj b))
        (writeAt s r mode p value ms) (writeAt s r mode p value vs) := by
      unfold writeAt
      split
      · exact .error _ _
      · cases hd : dataAt s r p value with
        | error err => exact .error _ _
        | ok d =>
          -- the data depends on the path alone, and is alike to itself
          obtain ⟨target, home, hnode, hstands⟩ := stands_of_dataAt hfree hd
          have htarget := Node.below?_of_walk? (walk?_of_nodeAt hnode)
          have hself := Alike.of_stands (hfree.below? htarget) hstands
          exact putAt_alike h hpath htarget hself
    exact hwrite.map fun _ _ hab => ⟨rfl, hab⟩

/-- An edit that the device does not have to see leaves the tree as it is. A write always has to be
seen, so this is about a deletion that has found nothing. -/
theorem eq_of_apply_false {edit : Edit} (h : edit.apply s r ms = .ok (false, vs)) : vs = ms := by
  cases edit with
  | delete p =>
    change deleteAt s p ms = _ at h
    cases hsplit : p.splitLast? with
    | none =>
      unfold deleteAt at h
      rw [hsplit] at h
      -- only a root that is empty already is left as it is
      obtain ⟨hempty, rfl⟩ := Prod.mk.inj (Except.ok.inj h)
      exact (List.isEmpty_iff.1 (by simpa using hempty)).symm
    | some split =>
      obtain ⟨parent, last⟩ := split
      rw [deleteAt_eq hsplit] at h
      split at h
      · exact (Prod.mk.inj (Except.ok.inj h)).2.symm
      · cases h
      · exact (Prod.mk.inj (Except.ok.inj h)).2.symm
      · split at h
        · cases h
        · cases (Prod.mk.inj (Except.ok.inj h)).1
  | write mode p value =>
    obtain ⟨changed, -, heq⟩ := map_eq_ok_iff.1 h
    cases (Prod.mk.inj heq).1

end Edit

end ConfigTree
