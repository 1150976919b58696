import ConfigTree.Proofs.Store.Device
import ConfigTree.Proofs.Store.Frame
import ConfigTree.Proofs.Tree.Along

/-!
# Deleting a node

A request that deletes one path takes away what the path leads to, with the containers above it that
are empty then, and nothing else. Where the path leads nowhere it changes nothing. It fails only if
the path ends with keys at a node that is there and is no list.

* `SetRequest.deletion`: a request with a single deletion.
* `Edit.drops_removeInside`: what a deletion does inside the node above the end of its path.
* `lookup_set_deletion`: what paths find after a deletion.
* `KeysElsewhere`: the keys at the end of a path are not those of a list.
* `set_deletion_missing`: a deletion of what is not there.

Whether a deletion finds anything is told by the look-up of its path, so the cases are those of the
look-up. What is there is cut off (`deleteAt_cut`). The tree that is left is well formed and stands
for itself, so the commit does not change it, and what other paths find is read off the cut.
-/

namespace ConfigTree

open ConfigTree.Path (Elem)
open ConfigTree.Tree (Object SelectsEntries EndsInKey Diverge Change Cuts Drops found? dropFound
  lookup childSchema)
open Members (get? Sorted)
open Schema (Node)
open Schema.Node (Form Formed Stands)

/-- A request with a single deletion. -/
def SetRequest.deletion (base : Option Path) (p : Path) : SetRequest := ⟨base, [p], [], []⟩

namespace Edit

variable {F : Form} {s : Schema} {n : Node} {entry : Bool} {e last : Elem} {parent : List Elem}
  {ms inner : Object} {v w : Json} {p : Path}

/-! ### Taking out a child -/

theorem removeChild_of_found (h : found? ms e = some v) :
    removeChild e ms = .ok (true, dropFound e ms) := by
  unfold removeChild
  cases he : e.isKeyed with
  | true =>
    rw [if_pos rfl]
    exact Tree.deleteEntry_of_found he h
  | false =>
    rw [Tree.found?_of_not_isKeyed he] at h
    simp [Tree.dropFound_of_not_isKeyed he, Members.contains, h]

/-- Where an element selects nothing, nothing is taken out, or the element is refused since
something else than a list has its name. The refusal is a matter of what the tree has there: with
nothing under the name no keys are looked at. -/
theorem removeChild_of_missing (h : found? ms e = none) :
    (∃ rest, removeChild e ms = .ok (false, rest)) ∧
        (e.isKeyed = true → ∀ w, get? ms (localName e.name) = some w → w.arr?.isSome = true) ∨
      removeChild e ms = .error (.wrongNode e.text .notKeyedList) ∧ e.isKeyed = true ∧
        ∃ w, get? ms (localName e.name) = some w ∧ w.arr? = none := by
  unfold removeChild
  cases he : e.isKeyed with
  | true =>
    simp only [if_true]
    -- an element with keys that finds nothing: a member that is no array is refused, an array or no
    -- member at all is not
    by_cases hlist : ∀ w, get? ms (localName e.name) = some w → w.arr?.isSome = true
    · refine .inl ⟨⟨ms, Tree.deleteEntry_of_missing he h fun w hw => ?_⟩, fun _ => hlist⟩
      have harr := hlist w hw
      cases w with
      | arr xs => exact ⟨xs, rfl⟩
      | _ => cases harr
    · obtain ⟨w, hw⟩ := Classical.not_forall.1 hlist
      obtain ⟨hw, hother⟩ := Classical.not_imp.1 hw
      have hnone := Option.not_isSome_iff_eq_none.1 hother
      exact .inr ⟨Tree.deleteEntry_of_other hw hnone, trivial, w, hw, hnone⟩
  | false =>
    -- without keys the member itself is erased, which can not fail
    rw [Tree.found?_of_not_isKeyed he] at h
    refine .inl ⟨⟨Members.erase ms (localName e.name), ?_⟩, fun hkeyed => by cases hkeyed⟩
    simp [Members.contains, h]

/-- **A deletion takes out what the last element selects**, if it selects something. This is what
makes it one of the changes whose effect on look-ups is known. -/
theorem drops_removeInside : Drops (removeInside e) (.ok true) e := by
  intro inner m inner'
  unfold removeInside
  cases hfound : found? inner e with
  | some v =>
    rw [removeChild_of_found hfound]
    simp [eq_comm]
  | none =>
    rcases removeChild_of_missing hfound with ⟨⟨rest, hremove⟩, -⟩ | ⟨hremove, -⟩
    · rw [hremove]
      simp
    · rw [hremove]
      simp

/-! ### Deletion at a path -/

theorem exists_splitLast? (h : p.elems ≠ []) :
    ∃ parent last, p.splitLast? = some (parent, last) := by
  cases hsplit : p.splitLast? with
  | none => exact absurd (splitLast?_eq_none hsplit) h
  | some split => exact ⟨split.1, split.2, rfl⟩

/-- A deletion of what is there cuts it off. -/
theorem deleteAt_cut {home : Option String} {found : Node × Option String} {place : Json × Node}
    (hkeyed : s.root.Everywhere Node.KeyedAt) (h : Formed F s.root false (.obj ms)) (hF : F.keys)
    (hF' : F.lists) (hp : p.elems ≠ []) (hwalk : s.root.walk? home p.elems = some found)
    (hkey : ¬ EndsInKey s.root p.elems)
    (hlookup : lookup p.elems (.obj ms) s.root = .ok (some place)) :
    deleteAt s p ms = .ok (true, Change.cut.along p.elems s.root ms) ∧
      Formed F s.root false (.obj (Change.cut.along p.elems s.root ms)) := by
  obtain ⟨parent, last, hsplit⟩ := exists_splitLast? hp
  have helems := splitLast?_eq_some hsplit
  rw [helems] at hwalk hkey hlookup ⊢
  -- the object is well formed between the cut and the pruning as well: the pruning needs that of
  -- its input
  obtain ⟨changed, hmodify, hprune⟩ :=
    Tree.exists_modifyAt_prune drops_removeInside hkeyed h hF hF' hwalk hkey hlookup
  obtain ⟨hchanged, -⟩ := Tree.formed_drop drops_removeInside hkeyed h (fun _ => hkey) hmodify
  obtain ⟨hpruned, -⟩ := Tree.formed_prune hkeyed hchanged hprune
  exact ⟨by simp only [deleteAt_eq hsplit, hmodify, hprune], hpruned⟩

/-- **A deletion of what is there** takes it away. For the other paths to find what they found it
takes a path that selects an entry in each list, by all keys. -/
theorem deleteAt_of_lookup {home : Option String}
    {found : Node × Option String} {place : Json × Node} (hkeyed : s.root.Everywhere Node.KeyedAt)
    (h : Formed F s.root false (.obj ms)) (hF : F.keys) (hF' : F.lists) (hp : p.elems ≠ [])
    (hwalk : s.root.walk? home p.elems = some found) (hfull : SelectsEntries s.root p.elems)
    (hkey : ¬ EndsInKey s.root p.elems)
    (hlookup : lookup p.elems (.obj ms) s.root = .ok (some place)) :
    ∃ ms', deleteAt s p ms = .ok (true, ms') ∧ Cuts s.root p.elems ms ms' ∧
      Formed F s.root false (.obj ms') := by
  obtain ⟨hdelete, hleft⟩ := deleteAt_cut hkeyed h hF hF' hp hwalk hkey hlookup
  exact ⟨_, hdelete, Tree.cuts_along hkeyed h hF hp hwalk hfull hkey hlookup, hleft⟩

/-- A path ends with keys, and the node above has something else than an array under its name. The
path itself leads nowhere then. -/
def KeysElsewhere (n : Node) (tree : Json) (p : List Elem) : Prop :=
  ∃ parent last inner m w, p = parent ++ [last] ∧ last.isKeyed = true ∧
    lookup parent tree n = .ok (some (.obj inner, m)) ∧
    get? inner (localName last.name) = some w ∧ w.arr? = none

theorem keysElsewhere_iff : KeysElsewhere n (.obj ms) (parent ++ [last]) ↔ last.isKeyed = true ∧
    ∃ inner m w, lookup parent (.obj ms) n = .ok (some (.obj inner, m)) ∧
      get? inner (localName last.name) = some w ∧ w.arr? = none := by
  constructor
  · rintro ⟨parent', last', inner, m, w, heq, he, hlookup, hw⟩
    obtain ⟨rfl, hlast⟩ := List.append_inj' heq rfl
    obtain rfl := List.head_eq_of_cons_eq hlast
    exact ⟨he, inner, m, w, hlookup, hw⟩
  · rintro ⟨he, inner, m, w, hlookup, hw⟩
    exact ⟨parent, last, inner, m, w, rfl, he, hlookup, hw⟩

/-- The keys of a path that the schema knows are those of a list. -/
theorem not_keysElsewhere {home : Option String} {found : Node × Option String}
    (h : Formed F n entry (.obj ms)) (hF : F.lists)
    (hwalk : n.walk? home p.elems = some found) : ¬ KeysElsewhere n (.obj ms) p.elems := by
  rintro ⟨parent, last, inner, m, w, helems, he, hlookup, hw, hother⟩
  rw [helems] at hwalk
  obtain ⟨m', home', hm', hlast⟩ := Node.walk?_append hwalk
  obtain rfl := Option.some.inj (hm'.symm.trans (Tree.below?_of_lookup hlookup))
  obtain ⟨child, hchild, -, heq⟩ := Node.walk?_cons hlast
  obtain rfl := Option.some.inj heq
  obtain ⟨_, hinner⟩ := Tree.exists_formed_of_lookup h hlookup
  obtain ⟨xs, rfl⟩ := (hinner.member hchild hw).eq_arr hF (Tree.isList_of_walk? hwalk he)
  cases hother

/-- **A deletion of what is not there** does nothing, or is refused since the keys at the end of its
path are not those of a list. All ways in which the way down can end are covered, an unknown name on
it too. -/
theorem deleteAt_of_missing (h : Formed F s.root false (.obj ms)) (hF : F.lists)
    (hsplit : p.splitLast? = some (parent, last))
    (hmissing : ∀ place, lookup p.elems (.obj ms) s.root ≠ .ok (some place)) :
    (¬ KeysElsewhere s.root (.obj ms) p.elems → deleteAt s p ms = .ok (false, ms)) ∧
      (KeysElsewhere s.root (.obj ms) p.elems → deleteAt s p ms =
        .error (.navigation p.text (.wrongNode last.text .notKeyedList))) := by
  have helems := splitLast?_eq_some hsplit
  rw [helems] at hmissing ⊢
  rw [keysElsewhere_iff, deleteAt_eq hsplit]
  cases hmodify : Tree.modifyAt false (removeInside last) parent ms s.root with
  | error o =>
    refine ⟨fun _ => rfl, fun ⟨_, inner, m, _, hlookup, _⟩ => ?_⟩
    -- inside an object a change is always made
    obtain ⟨changed, hchanged⟩ := (Tree.exists_modifyAt_iff h hF).2 ⟨inner, m, hlookup, rfl⟩
    cases hmodify.symm.trans hchanged
  | ok result =>
    obtain ⟨out, changed⟩ := result
    -- the node above is there, so it is its last step that finds nothing
    obtain ⟨inner, m, hlookup, rfl⟩ := (Tree.exists_modifyAt_iff h hF).1 ⟨_, hmodify⟩
    obtain ⟨_, hinner⟩ := Tree.exists_formed_of_lookup h hlookup
    have hnone : found? inner last = none := by
      refine Option.eq_none_iff_forall_ne_some.2 fun v hv => ?_
      obtain ⟨below, hschema⟩ := Tree.exists_childSchema_of_found hinner hv
      refine hmissing (v, below) ?_
      rw [Tree.lookup_append, hlookup]
      exact Tree.lookup_cons_of_found hschema hv []
    rcases removeChild_of_missing hnone with ⟨⟨rest, hremove⟩, hlist⟩ | ⟨hremove, he, w, hw⟩
    · have hout : (removeInside last inner m).1 = .ok false := by rw [removeInside, hremove]
      rw [hout]
      refine ⟨fun _ => rfl, fun ⟨he, inner', m', w, hlookup', hw, hother⟩ => ?_⟩
      obtain ⟨heq, -⟩ := Prod.mk.inj (Option.some.inj (Except.ok.inj (hlookup.symm.trans hlookup')))
      obtain rfl := Json.obj.inj heq
      have harr := hlist he w hw
      rw [hother] at harr
      cases harr
    · have hout : (removeInside last inner m).1 = .error (.wrongNode last.text .notKeyedList) := by
        rw [removeInside, hremove]
      rw [hout]
      exact ⟨fun hnot => absurd ⟨he, inner, m, w, hlookup, hw⟩ hnot, fun _ => rfl⟩

end Edit

namespace Store

variable {st st' : Store} {p : Path} {now : Int64} {base : Option Path}

/-! ### Requests -/

theorem set_deletion_of_true {ms' : Object} {c : Subtree} (hp : st.poisoned = false)
    (hd : st.device = none)
    (h : Edit.deleteAt st.schema (p.under base) st.members = .ok (true, ms'))
    (hc : rederive st.schema st.reader (.obj ms') = .ok c) :
    st.set now (.deletion base p)
      = (.ok ⟨base, [⟨p, .delete⟩], now⟩, { st with tree := c.data }) := by
  have hrun : st.runEdits (SetRequest.deletion base p).edits st.members st.shown
      = (.ok ms', st.shown) := by
    change st.runEdits [.delete (p.under base)] st.members st.shown = _
    simp only [runEdits, Edit.apply, h, offer_of_none hd hc]
  exact set_of_rederive hp hrun hc

/-- A deletion that does nothing is not shown to the device. -/
theorem set_deletion_of_false (hp : st.poisoned = false)
    (h : Edit.deleteAt st.schema (p.under base) st.members = .ok (false, st.members))
    (hc : rederive st.schema st.reader (.obj st.members) = .ok (Subtree.root st.tree)) :
    st.set now (.deletion base p) = (.ok ⟨base, [⟨p, .delete⟩], now⟩, st) := by
  have hrun : st.runEdits (SetRequest.deletion base p).edits st.members st.shown
      = (.ok st.members, st.shown) := by
    change st.runEdits [.delete (p.under base)] st.members st.shown = _
    simp only [runEdits, Edit.apply, h]
  exact set_of_rederive hp hrun hc

/-- A transaction begins with a copy of a valid tree. -/
theorem Reachable.formed_members (h : Reachable st) (hfree : st.schema.ColonFree) :
    Formed .valid st.schema.root false (.obj st.members) := by
  rw [← h.tree_eq hfree]
  exact Schema.Node.formed_of_stands (h.invariant.stands hfree)

/-- **What paths find after a deletion.** In a reachable store without a device a path is deleted
that has a node in the schema, has all keys of the lists that it goes through, and does not end in a
key. This succeeds. If the path has led nowhere, nothing changes. If it has led somewhere, it leads
nowhere afterwards, nothing above it is left empty, and each path that parts from it finds what it
has found before. -/
theorem lookup_set_deletion (h : Reachable st) (hfree : st.schema.ColonFree)
    (hr : st.reader.ReadsBack) (hd : st.device = none) (now : Int64)
    (hp : (p.under base).elems ≠ []) (hresolve : (st.schema.resolve? (p.under base).elems).isSome)
    (hselects : SelectsEntries st.schema.root (p.under base).elems)
    (hkey : ¬ EndsInKey st.schema.root (p.under base).elems) :
    ∃ st', st.set now (.deletion base p) = (.ok ⟨base, [⟨p, .delete⟩], now⟩, st') ∧
      (lookup (p.under base).elems st.tree st.schema.root = .ok none → st' = st) ∧
      (lookup (p.under base).elems st.tree st.schema.root ≠ .ok none →
        lookup (p.under base).elems st'.tree st.schema.root = .ok none ∧
        (∀ above under n, (p.under base).elems = above ++ under → above ≠ [] → under ≠ [] →
          lookup above st'.tree st.schema.root ≠ .ok (some (.obj [], n))) ∧
        ∀ q, (st.schema.resolve? q).isSome → SelectsEntries st.schema.root q →
          Diverge (p.under base).elems q →
          lookup q st'.tree st.schema.root = lookup q st.tree st.schema.root) := by
  have hinv := h.invariant
  have hstands := hinv.stands hfree
  have hformed := h.formed_members hfree
  rw [h.tree_eq hfree] at hstands ⊢
  obtain ⟨n, hn⟩ := Option.isSome_iff_exists.1 hresolve
  obtain ⟨found, hwalk, -⟩ := Option.map_eq_some_iff.1 hn
  -- whether anything is deleted is told by the look-up of the path
  cases hlookup : lookup (p.under base).elems (.obj st.members) st.schema.root with
  | error e =>
    -- a path that has a node in the schema can be looked up
    obtain ⟨o, _, ho, -, -⟩ := Tree.lookup_stands hinv.loaded.keyed hwalk hstands
      (Schema.Node.Alike.of_stands hfree hstands)
    cases hlookup.symm.trans ho
  | ok o =>
    cases o with
    | none =>
      obtain ⟨parent, last, hsplit⟩ := Edit.exists_splitLast? hp
      have hdelete := (Edit.deleteAt_of_missing hformed trivial hsplit fun place hplace => by
        cases hlookup.symm.trans hplace).1 (Edit.not_keysElsewhere hformed trivial hwalk)
      exact ⟨st, set_deletion_of_false hinv.poisoned hdelete (h.rederive_members hfree hr),
        fun _ => rfl, fun hne => absurd rfl hne⟩
    | some place =>
      obtain ⟨ms', hdelete, hcuts, hleft⟩ := Edit.deleteAt_of_lookup hinv.loaded.keyed hformed
        trivial trivial hp hwalk hselects hkey hlookup
      -- what is left is valid, so it is committed as it is
      have hself := hleft.stands_self hfree
      have hc := Schema.rederive_of_stands hinv.loaded hfree hr hself
      refine ⟨_, set_deletion_of_true hinv.poisoned hd hdelete hc, fun hnone => ?_, fun _ =>
        ⟨hcuts.lookup_eq_none, fun above under m helems habove hunder => ?_,
          fun q hq hq' hdiverge => ?_⟩⟩
      · cases hnone
      · exact (helems ▸ hcuts).ne_empty habove hunder
      · obtain ⟨n', hn'⟩ := Option.isSome_iff_exists.1 hq
        obtain ⟨found', hwalk', -⟩ := Option.map_eq_some_iff.1 hn'
        exact hcuts.lookup_of_diverge hwalk' hq' hdiverge

/-! ### A server that is deleted -/

/-- The path of the server at a port. -/
def serverAt (port : String) : Path := Path.ofElems [Elem.ofKeys "server" [("port", port)]]

/-- The server leaves its place to the other one, which is found as before. -/
theorem lookup_oldServer : ∃ st', grownStore.set 0 (.deletion none (serverAt "80"))
      = (.ok ⟨none, [⟨serverAt "80", .delete⟩], 0⟩, st') ∧
    lookup (serverAt "80").elems st'.tree serverSchema.root = .ok none ∧
    lookup newPort st'.tree serverSchema.root
      = .ok (some (.num (.ofUInt64 8080), .leaf none (.uint 16))) := by
  have hselects : SelectsEntries serverSchema.root (serverAt "80").elems :=
    selectsEntries_server_cons trivial
  have hkey : ¬ EndsInKey serverSchema.root (serverAt "80").elems :=
    Tree.not_endsInKey_singleton rfl
  have hdiverge : Diverge (serverAt "80").elems newPort :=
    .here (.inr ⟨rfl, "port", "80", "8080", rfl, rfl, by decide⟩)
  have hp : ((serverAt "80").under none).elems ≠ [] := List.cons_ne_nil _ []
  obtain ⟨st', hset, -, hdeleted⟩ := lookup_set_deletion reachable_grownStore
    colonFree_serverSchema Json.Reader.readsBack_nearest rfl 0 hp rfl hselects hkey
  obtain ⟨hgone, -, hothers⟩ := hdeleted fun hnone => by cases hnone
  exact ⟨st', hset, hgone, hothers newPort rfl (selectsEntries_server _ _) hdiverge⟩

/-! ### Deletions of what is not there -/

/-- **A deletion of what is not there.** In a reachable store, with a device or without one, a path
is deleted at which nothing is found, or which the schema does not know. The store is as before, and
the device is shown nothing. The deletion succeeds, unless the path ends with keys at a node that is
there and is no array: then it fails, since the keys are not those of a list. -/
theorem set_deletion_missing (h : Reachable st) (hfree : st.schema.ColonFree)
    (hr : st.reader.ReadsBack) (now : Int64) (hp : (p.under base).elems ≠ [])
    (hmissing : ∀ place, lookup (p.under base).elems st.tree st.schema.root ≠ .ok (some place)) :
    (¬ Edit.KeysElsewhere st.schema.root st.tree (p.under base).elems →
      st.set now (.deletion base p) = (.ok ⟨base, [⟨p, .delete⟩], now⟩, st)) ∧
    (Edit.KeysElsewhere st.schema.root st.tree (p.under base).elems →
      ∃ last, (p.under base).elems.getLast? = some last ∧ st.set now (.deletion base p) =
        (.error (.navigation (p.under base).text (.wrongNode last.text .notKeyedList)), st)) := by
  have hinv := h.invariant
  have hread := h.rederive_members hfree hr
  rw [h.tree_eq hfree] at hmissing ⊢
  obtain ⟨parent, last, hsplit⟩ := Edit.exists_splitLast? hp
  obtain ⟨hnone, herror⟩ :=
    Edit.deleteAt_of_missing (h.formed_members hfree) trivial hsplit hmissing
  -- nothing is removed in the first case, so the tree is read back as it was; in the second the
  -- removal stops the request
  refine ⟨fun hnot => set_deletion_of_false hinv.poisoned (hnone hnot) hread, fun helse => ?_⟩
  have hlast : (p.under base).elems.getLast? = some last := by
    rw [Edit.splitLast?_eq_some hsplit, List.getLast?_concat]
  have hrun : st.runEdits (SetRequest.deletion base p).edits st.members st.shown =
      (.error (.navigation (p.under base).text (.wrongNode last.text .notKeyedList)),
        st.shown) := by
    change st.runEdits [.delete (p.under base)] st.members st.shown = _
    simp only [runEdits, Edit.apply, herror helse]
  exact ⟨last, hlast, set_of_runEdits_error hinv.poisoned hrun⟩

/-- The path of the host's name, with keys that only a server has. -/
def keyedHost : Path := Path.ofElems [Elem.ofKeys "host" [("port", "80")]]

/-- Deleting a server that there is not does nothing. Deleting the host's name as if it were one of
several servers is refused, though the schema does not know such a path either. -/
theorem set_missingServer :
    (serverStore none []).set 0 (.deletion none (serverAt "443"))
      = (.ok ⟨none, [⟨serverAt "443", .delete⟩], 0⟩, serverStore none []) ∧
    (serverStore none []).set 0 (.deletion none keyedHost) =
      (.error (.navigation "/host[port=80]" (.wrongNode "host[port=80]" .notKeyedList)),
        serverStore none []) := by
  constructor
  · have hp : ((serverAt "443").under none).elems ≠ [] := List.cons_ne_nil _ []
    refine (set_deletion_missing reachable_serverStore colonFree_serverSchema
      Json.Reader.readsBack_nearest 0 hp fun place hplace => ?_).1 ?_
    · cases hplace
    · rintro ⟨parent, last, inner, m, w, helems, -, hlookup, hw, hother⟩
      change [] ++ [Elem.ofKeys "server" [("port", "443")]] = parent ++ [last] at helems
      obtain ⟨rfl, hlast⟩ := List.append_inj' helems rfl
      obtain rfl := List.head_eq_of_cons_eq hlast
      obtain ⟨heq, -⟩ := Prod.mk.inj (Option.some.inj (Except.ok.inj hlookup))
      obtain rfl := Json.obj.inj heq
      obtain rfl := Option.some.inj hw
      cases hother
  · have hp : (keyedHost.under none).elems ≠ [] := List.cons_ne_nil _ []
    obtain ⟨last, hlast, hset⟩ := (set_deletion_missing reachable_serverStore
      colonFree_serverSchema Json.Reader.readsBack_nearest 0 hp fun place hplace => by
        cases hplace).2 ⟨[], _, _, _, _, rfl, rfl, rfl, rfl, rfl⟩
    obtain rfl := Option.some.inj hlast
    exact hset

end Store

end ConfigTree
