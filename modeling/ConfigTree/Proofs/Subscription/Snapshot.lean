import ConfigTree.Subscription.Once
import ConfigTree.Proofs.Store.Replace
import ConfigTree.Proofs.Tree.Matching

/-!
# What a subscription reports

A subscription that is served once reports the leaves at or below the nodes that its paths match,
each with the value that a get of its path answers.

* `Store.Reports`: the updates for one path.
* `Store.leafUpdates_of_matched`, `Store.leafUpdates_of_not_matched`: a path that matches some node
  has such updates, and for one that does not the store says so.
* `Subscription.produce_snapshot`: the producer queues the updates of all paths as one notification,
  or reports the first path that matches no node.

No other error is possible: what is in the committed tree of a reachable store is valid, so each
leaf has a typed value, and the place that is made up for it leads back to it.
-/

namespace ConfigTree

open ConfigTree.Path (Elem)
open ConfigTree.Tree (Finds Located Matches LeafIn MatchIn Lists lookup)
open Schema (Node)
open Schema.Node (Valid)

/-- Valid scalars have a typed value. -/
theorem Schema.Node.Valid.exists_ofHeld {n : Node} {entry : Bool} {c : Json} {kind : ScalarKind}
    (h : Valid n entry c) (hkind : n.scalar? = some kind) (place : String) :
    ∃ value, TypedValue.ofHeld place kind c = .ok value := by
  cases h with
  | leaf fits =>
    obtain rfl := Option.some.inj hkind
    exact ConfigTree.exists_ofHeld fits place
  | leafList fits =>
    obtain rfl := Option.some.inj hkind
    exact exists_ofHeld_arr fits place
  | object shape =>
    have hleaf := Tree.isLeaf_eq_false shape.1
    rw [Node.isLeaf, hkind] at hleaf
    cases hleaf
  | list => cases hkind

namespace Store

variable {st : Store} {p : Path}

/-! ### The updates for one path -/

/-- A path matches some node of the tree, be it a leaf or not. -/
def Matched (st : Store) (p : Path) : Prop :=
  ∃ path n held, MatchIn p.elems st.schema.root st.tree path n held

/-- Updates report what a path matches. Their paths are the places of just those leaves that are at
or below a node that the path matches, each once. Their values are what a get of their paths answers
in each encoding. What they are is fixed by this but for their order. -/
structure Reports (st : Store) (p : Path) (updates : List Update) : Prop where
  places : (updates.map fun u => u.path).Nodup
  mem : ∀ path, path ∈ updates.map (fun u => u.path) ↔ path.origin = none ∧
    (∃ leaf held, leaf.isLeaf = true ∧
      Finds st.schema.root st.tree path.elems leaf held) ∧
    ∃ front rest, path.elems = front ++ rest ∧ Matches p.elems front
  values : ∀ u ∈ updates, ∀ encoding ∈ encodings, ∀ now,
    st.get now ⟨none, [u.path], .all, encoding, []⟩ = .ok ⟨[⟨now, none, [u], []⟩]⟩

/-- The update for a leaf has the value that a get answers. -/
theorem exists_leafUpdate {path : List Elem} {leaf : Node} {held : Json}
    (hvalid : st.schema.root.Valid false st.tree) (hnames : st.schema.NamesFree)
    (hs : st.schema.Loaded) (hp : st.poisoned = false)
    (h : LeafIn st.schema.root st.tree path leaf held) :
    ∃ value, leafUpdate ⟨path, held, leaf⟩ = .ok ⟨Path.ofElems path, value⟩ ∧
      ∀ encoding ∈ encodings, ∀ now,
        st.get now ⟨none, [Path.ofElems path], .all, encoding, []⟩
          = .ok ⟨[⟨now, none, [⟨Path.ofElems path, value⟩], []⟩]⟩ := by
  obtain ⟨hfinds, hleaf⟩ := h
  obtain ⟨children, hroot⟩ := hs.hasMembers
  obtain ⟨entry, hheld, -⟩ := hfinds.valid hnames hs.keyed hvalid hroot.2
  obtain ⟨kind, hkind⟩ := Option.isSome_iff_exists.1 hleaf
  obtain ⟨value, hvalue⟩ := hheld.exists_ofHeld hkind (Path.ofElems path).text
  have hanswer : leafValue (Path.ofElems path) kind held = .ok value := by
    rw [leafValue, hvalue]
    rfl
  refine ⟨value, ?_, fun encoding hencoding now => ?_⟩
  · unfold leafUpdate
    simp only [hkind, hanswer]
    rfl
  -- a get of the place looks it up, and finds the leaf
  · have hbase : (Path.ofElems path).under none = Path.ofElems path := rfl
    refine get_of_valueAt (List.contains_iff_mem.2 hencoding) ?_ hp now
    have hlookup : lookup (Path.ofElems path).elems st.tree st.schema.root
        = .ok (some (held, leaf)) := hfinds.2
    rw [hbase, valueAt, hlookup]
    simp only [hkind, hanswer]

/-- What the leaves at and below the nodes that a path matches are listed as. The nodes that a path
matches have different places, none of them below another, so no leaf is listed twice. -/
theorem exists_listing (hvalid : st.schema.root.Valid false st.tree)
    (hnames : st.schema.NamesFree) (hs : st.schema.Loaded)
    (hresolve : (st.schema.resolve? p.elems).isSome) :
    ∃ found, Tree.matching p.elems st.tree st.schema.root = .ok found ∧
      Lists (MatchIn p.elems st.schema.root st.tree) found ∧
      Lists (fun path m v => LeafIn st.schema.root st.tree path m v ∧
          ∃ front rest, path = front ++ rest ∧ Matches p.elems front)
        (found.flatMap fun node => Tree.leaves node.path node.schema node.value) := by
  obtain ⟨n, hn⟩ := Option.isSome_iff_exists.1 hresolve
  obtain ⟨target, hwalk, -⟩ := Option.map_eq_some_iff.1 hn
  obtain ⟨children, hroot⟩ := hs.hasMembers
  exact Tree.lists_leaves_matching hnames hs.keyed hwalk hvalid hroot.2

/-- **The leaves that a path matches have updates that report them.** The updates are made one by
one from the listing, so the two have the same places in the same order. -/
theorem exists_reports (hvalid : st.schema.root.Valid false st.tree)
    (hnames : st.schema.NamesFree) (hs : st.schema.Loaded) (hp : st.poisoned = false)
    {leaves : List Located} (hleaves : Lists (fun path m v =>
      LeafIn st.schema.root st.tree path m v ∧
        ∃ front rest, path = front ++ rest ∧ Matches p.elems front) leaves) :
    ∃ updates, leaves.mapM leafUpdate = .ok updates ∧ Reports st p updates := by
  -- each leaf has an update, with the path of the leaf
  have hupdate : ∀ l ∈ leaves, ∃ u : Update, leafUpdate l = .ok u ∧ u.path = Path.ofElems l.path ∧
      ∀ encoding ∈ encodings, ∀ now,
        st.get now ⟨none, [u.path], .all, encoding, []⟩ = .ok ⟨[⟨now, none, [u], []⟩]⟩ := by
    intro l hl
    obtain ⟨value, hupdate, hget⟩ :=
      exists_leafUpdate hvalid hnames hs hp ((hleaves.mem l).1 hl).1
    exact ⟨_, hupdate, rfl, hget⟩
  obtain ⟨updates, hupdates⟩ := exists_forall₂ hupdate
  have hpaths : updates.map (fun u => u.path) = leaves.map fun l => Path.ofElems l.path := by
    rw [← List.forall₂_eq_eq_eq, List.forall₂_map_left_iff, List.forall₂_map_right_iff]
    exact hupdates.flip.imp fun _ _ h => h.2.1
  refine ⟨updates, mapM_eq_ok_iff.2 (hupdates.imp fun _ _ h => h.1), ?_, fun path => ?_,
    fun u hu => ?_⟩
  -- the places of the leaves are different, and so are the paths of the updates
  · rw [hpaths]
    refine List.pairwise_map.2 (hleaves.places.imp fun hne heq => hne ?_)
    exact (Path.mk.inj heq).2
  · rw [hpaths, List.mem_map]
    constructor
    · rintro ⟨l, hl, rfl⟩
      obtain ⟨⟨hfinds, hleaf⟩, hfront⟩ := (hleaves.mem l).1 hl
      exact ⟨rfl, ⟨_, _, hleaf, hfinds⟩, hfront⟩
    · rintro ⟨horigin, ⟨leaf, held, hleaf, hfinds⟩, hfront⟩
      refine ⟨⟨path.elems, held, leaf⟩, (hleaves.mem _).2 ⟨⟨hfinds, hleaf⟩, hfront⟩, ?_⟩
      obtain ⟨origin, elems⟩ := path
      obtain rfl : origin = none := horigin
      rfl
  · obtain ⟨l, -, -, -, hget⟩ := exists_mem_of_forall₂ hupdates hu
    exact hget

/-- **A path that matches some node has the updates that report what it matches.** -/
theorem leafUpdates_of_matched (hvalid : st.schema.root.Valid false st.tree)
    (hnames : st.schema.NamesFree) (hs : st.schema.Loaded) (hp : st.poisoned = false)
    (hresolve : (st.schema.resolve? p.elems).isSome) (h : st.Matched p) :
    ∃ updates, st.leafUpdates p = .ok updates ∧ Reports st p updates := by
  obtain ⟨found, hfound, hmatches, hleaves⟩ := exists_listing hvalid hnames hs hresolve
  -- something is matched, so the listing is not empty and the branch that reports a missing path is
  -- not taken
  have hne : found ≠ [] := by
    obtain ⟨path, n, held, hmatch⟩ := h
    exact List.ne_nil_of_mem ((hmatches.mem ⟨path, held, n⟩).2 hmatch)
  obtain ⟨updates, hall, hreports⟩ := exists_reports hvalid hnames hs hp hleaves
  refine ⟨updates, ?_, hreports⟩
  unfold leafUpdates
  rw [hfound]
  cases found with
  | nil => exact absurd rfl hne
  | cons node found => exact hall

/-- A path that matches no node is not found. -/
theorem leafUpdates_of_not_matched (hvalid : st.schema.root.Valid false st.tree)
    (hnames : st.schema.NamesFree) (hs : st.schema.Loaded)
    (hresolve : (st.schema.resolve? p.elems).isSome) (h : ¬ st.Matched p) :
    st.leafUpdates p = .error (.pathNotFound p.text) := by
  obtain ⟨found, hfound, hmatches, -⟩ := exists_listing hvalid hnames hs hresolve
  unfold leafUpdates
  rw [hfound]
  cases found with
  | nil => rfl
  | cons node found =>
    exact absurd ⟨_, _, _, (hmatches.mem node).1 List.mem_cons_self⟩ h

end Store

namespace Subscription

open Store (Reachable Matched Reports)
open Pipeline (produce?)

variable {st : Store} {l : SubscriptionList}

/-! ### What a snapshot has -/

theorem snapshot_eq (hp : st.poisoned = false) (now : Int64) : snapshot st now l =
    match l.subscriptions.mapM fun sub => st.leafUpdates (sub.path.under l.base) with
    | .ok groups => .ok ⟨now, none, groups.flatten, []⟩
    | .error e => .error (.store e) := by
  rw [snapshot, hp]
  rfl

section

variable (h : Reachable st) (hnames : st.schema.NamesFree)
  (hresolve : ∀ sub ∈ l.subscriptions, (st.schema.resolve? (sub.path.under l.base).elems).isSome)

include h hnames hresolve

/-- If each path matches some node, a snapshot has the updates for all paths in turn. -/
theorem snapshot_of_matched (hall : ∀ sub ∈ l.subscriptions, st.Matched (sub.path.under l.base))
    (now : Int64) : ∃ groups, List.Forall₂ (fun sub => Reports st (sub.path.under l.base))
        l.subscriptions groups ∧ snapshot st now l = .ok ⟨now, none, groups.flatten, []⟩ := by
  have hinv := h.invariant
  obtain ⟨groups, hgroups⟩ := exists_forall₂ fun sub hsub =>
    Store.leafUpdates_of_matched h.valid hnames hinv.loaded hinv.poisoned (hresolve sub hsub)
      (hall sub hsub)
  have hmap := mapM_eq_ok_iff.2 (hgroups.imp fun _ _ h => h.1)
  refine ⟨groups, hgroups.imp fun _ _ h => h.2, ?_⟩
  rw [snapshot_eq hinv.poisoned, hmap]

/-- If some path matches no node, there is no snapshot. The first such path is reported. -/
theorem snapshot_of_missing (hsome : ∃ sub ∈ l.subscriptions, ¬ st.Matched (sub.path.under l.base))
    (now : Int64) : ∃ front sub rest, l.subscriptions = front ++ sub :: rest ∧
      (∀ before ∈ front, st.Matched (before.path.under l.base)) ∧
      ¬ st.Matched (sub.path.under l.base) ∧
      snapshot st now l
        = .error (.store (.pathNotFound (sub.path.under l.base).text)) := by
  have hinv := h.invariant
  -- the only error that a path can have is that it matches nothing
  have hmissing : ∀ sub ∈ l.subscriptions, ¬ st.Matched (sub.path.under l.base) →
      st.leafUpdates (sub.path.under l.base)
        = .error (.pathNotFound (sub.path.under l.base).text) := fun sub hsub =>
    Store.leafUpdates_of_not_matched h.valid hnames hinv.loaded (hresolve sub hsub)
  -- a path that has updates matches, and one that has none does not
  have hmatched : ∀ sub ∈ l.subscriptions, ∀ updates,
      st.leafUpdates (sub.path.under l.base) = .ok updates →
        st.Matched (sub.path.under l.base) := by
    intro sub hsub updates hupdates
    refine Classical.byContradiction fun hnot => ?_
    cases hupdates.symm.trans (hmissing sub hsub hnot)
  have hnone : ∀ sub ∈ l.subscriptions, ∀ e,
      st.leafUpdates (sub.path.under l.base) = .error e →
        ¬ st.Matched (sub.path.under l.base) := by
    intro sub hsub e herror hfound
    obtain ⟨updates, hupdates, -⟩ := Store.leafUpdates_of_matched h.valid hnames hinv.loaded
      hinv.poisoned (hresolve sub hsub) hfound
    cases hupdates.symm.trans herror
  -- the updates are made path by path, and the first path without any ends it
  obtain ⟨sub, hsub, hnot⟩ := hsome
  cases hall : l.subscriptions.mapM fun sub => st.leafUpdates (sub.path.under l.base) with
  | ok groups =>
    obtain ⟨updates, -, hupdates⟩ := exists_mem_right_of_forall₂ (mapM_eq_ok_iff.1 hall) hsub
    exact absurd (hmatched sub hsub updates hupdates) hnot
  | error e =>
    -- the paths before the first error have updates
    obtain ⟨front, first, rest, hsplit, hfront, hfirst⟩ := mapM_eq_error_iff.1 hall
    have hmem : first ∈ l.subscriptions := by
      rw [hsplit]
      exact List.mem_append_right _ List.mem_cons_self
    have hbefore : ∀ before ∈ front, before ∈ l.subscriptions := by
      intro before hbefore
      rw [hsplit]
      exact List.mem_append_left _ hbefore
    have hnot := hnone first hmem e hfirst
    obtain rfl := Except.error.inj (hfirst.symm.trans (hmissing first hmem hnot))
    refine ⟨front, first, rest, hsplit, fun before hin => ?_, hnot, ?_⟩
    · obtain ⟨updates, hupdates⟩ := hfront before hin
      exact hmatched before (hbefore before hin) updates hupdates
    · rw [snapshot_eq hinv.poisoned, hall]

end

/-! ### What the producer queues -/

/-- **What a subscription reports.** The store is reachable and the schema has all paths of the
subscription, and the producer is about to read the tree. If some path matches no node, the producer
reports the first one that does not and queues nothing. Else it queues one notification, which has
for each path in turn the updates that report what the path matches. This is one step of the
pipeline; what becomes of it is the matter of its safety. -/
theorem produce_snapshot (h : Reachable st) (hnames : st.schema.NamesFree)
    (hresolve : ∀ sub ∈ l.subscriptions,
      (st.schema.resolve? (sub.path.under l.base).elems).isSome)
    {p : Pipeline.State} (hreads : p.producer = .reads) (now : Int64) (timeout : Nat) :
    ((∃ sub ∈ l.subscriptions, ¬ st.Matched (sub.path.under l.base)) →
      ∃ front sub rest p', l.subscriptions = front ++ sub :: rest ∧
        (∀ before ∈ front, st.Matched (before.path.under l.base)) ∧
        ¬ st.Matched (sub.path.under l.base) ∧
        produce? ⟨l.updatesOnly, snapshot st now l, timeout⟩ p = some p' ∧
        p' = { p.report (.error (.store (.pathNotFound (sub.path.under l.base).text))) with
          producer := .closes } ∧ p'.queue = p.queue) ∧
    ((∀ sub ∈ l.subscriptions, st.Matched (sub.path.under l.base)) →
      ∃ groups, List.Forall₂ (fun sub => Reports st (sub.path.under l.base)) l.subscriptions
          groups ∧
        produce? ⟨l.updatesOnly, snapshot st now l, timeout⟩ p
          = some (p.enqueue (.update ⟨now, none, groups.flatten, []⟩) .marks)) := by
  -- the snapshot is taken before anything is queued, so a missing path leaves the queue untouched
  constructor
  · intro hsome
    obtain ⟨front, sub, rest, hsplit, hfront, hnot, hsnapshot⟩ :=
      snapshot_of_missing h hnames hresolve hsome now
    refine ⟨front, sub, rest, _, hsplit, hfront, hnot, ?_, rfl, ?_⟩
    · rw [produce?, hreads]
      simp only [hsnapshot]
    · unfold Pipeline.State.report
      split <;> rfl
  · intro hall
    obtain ⟨groups, hgroups, hsnapshot⟩ := snapshot_of_matched h hnames hresolve hall now
    refine ⟨groups, hgroups, ?_⟩
    rw [produce?, hreads]
    simp only [hsnapshot]

/-- Where the queue is read, it tells which notification has been queued. -/
theorem eq_of_enqueue {p : Pipeline.State} {next : Pipeline.Producer} {n n' : Notification}
    (hopen : p.consumer.isOpen = true)
    (h : p.enqueue (.update n) next = p.enqueue (.update n') next) : n = n' := by
  have hqueue := congrArg Pipeline.State.queue h
  rw [Pipeline.State.enqueue, Pipeline.State.enqueue, if_pos hopen, if_pos hopen] at hqueue
  exact SubscribeResponse.update.inj (List.head_eq_of_cons_eq (List.append_cancel_left hqueue))

/-! ### The ports of all servers -/

/-- The ports of all servers, as a list without keys names them. -/
def allPorts : Path := Path.ofElems [Elem.plain "server", Elem.plain "port"]

/-- The port of the one server that there is. -/
def onePort : Path := Path.ofElems [Elem.ofKeys "server" [("port", "80")], Elem.plain "port"]

/-- A subscription to the ports of all servers. -/
def portsList : SubscriptionList where
  base := none
  subscriptions := [⟨allPorts, .targetDefined, 0⟩]
  mode := .once
  allowAggregation := false
  models := []
  encoding := .json
  updatesOnly := false

theorem matched_allPorts : (Store.serverStore none []).Matched allPorts := by
  refine ⟨onePort.elems, .leaf none (.uint 16), .num (.ofUInt64 80), ⟨?_, rfl⟩, ?_⟩
  · refine ⟨rfl, _, rfl, fun key => ?_, rfl, _, rfl, fun key => ?_, trivial⟩
    · change (Members.get? [("port", "80")] key).isSome ↔ key ∈ ["port"]
      rw [Members.get?_cons, List.mem_singleton]
      by_cases hkey : "port" = key
      · simp [hkey]
      · simp [hkey, Ne.symm hkey]
    · exact iff_of_false Bool.false_ne_true List.not_mem_nil
  · exact .cons ⟨rfl, fun _ h => by cases h⟩ (.cons ⟨rfl, fun _ h => by cases h⟩ .nil)

/-- What there is to do for it. -/
def portsJob : Job :=
  ⟨portsList.updatesOnly, snapshot (Store.serverStore none []) 7 portsList, defaultTimeout⟩

/-- The port of the one server is what is queued. -/
theorem produce_allPorts : ∃ updates, Reports (Store.serverStore none []) allPorts updates ∧
    updates = [⟨onePort, .uint 80⟩] ∧
    produce? portsJob (Pipeline.start portsJob true)
      = some ((Pipeline.start portsJob true).enqueue (.update ⟨7, none, updates, []⟩) .marks) := by
  have hresolve : ∀ sub ∈ portsList.subscriptions,
      ((Store.serverStore none []).schema.resolve?
        (sub.path.under portsList.base).elems).isSome := by
    intro sub hsub
    obtain rfl := List.mem_singleton.1 hsub
    rfl
  have hnames : (Store.serverStore none []).schema.NamesFree := by decide
  have hreads : (Pipeline.start portsJob true).producer = .reads := rfl
  obtain ⟨groups, hgroups, hproduce⟩ :=
    (produce_snapshot Store.reachable_serverStore hnames hresolve hreads 7 defaultTimeout).2
      fun sub hsub => by
        obtain rfl := List.mem_singleton.1 hsub
        exact matched_allPorts
  obtain ⟨updates, _, hreports, hrest, rfl⟩ := List.forall₂_cons_left_iff.1 hgroups
  obtain rfl := List.forall₂_nil_left_iff.1 hrest
  -- the one group is what the snapshot has
  have hqueued : (Pipeline.start portsJob true).enqueue
      (.update ⟨7, none, [⟨onePort, .uint 80⟩], []⟩) .marks
      = (Pipeline.start portsJob true).enqueue (.update ⟨7, none, [updates].flatten, []⟩) .marks :=
    Option.some.inj hproduce
  have hupdates := congrArg Notification.updates (eq_of_enqueue rfl hqueued)
  rw [List.flatten_singleton] at hupdates
  refine ⟨updates, hreports, hupdates.symm, ?_⟩
  rw [List.flatten_singleton] at hproduce
  exact hproduce

end Subscription

end ConfigTree
