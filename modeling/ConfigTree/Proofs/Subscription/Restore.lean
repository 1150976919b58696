import ConfigTree.Proofs.Store.WriteBack
import ConfigTree.Proofs.Subscription.Snapshot
import ConfigTree.Proofs.Tree.Rebuild

/-!
# Restoring a store

The updates that a subscription to the root reports can be sent to an empty store of the same schema
as one request. Each of them writes one leaf, and after each of them the whole tree is checked. So
on the way every tree has to stand for a document, which is what has been built of the snapshot so
far.

* `Restored.write`: the update for a leaf succeeds, and its tree stands for what has been built.
* `settle_of_builds`: so do the updates for all leaves, one after the other.
* `Subscription.set_of_snapshot`: the request leaves the tree of the snapshot, without the
  containers and lists that hold no leaf.
* `Subscription.snapshot_trim`: a snapshot of that tree is the same again.

No reader has to read back floats for this, since there are none in the trees of a schema without
decimals.
-/

namespace ConfigTree

open ConfigTree.Path (Elem)
open ConfigTree.Tree (Object Located Builds Grafts)
open Schema (Node DecimalFreeAt)
open Schema.Node (Alike Stands)

variable {s : Schema} {r : Json.Reader} {n m : Node} {name place : String} {ms cs cs' : Object}
  {v : Json} {path : List Elem} {ls : List Located} {us : List Update} {u : Update} {p : Path}

/-- **Without decimals any reader reads back what has been checked.** -/
theorem Schema.Node.Stands.readBy {entry : Bool} {w c : Json}
    (hdecimal : n.Everywhere DecimalFreeAt) (h : Stands n entry w c) : c.ReadBy r := by
  induction h with
  | @leaf home kind entry w c held fits =>
    exact readBy_of_isOfKind r (fun heq => hdecimal.here (congrArg some heq)) fits
  | @leafList home kind entry ws cs held fits =>
    refine Json.readByList_iff.2 fun c hc => ?_
    exact readBy_of_isOfKind r (fun heq => hdecimal.here (congrArg some heq)) (fits c hc)
  -- a member of what is stored has its counterpart in what is written, and a child of the schema
  -- with it
  | object shape sorted sorted' names known members ih =>
    refine Json.readByMembers_iff.2 fun o ho => ?_
    have hget := Members.get?_of_mem sorted' ho
    obtain ⟨w, hw⟩ := names.symm.exists_right hget
    obtain ⟨child, hchild⟩ := Option.isSome_iff_exists.1 (known o.1 w hw)
    exact ih o.1 child w o.2 hchild hw hget (hdecimal.child shape.1 hchild)
  | list length entries keyed distinct ih =>
    refine Json.readByList_iff.2 fun c hc => ?_
    obtain ⟨i, hi⟩ := List.getElem?_of_mem hc
    obtain ⟨w, hw⟩ := exists_getElem?_of_length length.symm hi
    exact ih i w c hw hi hdecimal

namespace Edit

/-! ### The update for a leaf -/

/-- What stands for itself at a leaf is no object, so it is put in place of what was there. -/
theorem putMember_of_isLeaf {entry : Bool} {mode : WriteMode} (hleaf : m.isLeaf = true)
    (h : Stands m entry v v) : putMember mode name v ms = Members.insert ms name v := by
  cases v with
  | obj members =>
    cases h with
    | leaf held fits => cases isScalar_of_coerce? held
    | object shape =>
      rw [Tree.isLeaf_eq_false shape.1] at hleaf
      cases hleaf
  | _ => cases mode <;> rfl

theorem putInside_of_isLeaf {mode : WriteMode} (hlocal : localName name = name)
    (hleaf : m.isLeaf = true) (h : Stands m false v v) (ms : Object) (n : Node) :
    putInside mode (Elem.plain name) place v ms n = (.ok (), Members.insert ms name v) := by
  have hput : putChild mode (Elem.plain name) place v ms n = .ok (Members.insert ms name v) := by
    rw [putChild, Elem.plain, hlocal, putMember_of_isLeaf hleaf h]
    rfl
  rw [putInside, hput]

/-- The value that a snapshot has for a leaf is the data of the leaf. The reader is not asked to
read back floats, because the leaf holds none. -/
theorem dataAt_of_isLeaf {home : Option String} {kind : ScalarKind} {value : TypedValue}
    (hs : s.Loaded) (hfree : s.ColonFree) (hdecimal : s.DecimalFree)
    (hnode : s.nodeAt p.elems = .ok (m, home)) (hentry : Subtree.isEntryPlace p.elems = false)
    (h : Stands m false v v) (hkind : m.scalar? = some kind)
    (hvalue : TypedValue.ofHeld place kind v = .ok value) : dataAt s r p value = .ok v := by
  have hbelow := Node.below?_of_walk? (walk?_of_nodeAt hnode)
  have hmdecimal : m.Everywhere DecimalFreeAt := hdecimal.below? hbelow
  have hne : kind ≠ .decimal := fun heq => hmdecimal.here (hkind.trans (congrArg some heq))
  -- the typed value gives back what is held, and the text of it is parsed to the same; a decimal
  -- would come back as the float nearest to it
  have htext : payload m p.text value = .ok v.bytes := by
    simp only [payload, Node.isLeaf, hkind, Option.isSome_some, if_true,
      Store.toHeld_of_stands hkind hne h hvalue]
  have hparse : Json.parseBytes? r v.bytes = some v := by
    rw [(h.readBy hmdecimal).parseBytes?_bytes, Json.normalize_of_normal h.normal]
    exact ⟨Schema.depth_le_maxDepth hs hbelow h, rfl⟩
  refine dataAt_of_payload hnode htext hparse ?_ ?_
  · rw [hentry]
    exact h.conform (hfree.below? hbelow) _
  · rw [hentry]
    exact h.validate _

end Edit

namespace Store

/-- A tree that is being restored stands for the members that have been built, and a reader reads it
back. It is alike to itself so that the next update can be followed in it. -/
structure Restored (s : Schema) (r : Json.Reader) (ms cs : Object) : Prop where
  stands : s.root.Stands false (.obj ms) (.obj cs)
  alike : Alike s.root (.obj ms) (.obj ms)
  readBy : (Json.obj ms).ReadBy r

theorem Restored.rederive (h : Restored s r ms cs) (hs : s.Loaded) (hfree : s.ColonFree) :
    rederive s r (.obj ms) = .ok (Subtree.root (.obj cs)) :=
  Schema.rederive_of_readBy hs hfree h.readBy h.stands

theorem exists_of_leafUpdate (h : leafUpdate ⟨path, v, m⟩ = .ok u) :
    u.path = Path.ofElems path ∧ ∃ kind, m.scalar? = some kind ∧
      TypedValue.ofHeld (Path.ofElems path).text kind v = .ok u.value := by
  unfold leafUpdate at h
  cases hkind : m.scalar? with
  | none => simp [hkind] at h
  | some kind =>
    simp only [hkind] at h
    obtain ⟨value, hvalue, rfl⟩ := map_eq_ok_iff.1 h
    exact ⟨rfl, kind, rfl, mapError_eq_ok_iff.1 hvalue⟩

/-- Putting a leaf where it is in what has been built leaves a tree that is restored so far. All
three parts are kept for the next leaf. -/
theorem Restored.put (h : Restored s r ms cs) (hs : s.Loaded) (hfree : s.ColonFree)
    (hdecimal : s.DecimalFree) (hleaf : m.isLeaf = true) (hfits : Stands m false v v)
    (hgrafts : Grafts m v s.root p.elems cs cs') :
    ∃ ms', Edit.putAt s .update p v ms = .ok ms' ∧ Restored s r ms' cs' := by
  obtain ⟨home, hwalk⟩ := hgrafts.walk? s.root.home
  have htarget : s.root.below? p.elems = some m := Node.below?_of_walk? hwalk
  obtain ⟨parent, name, hparent, hlocal⟩ := hgrafts.exists_parent
  have hsplit : p.splitLast? = some (parent, Elem.plain name) := by
    rw [Path.splitLast?, hparent, List.getLast?_concat, List.dropLast_concat]
    rfl
  have hinside : ∀ ms n, Edit.putInside .update (Elem.plain name) p.text v ms n
      = (.ok (), Members.insert ms name v) := Edit.putInside_of_isLeaf hlocal hleaf hfits
  -- the tree is written as the document is, so it stands for what has been built with the leaf
  obtain ⟨ms', hmodify, hstands⟩ := (hparent ▸ hgrafts).stands hinside hfits hs.keyed hfree
    h.stands (h.alike.stands hfree h.stands).2
  have hput : Edit.putAt s .update p v ms = .ok ms' := by
    rw [Edit.putAt_eq hsplit, hmodify]
  have halike : Alike s.root (.obj ms') (.obj ms') :=
    Edit.alike_of_putAt h.alike hgrafts.addresses htarget
      (Alike.of_stands (hfree.below? htarget) hfits) hput
  -- no number has come in that a reader rounds
  have hread : (Json.obj ms').ReadBy r := by
    refine Tree.modifyAt_readBy hdecimal (fun ms n hms => ?_) h.readBy hmodify
    rw [hinside]
    exact Tree.readBy_insert hms (hfits.readBy (hdecimal.below? htarget))
  exact ⟨ms', hput, hstands, halike, hread⟩

/-- **The update for a leaf succeeds**, and leaves a tree that stands for what has been built. -/
theorem Restored.write (h : Restored s r ms cs) (hs : s.Loaded) (hfree : s.ColonFree)
    (hdecimal : s.DecimalFree) (hleaf : m.isLeaf = true) (hfits : Stands m false v v)
    (hgrafts : Grafts m v s.root path cs cs') (hu : leafUpdate ⟨path, v, m⟩ = .ok u) :
    ∃ ms', Edit.writeAt s r .update (u.path.under none) u.value ms = .ok ms' ∧
      Restored s r ms' cs' := by
  obtain ⟨hpath, kind, hkind, hvalue⟩ := exists_of_leafUpdate hu
  obtain rfl : (u.path.under none).elems = path := by rw [hpath]; rfl
  obtain ⟨home, hwalk⟩ := hgrafts.walk? s.root.home
  -- the path ends in the name of the leaf, so it is no place of an entry and not the root
  have hnode : s.nodeAt (u.path.under none).elems = .ok (m, home) := by
    rw [Schema.nodeAt, hwalk]
  obtain ⟨parent, name, hparent, hlocal⟩ := hgrafts.exists_parent
  have hentry : Subtree.isEntryPlace (u.path.under none).elems = false := by
    rw [hparent, Subtree.isEntryPlace, List.getLast?_concat]
    rfl
  have hroot : (u.path.under none).isRoot = false := by
    rw [Path.isRoot, hparent]
    simp
  have hdata : Edit.dataAt s r (u.path.under none) u.value = .ok v :=
    Edit.dataAt_of_isLeaf hs hfree hdecimal hnode hentry hfits hkind hvalue
  obtain ⟨ms', hput, h'⟩ := h.put hs hfree hdecimal hleaf hfits hgrafts
  refine ⟨ms', ?_, h'⟩
  rw [Edit.writeAt, hroot, Bool.false_and, if_neg Bool.false_ne_true, hdata]
  exact hput

/-- **The updates for leaves come to what the leaves build**, one after the other. The induction is
on how the leaves build: each update is one step of it, and the tree that it leaves can be read. -/
theorem settle_of_builds (hs : s.Loaded) (hfree : s.ColonFree) (hdecimal : s.DecimalFree)
    (h : Restored s r ms cs) (hbuilds : Builds s.root [] ls cs cs')
    (hus : List.Forall₂ (fun l u => leafUpdate l = .ok u) ls us) :
    settle s r (us.map fun u => .write .update (u.path.under none) u.value) ms
      = .ok (.obj cs') := by
  induction hbuilds generalizing us ms with
  | nil =>
    obtain rfl := List.forall₂_nil_left_iff.1 hus
    exact settle_nil (h.rederive hs hfree)
  | cons hleaf hfits first rest ih =>
    obtain ⟨u, us', hu, hus', rfl⟩ := List.forall₂_cons_left_iff.1 hus
    -- each tree on the way is read back, as what has been built so far
    obtain ⟨ms', hwrite, h'⟩ := h.write hs hfree hdecimal hleaf hfits first hu
    have happly : (Edit.write .update (u.path.under none) u.value).apply s r ms
        = .ok (true, ms') := by
      rw [Edit.apply, hwrite]
      rfl
    rw [List.map_cons, settle_of_read happly (h'.rederive hs hfree)]
    exact ih h' hus'

/-- Each leaf that is built has an update, since it is in held form and so has a typed value. -/
theorem exists_updates {place : List Elem} (h : Builds n place ls cs cs') :
    ∃ us, List.Forall₂ (fun l u => leafUpdate l = .ok u) ls us := by
  induction h with
  | nil => exact ⟨[], .nil⟩
  | @cons path m v ls cs cs₁ cs₂ hleaf hfits first rest ih =>
    obtain ⟨us, hus⟩ := ih
    obtain ⟨kind, hkind⟩ := Option.isSome_iff_exists.1 hleaf
    have hvalid := Schema.Node.valid_of_validate hfits.normal (hfits.validate "")
    obtain ⟨value, hvalue⟩ := hvalid.exists_ofHeld hkind (Path.ofElems (place ++ path)).text
    refine ⟨⟨Path.ofElems (place ++ path), value⟩ :: us, .cons ?_ hus⟩
    unfold leafUpdate
    simp only [hkind, leafValue, hvalue]
    rfl

/-- **The committed tree of a reachable store is built from its leaves**, but for what holds none.
It is built from nothing, which is what an empty store holds. -/
theorem Reachable.builds {st : Store} (h : Reachable st) (hfree : st.schema.ColonFree)
    (hdecimal : st.schema.DecimalFree) :
    Builds st.schema.root [] (Tree.memberLeaves [] st.schema.root st.members) []
      (Tree.trimMembers st.schema.root st.members) := by
  have hs := h.invariant.loaded
  obtain ⟨children, hchildren⟩ := hs.hasMembers
  exact (Tree.builds_leaves hs.keyed hfree hdecimal h.valid).1 children st.members hchildren
    (h.tree_eq hfree) [] [] (Tree.startsWithKeys_nil hchildren)

end Store

namespace Subscription

open Store (Reachable)
open Pipeline (produce?)

variable {st : Store} {l : SubscriptionList} {sub : Subscription} {p : Path}

/-! ### Snapshots of whole trees -/

/-- The updates for the root are those for all leaves. -/
theorem leafUpdates_root (hroot : p.elems = []) :
    st.leafUpdates p = (Tree.leaves [] st.schema.root st.tree).mapM Store.leafUpdate := by
  have hmatching : Tree.matching p.elems st.tree st.schema.root
      = .ok [⟨[], st.tree, st.schema.root⟩] := by
    rw [hroot]
    rfl
  rw [Store.leafUpdates, hmatching]
  dsimp only
  rw [List.flatMap_singleton]

/-- A subscription to the root reports the updates for all leaves in turn. -/
theorem snapshot_root (h : Reachable st) (hfree : st.schema.ColonFree)
    (hsubs : l.subscriptions = [sub]) (hroot : (sub.path.under l.base).elems = [])
    (hus : List.Forall₂ (fun l u => Store.leafUpdate l = .ok u)
      (Tree.memberLeaves [] st.schema.root st.members) us) (now : Int64) :
    snapshot st now l = .ok ⟨now, none, us, []⟩ := by
  obtain ⟨children, hchildren⟩ := h.invariant.loaded.hasMembers
  -- the root is no leaf, so its leaves are those of its members
  have hleaves : Tree.leaves [] st.schema.root st.tree
      = Tree.memberLeaves [] st.schema.root st.members := by
    rw [h.tree_eq hfree]
    exact Tree.leaves_obj (Tree.isLeaf_eq_false hchildren.1)
  have hupdates : st.leafUpdates (sub.path.under l.base) = .ok us := by
    rw [leafUpdates_root hroot, hleaves]
    exact mapM_eq_ok_iff.2 hus
  have hall : l.subscriptions.mapM (fun sub => st.leafUpdates (sub.path.under l.base))
      = .ok [us] := by
    rw [hsubs]
    exact mapM_eq_ok_iff.2 (.cons hupdates .nil)
  rw [snapshot_eq h.invariant.poisoned, hall]
  dsimp only
  rw [List.flatten_singleton]

/-- **A snapshot restores a store.** The store is reachable, its schema has no decimals and no
colons in names, and the producer is about to read the tree for a subscription to the root. It
queues one notification. If its updates are sent in one request to an empty store of the same
schema, the request succeeds. The store has the tree of the snapshot then, without the containers
and lists that hold no leaf. -/
theorem set_of_snapshot (h : Reachable st) (hfree : st.schema.ColonFree)
    (hdecimal : st.schema.DecimalFree) (hbase : l.base = none) (hsubs : l.subscriptions = [sub])
    (hroot : sub.path.elems = []) {p : Pipeline.State} (hreads : p.producer = .reads)
    (r : Json.Reader) (now now' : Int64) (timeout : Nat) :
    ∃ n fresh answer,
      produce? ⟨l.updatesOnly, snapshot st now l, timeout⟩ p
        = some (p.enqueue (.update n) .marks) ∧
      Store.new st.schema r none none = (.ok fresh, []) ∧
      fresh.set now' ⟨none, [], [], n.updates⟩
        = (.ok answer, { fresh with tree := Tree.trim st.schema.root st.tree }) := by
  have hs := h.invariant.loaded
  obtain ⟨children, hchildren⟩ := hs.hasMembers
  have hbuilds := h.builds hfree hdecimal
  obtain ⟨us, hus⟩ := Store.exists_updates hbuilds
  have hsnapshot : snapshot st now l = .ok ⟨now, none, us, []⟩ := by
    refine snapshot_root h hfree hsubs ?_ hus now
    rw [hbase]
    exact hroot
  have htrim : Tree.trim st.schema.root st.tree
      = .obj (Tree.trimMembers st.schema.root st.members) := by
    rw [h.tree_eq hfree, Tree.trim_obj (Tree.isLeaf_eq_false hchildren.1)]
  -- an empty tree stands for what has been built of it before the first update
  have hempty : Store.Restored st.schema r [] [] :=
    ⟨Store.stands_empty hs, .empty hchildren.1, trivial⟩
  have hsettle := Store.settle_of_builds hs hfree hdecimal hempty hbuilds hus
  have hset : ∃ answer, (⟨st.schema, r, none, .obj [], [], false⟩ : Store).set now'
      ⟨none, [], [], us⟩
        = (.ok answer, ⟨st.schema, r, none, Tree.trim st.schema.root st.tree, [], false⟩) := by
    rw [htrim]
    exact (Store.set_eq_ok_iff rfl rfl).2 ⟨_, hsettle, rfl⟩
  obtain ⟨answer, hanswer⟩ := hset
  refine ⟨⟨now, none, us, []⟩, _, answer, ?_, rfl, hanswer⟩
  rw [produce?, hreads]
  simp only [hsnapshot]

/-- A store that has been restored reports what the first one has reported: what is left out holds
no leaf. -/
theorem snapshot_trim (h : Reachable st) (hfree : st.schema.ColonFree)
    (hsubs : l.subscriptions = [sub]) (hroot : (sub.path.under l.base).elems = []) (now : Int64) :
    snapshot { st with tree := Tree.trim st.schema.root st.tree } now l = snapshot st now l := by
  have hinv := h.invariant
  obtain ⟨children, hchildren⟩ := hinv.loaded.hasMembers
  have hleaf := Tree.isLeaf_eq_false hchildren.1
  -- trimming drops what holds no leaf, so the leaves and their order are the same
  have hleaves : Tree.leaves [] st.schema.root (Tree.trim st.schema.root st.tree)
      = Tree.leaves [] st.schema.root st.tree := by
    have htrim := (Tree.leaves_trim hinv.loaded.keyed hfree.namesFree h.valid).1 st.members hleaf
      (h.tree_eq hfree) []
    rw [h.tree_eq hfree, Tree.trim_obj hleaf, Tree.leaves_obj hleaf, Tree.leaves_obj hleaf, htrim]
  have hsame : Store.leafUpdates { st with tree := Tree.trim st.schema.root st.tree }
      (sub.path.under l.base) = st.leafUpdates (sub.path.under l.base) := by
    rw [leafUpdates_root hroot, leafUpdates_root hroot, hleaves]
  have hpoisoned : { st with tree := Tree.trim st.schema.root st.tree }.poisoned = false :=
    hinv.poisoned
  rw [snapshot_eq hpoisoned, snapshot_eq hinv.poisoned, hsubs]
  simp only [List.mapM_cons, List.mapM_nil, hsame]

/-! ### Two servers that are restored -/

/-- A subscription to the root. -/
def rootList : SubscriptionList :=
  { portsList with subscriptions := [⟨Path.ofElems [], .targetDefined, 0⟩] }

/-- What there is to do for it, in the store with both servers. -/
def rootJob : Job :=
  ⟨rootList.updatesOnly, snapshot Store.grownStore 7 rootList, defaultTimeout⟩

/-- The path of a member of a server. -/
def memberAt (port member : String) : Path :=
  Path.ofElems [Elem.ofKeys "server" [("port", port)], Elem.plain member]

/-- The updates for all leaves of both servers. -/
def grownUpdates : List Update := [
  ⟨Path.ofElems [Elem.plain "host"], .string "alpha"⟩,
  ⟨memberAt "80" "enabled", .bool true⟩, ⟨memberAt "80" "port", .uint 80⟩,
  ⟨memberAt "8080" "enabled", .bool true⟩, ⟨memberAt "8080" "port", .uint 8080⟩]

/-- Both servers come back, in their order. The first update of each makes the entry with its key,
and the update of the key itself finds it there. -/
theorem set_of_snapshot_servers : ∃ n fresh answer,
    produce? rootJob (Pipeline.start rootJob true)
      = some ((Pipeline.start rootJob true).enqueue (.update n) .marks) ∧
    n.updates = grownUpdates ∧
    Store.new Store.serverSchema .nearest none none = (.ok fresh, []) ∧
    fresh.set 8 ⟨none, [], [], n.updates⟩
      = (.ok answer, { fresh with tree := Store.grownTree }) := by
  have hreads : (Pipeline.start rootJob true).producer = .reads := rfl
  have htrim : Tree.trim Store.grownStore.schema.root Store.grownStore.tree = Store.grownTree := rfl
  obtain ⟨n, fresh, answer, hproduce, hnew, hset⟩ := set_of_snapshot (l := rootList)
    Store.reachable_grownStore Store.colonFree_serverSchema (by decide) rfl rfl rfl hreads .nearest
    7 8 defaultTimeout
  have hqueued : (Pipeline.start rootJob true).enqueue (.update ⟨7, none, grownUpdates, []⟩) .marks
      = (Pipeline.start rootJob true).enqueue (.update n) .marks :=
    Option.some.inj hproduce
  -- the notification is settled by the one event of the producer, so its updates are those that
  -- were queued
  have hupdates := congrArg Notification.updates (eq_of_enqueue rfl hqueued)
  rw [htrim] at hset
  exact ⟨n, fresh, answer, hproduce, hupdates.symm, hnew, hset⟩

end Subscription

end ConfigTree
