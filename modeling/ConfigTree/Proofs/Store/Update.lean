import ConfigTree.Proofs.Schema.Homes
import ConfigTree.Proofs.Store.Delete
import ConfigTree.Proofs.Store.Put

/-!
# What an update leaves

A set that updates the node at a path merges the data with what is there, one level deep: of a
container or an entry, each member that the data names is that of the data, and each other one is
left as it was. The keys of the path stand in an entry in any case. What else there is at the path
is replaced by the data.

* `Edit.Merged`: what stands at a path after the update.
* `Edit.merged_written`: what a write in this mode puts there.
* `Store.lookup_set_update`: the set, and what is found at the path before and after.

What a write leaves is one function of what was there, in either mode (`written`), and `Merged` says
what that function is for an update. So nothing about the way to the node has to be proved again
here.
-/

namespace ConfigTree

open ConfigTree.Path (Elem)
open ConfigTree.Tree (Object Selects HeldKeys SelectsEntries EachKey EndsInKey heldKeys lookup)
open Members (get? Sorted)
open Schema (Node)
open Schema.Node (Stands)

namespace Edit

variable {target : Node} {elems : List Elem} {e : Elem} {d : Json} {before : Option Json}
  {children : List (String × Node)}

/-- The members of what has been found. What is no object has none. -/
def membersOf (found : Option Json) : Object := (found.bind Json.obj?).getD []

/-- What stands at a path once data has been merged with what was there before. In a container or an
entry a member is that of the data, else the key of the path in held form, else what it was. A
member that the data names is taken as a whole: nothing is kept below it. -/
inductive Merged (target : Node) (elems : List Elem) (data : Json) (before : Option Json) :
    Json → Prop
  | value (shape : ∀ children, ¬ target.HasMembers (Subtree.isEntryPlace elems) children) :
      Merged target elems data before data
  | members {children : List (String × Node)} {last : Elem} {ks new ms : Object}
      (shape : target.HasMembers (Subtree.isEntryPlace elems) children)
      (place : elems.getLast? = some last) (keys : HeldKeys target last ks)
      (object : data = .obj new) (sorted : Sorted ms)
      (member : ∀ name : String, get? ms name
        = ((get? new name).or (get? ks name)).or (get? (membersOf before) name)) :
      Merged target elems data before (.obj ms)

/-- The keys of the last element are held, be there any or none. So an entry and a container can be
treated alike. -/
theorem heldKeys_of_selects (hsel : e.isKeyed = true → Selects target e) :
    HeldKeys target e (heldKeys target e.keys) := by
  cases he : e.isKeyed with
  | true =>
    obtain ⟨ks, hks⟩ := (hsel he).exists_heldKeys
    exact hks.eq_heldKeys ▸ hks
  | false =>
    rw [HeldKeys, heldKeys, Tree.keys_eq_nil he]
    exact .nil

theorem kept_update (ks : Object) (before : Option Json) :
    kept .update ks before = (before.bind Json.obj?).getD ks := by
  cases before with
  | none => rfl
  | some v => cases v <;> rfl

/-- A member of an object that is merged is that of the data, of the path or of what was there.
Where nothing was there the keys of the path have been kept, and it makes no difference that they
are put in once more. -/
theorem get?_insertAll_kept {new ks : Object} (hks : Sorted ks) (hnew : Sorted new)
    (before : Option Json) (name : String) :
    get? (Members.insertAll (Members.insertAll (kept .update ks before) ks) new) name
      = ((get? new name).or (get? ks name)).or (get? (membersOf before) name) := by
  rw [Members.get?_insertAll hnew, Members.get?_insertAll hks, ← Option.or_assoc, kept_update,
    membersOf]
  cases before.bind Json.obj? with
  | some old => rfl
  -- where there is no object, the keys are put over themselves
  | none => rw [Option.getD_none, Option.getD_none, Members.get?_nil, Option.or_none,
      Option.or_assoc, Option.or_self]

/-- **An update merges its data with what is there.** Which of the two cases it is depends on the
schema alone, since the data has the shape of its node. -/
theorem merged_written (hlast : elems.getLast? = some e)
    (hsel : e.isKeyed = true → Selects target e)
    (hd : Stands target e.isKeyed d d)
    (hheld : Stands target e.isKeyed (written .update (heldKeys target e.keys) d before)
      (written .update (heldKeys target e.keys) d before)) :
    Merged target elems d before (written .update (heldKeys target e.keys) d before) := by
  have hplace : Subtree.isEntryPlace elems = e.isKeyed := by simp [Subtree.isEntryPlace, hlast]
  -- the two clauses of `Merged`: a node with members is merged member by member, any other value is
  -- taken as it is
  by_cases hshape : ∃ children, target.HasMembers e.isKeyed children
  · obtain ⟨children, hn⟩ := hshape
    obtain ⟨new, -, rfl, -⟩ := hd.eq_obj hn
    exact .members (hplace ▸ hn) hlast (heldKeys_of_selects hsel) rfl hheld.normal.1
      (get?_insertAll_kept (Members.sorted_map _ e.sorted) hd.normal.1 before)
  · have hvalue : written .update (heldKeys target e.keys) d before = d := by
      cases d with
      | obj new => exact absurd hd.exists_hasMembers hshape
      | _ => rfl
    rw [hvalue]
    exact .value fun children hn => hshape ⟨children, hplace ▸ hn⟩

end Edit

namespace Store

variable {st : Store} {p : Path} {base : Option Path} {value : TypedValue} {d : Json}

/-- **An update merges one level deep.** In a reachable store without a device, a set that updates
the node at a path other than the root by a payload that is valid there succeeds. What is found at
the path then is the payload merged with what was found before: of a container or an entry the
members that the payload does not name are left, of anything else nothing. -/
theorem lookup_set_update (h : Reachable st) (hfree : st.schema.ColonFree)
    (hr : st.reader.ReadsBack) (hd : st.device = none) (hp : (p.under base).elems ≠ [])
    (hselects : SelectsEntries st.schema.root (p.under base).elems)
    (hvalid : EachKey IsKeyText st.schema.root (p.under base).elems)
    (hkey : ¬ EndsInKey st.schema.root (p.under base).elems)
    (hdata : Edit.dataAt st.schema st.reader (p.under base) value = .ok d)
    (hagrees : Edit.Agrees (p.under base) d) (now : Int64) :
    ∃ resp st' target before held,
      st.set now (.single .update base ⟨p, value⟩) = (.ok resp, st') ∧
      st.schema.resolve? (p.under base).elems = some target ∧
      lookup (p.under base).elems st.tree st.schema.root
        = .ok (before.map fun v => (v, target)) ∧
      lookup (p.under base).elems st'.tree st.schema.root = .ok (some (held, target)) ∧
      Edit.Merged target (p.under base).elems d before held := by
  have hinv := h.invariant
  have hstands := hinv.stands hfree
  rw [h.tree_eq hfree] at hstands ⊢
  obtain ⟨target, home, hnode, hdata'⟩ := Edit.stands_of_dataAt hfree hdata
  obtain ⟨above, last, hsplit⟩ := Edit.exists_splitLast? hp
  have helems := Edit.splitLast?_eq_some hsplit
  have hlast : (p.under base).elems.getLast? = some last := by rw [helems, List.getLast?_concat]
  have hplace : Subtree.isEntryPlace (p.under base).elems = last.isKeyed := by
    simp [Subtree.isEntryPlace, hlast]
  rw [hplace] at hdata'
  obtain ⟨ms', cs', before, held, hput, hms', hbefore, hafter, rfl, hsel, hheld⟩ :=
    Edit.exists_lookup_putAt .update hinv.loaded hfree hstands hsplit hnode hselects hvalid hkey
      hdata' hagrees
  -- the one edit comes to the document that its tree stands for
  have hroot : ((p.under base).isRoot && WriteMode.update == .update) = false := by
    simp [Path.isRoot, hp]
  obtain ⟨resp, hset⟩ := set_single_of_stands hinv.loaded hfree hr hd hinv.poisoned hroot hdata hput
    hms' now
  refine ⟨resp, _, target, before, _, hset, ?_, hbefore, hafter,
    Edit.merged_written hlast hsel hdata' hheld⟩
  rw [Schema.resolve?, Node.resolve?, Edit.walk?_of_nodeAt hnode, Option.map_some]

/-! ### A system that gets another name -/

/-- A system with a clock and a name. -/
def oldSystem : Json :=
  .obj [
    ("clock", .obj [("config", .obj [("timezone-name", .str "UTC")])]),
    ("config", .obj [("domain-name", .str "lab"), ("hostname", .str "alpha")])]

/-- The tree of a network device. -/
def networkTree : Json :=
  .obj [("system", oldSystem)]

/-- The store of that device. -/
def networkStore : Store := ⟨Schema.networkDevice, .nearest, none, networkTree, [], false⟩

theorem colonFree_networkDevice : Schema.networkDevice.ColonFree := by decide

theorem reachable_networkStore : Reachable networkStore := by
  have hconform : Schema.networkDevice.root.conform "/" false networkTree = .ok networkTree := rfl
  have hvalid : Schema.networkDevice.root.validate "/" false networkTree = .ok () := rfl
  have hread : readConfig Schema.networkDevice .nearest networkTree.bytes
      = .ok (Subtree.root networkTree) :=
    mapError_eq_ok_iff.1 (Schema.rederive_of_stands Schema.loaded_networkDevice
      colonFree_networkDevice Json.Reader.readsBack_nearest
      (Node.stands_of_conform colonFree_networkDevice hconform hvalid))
  have hnew : Store.new Schema.networkDevice .nearest none (some networkTree.bytes)
      = (.ok networkStore, []) := by
    simp only [Store.new, hread]
    rfl
  exact .new Schema.loaded_networkDevice hnew

/-- The path of the system. -/
def systemPath : Path := Path.ofElems Schema.systemPlace

theorem lookup_oldSystem : lookup systemPath.elems networkTree Schema.networkDevice.root
    = .ok (some (oldSystem, Schema.NetworkDevice.system)) := rfl

/-- Another name for the system. -/
def otherName : Json := .obj [("config", .obj [("hostname", .str "beta")])]

theorem dataAt_otherName :
    Edit.dataAt Schema.networkDevice .nearest systemPath (.json otherName.bytes)
      = .ok otherName := by
  have hparse : Json.parseBytes? .nearest otherName.bytes = some otherName := by
    rw [Json.parseBytes?_bytes Json.Reader.readsBack_nearest]
    decide
  have hnode : Schema.networkDevice.nodeAt systemPath.elems
      = .ok (Schema.NetworkDevice.system, some "openconfig-system") := rfl
  exact Edit.dataAt_of_payload hnode rfl hparse rfl rfl

/-- The members of the system then. -/
def renamedSystem : Object :=
  [("clock", .obj [("config", .obj [("timezone-name", .str "UTC")])]),
    ("config", .obj [("hostname", .str "beta")])]

/-- The clock of the system is left. Its configuration is that of the payload, which has no
domain. -/
theorem lookup_otherName : ∃ resp st',
    networkStore.set 0 (.single .update none ⟨systemPath, .json otherName.bytes⟩)
      = (.ok resp, st') ∧
    lookup systemPath.elems st'.tree Schema.networkDevice.root
      = .ok (some (.obj renamedSystem, Schema.NetworkDevice.system)) := by
  have hselects : SelectsEntries Schema.networkDevice.root (systemPath.under none).elems :=
    fun child hchild => ⟨.inl ⟨by obtain rfl := Option.some.inj hchild; rfl, rfl⟩, trivial⟩
  have hvalid : EachKey IsKeyText Schema.networkDevice.root (systemPath.under none).elems := by
    refine fun child _ => ⟨fun key hkey => ?_, trivial⟩
    cases hkey
  have hkey : ¬ EndsInKey Schema.networkDevice.root (systemPath.under none).elems :=
    Tree.not_endsInKey_singleton rfl
  have hagrees : Edit.Agrees (systemPath.under none) otherName := by
    intro last hlast members hmembers member hmember
    obtain rfl := Option.some.inj hlast
    rfl
  have hp : (systemPath.under none).elems ≠ [] := List.cons_ne_nil _ []
  obtain ⟨resp, st', target, before, held, hset, htarget, hbefore, hafter, hmerged⟩ :=
    lookup_set_update reachable_networkStore colonFree_networkDevice
      Json.Reader.readsBack_nearest rfl hp hselects hvalid hkey dataAt_otherName hagrees 0
  refine ⟨resp, st', hset, ?_⟩
  obtain rfl := Option.some.inj htarget
  have hold : before = some oldSystem := by
    cases before with
    | none => cases lookup_oldSystem.symm.trans hbefore
    | some old =>
      have hplace := Option.some.inj (Except.ok.inj (lookup_oldSystem.symm.trans hbefore))
      rw [(Prod.mk.inj hplace).1]
  subst hold
  -- the node has members, so the merge is by members and those settle the object
  cases hmerged with
  | value shape => exact absurd Node.HasMembers.container (shape _)
  | @members _ _ ks new ms shape place keys object sorted member =>
    obtain rfl := Option.some.inj place
    obtain rfl := keys.eq_heldKeys
    obtain rfl := Json.obj.inj object
    have hms : ms = renamedSystem := by
      refine Members.ext sorted (by decide) fun name => (member name).trans ?_
      exact (Edit.get?_insertAll_kept Members.sorted_nil (by decide) (some oldSystem) name).symm
    exact hms ▸ hafter

end Store

end ConfigTree
