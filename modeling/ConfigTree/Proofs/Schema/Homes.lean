import ConfigTree.Schema.NetworkDevice
import ConfigTree.Proofs.Store.WriteBack

/-!
# What a reader takes from a document

The document of data is read back as the data, and one with qualified names says of every member
which module it is from: the one in front of its name or, if there is none, that of the member
around it. `memberHomes` is what a reader takes from a document in this way.

* `namedHome?_memberName`: one member, in a place whose module the reader knows.
* `walk?_of_mem_memberHomes`: all members of the document of data at a node.
* `Schema.unmarshal_marshal`: the document of valid data at a place of the schema, in both namings.
-/

namespace ConfigTree

open ConfigTree.Path (Elem)
open Members (get?)
open Schema (Node)
open Schema.Node (Stands)

/-! ### Reading the modules of a document -/

/-- The module in front of a name. It is what stands before the first colon, even if that is
nothing. -/
def namedHome? (name : String) : Option String :=
  if ':' ∈ name.toList then some (String.ofList (name.toList.takeWhile (· != ':'))) else none

mutual

/-- The members of a document at every depth: the names on the way to each of them, and the module
that it is taken to be from. The first argument is the module of the member around the document. -/
def Json.memberHomes (around : Option String) : Json → List (List String × Option String)
  | .arr xs => Json.memberHomesOfItems around xs
  | .obj ms => Json.memberHomesOfMembers around ms
  | _ => []

def Json.memberHomesOfItems (around : Option String) :
    List Json → List (List String × Option String)
  | [] => []
  | x :: xs => Json.memberHomes around x ++ Json.memberHomesOfItems around xs

def Json.memberHomesOfMembers (around : Option String) :
    List (String × Json) → List (List String × Option String)
  | [] => []
  | (name, j) :: ms =>
    let home := (namedHome? name).or around
    ([localName name], home)
      :: (Json.memberHomes home j).map (fun x => (localName name :: x.1, x.2))
      ++ Json.memberHomesOfMembers around ms

end

namespace Json

variable {around : Option String} {x : List String × Option String}

theorem mem_memberHomesOfItems {xs : List Json} :
    x ∈ memberHomesOfItems around xs ↔ ∃ j ∈ xs, x ∈ j.memberHomes around := by
  induction xs with
  | nil => simp [memberHomesOfItems]
  | cons j xs ih => simp [memberHomesOfItems, ih]

/-- What a reader takes from the members of an object: each member itself, and what is inside it,
with the name of the member in front. -/
theorem mem_memberHomesOfMembers {ms : List (String × Json)} :
    x ∈ memberHomesOfMembers around ms ↔ ∃ m ∈ ms,
      x = ([localName m.1], (namedHome? m.1).or around) ∨
        ∃ y ∈ m.2.memberHomes ((namedHome? m.1).or around), x = (localName m.1 :: y.1, y.2) := by
  induction ms with
  | nil => simp [memberHomesOfMembers]
  | cons m ms ih =>
    obtain ⟨name, j⟩ := m
    simp [memberHomesOfMembers, ih, or_assoc, eq_comm]

theorem memberHomes_of_isScalar {j : Json} (h : j.isScalar = true) : j.memberHomes around = [] := by
  cases j with
  | arr xs => cases h
  | obj ms => cases h
  | _ => rfl

end Json

namespace Schema

variable {n : Node} {home : Option String} {top entry : Bool} {w c : Json} {name : String}

/-! ### Names -/

theorem namedHome?_of_not_mem (h : ':' ∉ name.toList) : namedHome? name = none := if_neg h

/-- **A reader who knows the module around a member takes the member's module from its name.** At
the top nothing is around a member, so its name says the module if it has one. A module that is not
repeated is that of the member around; this needs that a member without a module has none around it,
which inheriting sees to. -/
theorem namedHome?_memberName {own : Option String} (hown : ∀ m ∈ own, ':' ∉ m.toList)
    (hname : ':' ∉ name.toList) (hinherit : own = none → home = none) :
    (namedHome? (memberName .qualified top home own name)).or (if top then none else home)
      = own := by
  cases own with
  -- a member without a module has none around it either
  | none =>
    rw [hinherit rfl]
    simp [memberName, namedHome?_of_not_mem hname]
  | some m =>
    by_cases hnamed : (top || some m != home) = true
    -- the module stands in front of the first colon
    · have hchars : (s!"{m}:{name}").toList = m.toList ++ ':' :: name.toList := by
        change (m ++ ":" ++ name).toList = _
        simp [String.toList_append]
      have hm : ∀ c ∈ m.toList, (c != ':') = true := by
        intro c hc
        simpa using fun heq : c = ':' => hown m rfl (heq ▸ hc)
      have hread : namedHome? s!"{m}:{name}" = some m := by
        rw [namedHome?, hchars, List.takeWhile_append_of_pos hm]
        simp
      simp only [memberName, hnamed, if_true, hread, Option.some_or]
    -- or it is that of the member around
    · simp only [Bool.or_eq_true, bne_iff_ne, ne_eq, not_or, not_not, Bool.not_eq_true] at hnamed
      obtain ⟨rfl, rfl⟩ := hnamed
      simp [memberName, namedHome?_of_not_mem hname]

/-! ### Documents of nodes -/

namespace Node

variable {children : List (String × Node)}

/-- A plain element has no keys that could be foreign to its node. -/
theorem ownsKeys_plain (c : Node) (name : String) : c.OwnsKeys (Elem.plain name) := by
  unfold OwnsKeys
  split
  · exact fun key hkey => absurd hkey List.not_mem_nil
  · rfl

/-- **The reader takes every member to be from the module that the schema has it from.** The reader
knows the module around the document, if there is one. The induction is on the data with what it
stands for, so that every member is known to the schema. -/
theorem walk?_of_mem_memberHomes (hfree : n.Everywhere ColonFreeAt)
    (hhomes : n.Everywhere HomeFreeAt) (hhome : ∀ m ∈ home, ':' ∉ m.toList)
    (h : Stands n entry w c) {x : List String × Option String}
    (hx : x ∈ (emit .qualified home top entry n w).memberHomes (if top then none else home)) :
    ∃ m, n.walk? home (x.1.map Elem.plain) = some (m, x.2) := by
  -- `home` and `top` change on the way down, so the induction is for all of them
  induction h generalizing home top x with
  | leaf held fits =>
    have hscalar := isScalar_of_coerce? held
    rw [emit_of_isScalar hscalar, Json.memberHomes_of_isScalar hscalar] at hx
    cases hx
  | @leafList mod kind entry xs cs held fits =>
    obtain ⟨j, hj, hx⟩ := Json.mem_memberHomesOfItems.1 hx
    obtain ⟨c, -, hheld⟩ := exists_mem_right_of_forall₂ held hj
    rw [Json.memberHomes_of_isScalar (isScalar_of_coerce? hheld)] at hx
    cases hx
  | @object n entry children ms cs shape sorted sorted' names known members ih =>
    simp only [emit, shape.1, emitMembers_eq_map] at hx
    obtain ⟨m, hm, hx⟩ := Json.mem_memberHomesOfMembers.1 hx
    obtain ⟨⟨name, w⟩, hmem, rfl⟩ := List.mem_map.1 (Members.mem_of_mem_ofList hm)
    have hw := Members.get?_of_mem sorted hmem
    obtain ⟨c, hc⟩ := names.exists_right hw
    obtain ⟨child, hchild⟩ := Option.isSome_iff_exists.1 (known _ _ hw)
    -- the module of the member has no colon, and neither has its name
    have hown : ∀ m ∈ child.home.or home, ':' ∉ m.toList := by
      intro m hm
      rcases Option.or_eq_some_iff.1 hm with hm | ⟨-, hm⟩
      · exact (hhomes.child shape.1 hchild).here m hm
      · exact hhome m hm
    have hname : ':' ∉ name.toList := by
      refine hfree.here.1 (name, child) ?_
      rw [shape.1]
      exact Members.mem_of_get? hchild
    have hlocal : localName (memberName .qualified top home (child.home.or home) name) = name :=
      localName_memberName hown hname
    have hread : (namedHome? (memberName .qualified top home (child.home.or home) name)).or
        (if top then none else home) = child.home.or home :=
      namedHome?_memberName hown hname fun hnone => (Option.or_eq_none_iff.1 hnone).2
    simp only [emitMember, hchild, hlocal, hread] at hx
    have hstep : ∀ {rest found}, child.walk? (child.home.or home) rest = some found →
        n.walk? home (Elem.plain name :: rest) = some found :=
      walk?_of_ownsKeys (hfree.here.child? shape.1 hchild) (ownsKeys_plain child name)
    rcases hx with rfl | ⟨y, hy, rfl⟩
    · exact ⟨child, hstep rfl⟩
    -- what is inside the member has its module around it
    · have hinside : y ∈ (emit .qualified (child.home.or home) false false child w).memberHomes
          (if false = true then none else child.home.or home) := hy
      obtain ⟨m, hwalk⟩ := ih name child w c hchild hw hc (hfree.child shape.1 hchild)
        (hhomes.child shape.1 hchild) hown hinside
      exact ⟨m, hstep hwalk⟩
  | @list mod keys children xs cs length entries keyed distinct ih =>
    rw [emit, emitEntries_eq_map] at hx
    obtain ⟨j, hj, hx⟩ := Json.mem_memberHomesOfItems.1 hx
    obtain ⟨w, hw, rfl⟩ := List.mem_map.1 hj
    obtain ⟨i, hi⟩ := List.getElem?_of_mem hw
    obtain ⟨c, hc⟩ := exists_getElem?_of_length length hi
    exact ih i w c hi hc hfree hhomes hhome hx

end Node

/-! ### Documents of places -/

/-- **Marshalling and unmarshalling are inverse, and qualified names carry the module.** The
document of valid data at a place of the schema is read as the data there, whichever naming it has.
In a qualified one a reader finds every member, at every depth, to be from the module that the
schema has it from; at the top the name of the member says it, since nothing is around it. -/
theorem unmarshal_marshal {s : Schema} {r : Json.Reader} (hs : s.Loaded) (hfree : s.ColonFree)
    (hhomes : s.HomeFree) (hr : r.ReadsBack) {location : List Elem} {payload : ByteArray}
    {c : Subtree} (hread : s.unmarshal r location payload = .ok c) (hvalid : s.validate c = .ok ())
    (naming : Naming) : ∃ j, s.marshal c naming = .ok j ∧
      s.unmarshal r location j.bytes = .ok c ∧
      (naming = .qualified → ∀ x ∈ j.memberHomes none,
        ∃ n, s.nodeAt (location ++ x.1.map Elem.plain) = .ok (n, x.2)) := by
  obtain ⟨raw, ⟨n, home⟩, hnode, hc, hconform⟩ := Edit.exists_of_unmarshal hread
  have hwalk := Edit.walk?_of_nodeAt hnode
  have hbelow := Node.below?_of_walk? hwalk
  have hnfree : n.Everywhere ColonFreeAt := hfree.below? hbelow
  have hnhomes : n.Everywhere HomeFreeAt := hhomes.below? hbelow
  have hhome : ∀ m ∈ home, ':' ∉ m.toList :=
    home_of_walk? hhomes (fun m hm => hhomes.here m hm) hwalk
  -- the data has been read and checked at the place, so it stands for itself
  have hstands : Stands n (Subtree.isEntryPlace location) c.data c.data := by
    rw [hc, Schema.validate] at hvalid
    obtain ⟨found, hfound, hvalid⟩ := bind_eq_ok_iff.1 hvalid
    obtain rfl := Except.ok.inj (hnode.symm.trans hfound)
    exact Node.stands_of_conform hnfree hconform hvalid
  have hmarshal : s.marshal c naming
      = .ok (n.emit naming home true (Subtree.isEntryPlace location) c.data) := by
    rw [hc, marshal, hnode]
    rfl
  refine ⟨_, hmarshal, ?_, fun hqualified x hx => ?_⟩
  · have hparse : Json.parseBytes? r
        (n.emit naming home true (Subtree.isEntryPlace location) c.data).bytes
          = some (n.emit naming home true (Subtree.isEntryPlace location) c.data) := by
      rw [Json.parseBytes?_bytes hr, Json.normalize_of_normal (Node.normal_emit hstands.normal)]
      exact ⟨Nat.le_trans (Node.depth_emit_le _) (depth_le_maxDepth hs hbelow hstands), rfl⟩
    have hheld : n.conform (Path.textOf location) (Subtree.isEntryPlace location)
        (n.emit naming home true (Subtree.isEntryPlace location) c.data) = .ok c.data :=
      Node.conform_emit hnfree hnhomes hhome hstands _
    unfold unmarshal
    simp only [hnode, hparse, hheld, bind, Except.bind]
    rw [hc]
    rfl
  · subst hqualified
    have hx : x ∈ (n.emit .qualified home true (Subtree.isEntryPlace location)
        c.data).memberHomes (if true = true then none else home) := hx
    obtain ⟨m, hm⟩ := Node.walk?_of_mem_memberHomes hnfree hnhomes hhome hstands hx
    refine ⟨m, ?_⟩
    unfold nodeAt
    rw [Node.walk?_append_of_walk? hwalk, hm]

/-! ### The system of a network device -/

/-- The place of the system. -/
def systemPlace : List Elem := [Elem.plain "system"]

/-- Its name, and how it behaves towards its controllers. -/
def systemData : Json :=
  .obj [
    ("config", .obj [("hostname", .str "alpha")]),
    ("openflow", .obj [("agent", .obj [("config", .obj [("failure-mode", .str "SECURE")])])])]

/-- Its document with qualified names. The module changes once inside the system: what `openflow`
has is named without a module, because it is from the module of `openflow`. -/
def systemDocument : Json :=
  .obj [
    ("openconfig-openflow:openflow",
      .obj [("agent", .obj [("config", .obj [("failure-mode", .str "SECURE")])])]),
    ("openconfig-system:config", .obj [("hostname", .str "alpha")])]

theorem loaded_networkDevice : networkDevice.Loaded := by
  refine ⟨.nearest, networkDevice.toJson.render, ?_⟩
  rw [load, Json.Term.parse?_render]
  rfl

theorem unmarshal_systemData : networkDevice.unmarshal .nearest systemPlace systemData.bytes
    = .ok ⟨systemPlace, systemData⟩ := by
  have hparse : Json.parseBytes? .nearest systemData.bytes = some systemData := by
    rw [Json.parseBytes?_bytes Json.Reader.readsBack_nearest]
    decide
  unfold unmarshal
  rw [hparse]
  rfl

/-- The system is written with its modules and read back, and the agent of `openflow` is found to be
from another module than the system although its name does not say so. -/
theorem unmarshal_marshal_system :
    networkDevice.marshal ⟨systemPlace, systemData⟩ .qualified = .ok systemDocument ∧
    networkDevice.unmarshal .nearest systemPlace systemDocument.bytes
      = .ok ⟨systemPlace, systemData⟩ ∧
    (["openflow", "agent"], some "openconfig-openflow") ∈ systemDocument.memberHomes none ∧
    ∀ x ∈ systemDocument.memberHomes none,
      ∃ n, networkDevice.nodeAt (systemPlace ++ x.1.map Elem.plain) = .ok (n, x.2) := by
  obtain ⟨j, hmarshal, hread, hhomes⟩ := unmarshal_marshal loaded_networkDevice (by decide)
    (by decide) Json.Reader.readsBack_nearest unmarshal_systemData rfl .qualified
  have hdocument : networkDevice.marshal ⟨systemPlace, systemData⟩ .qualified
      = .ok systemDocument := rfl
  obtain rfl := Except.ok.inj (hdocument.symm.trans hmarshal)
  exact ⟨hmarshal, hread, by decide, hhomes rfl⟩

end Schema

end ConfigTree
