import ConfigTree.Schema.Marshal
import ConfigTree.Proofs.Json.Basic

/-!
# Documents with plain names

With plain names, the document of data in normal form is the data itself: `emit` only names members,
and normal data already has them in their order.
-/

namespace ConfigTree.Schema

variable {n : Node} {home : Option String} {top entry : Bool} {j : Json}

@[simp] theorem memberName_plain (top : Bool) (outer home : Option String) (name : String) :
    memberName .plain top outer home name = name := rfl

/-- Members are named as they are if nothing has to be done inside them. -/
theorem emitMembers_plain {children : List (String × Node)} {ms : List (String × Json)}
    (h : ∀ m ∈ ms, ∀ home child, Node.emit .plain home false false child m.2 = m.2) :
    Node.emitMembers .plain home top children ms = ms := by
  induction ms with
  | nil => rfl
  | cons m ms ih =>
    obtain ⟨name, j⟩ := m
    obtain ⟨hj, hms⟩ := List.forall_mem_cons.1 h
    rw [Node.emitMembers, ih hms]
    -- a member that the schema does not know is emitted as it is
    cases Members.get? children name with
    | none => rfl
    | some child =>
      dsimp only
      rw [memberName_plain, hj]

theorem emitEntries_plain {xs : List Json}
    (h : ∀ x ∈ xs, Node.emit .plain home top true n x = x) :
    Node.emitEntries .plain home top n xs = xs := by
  induction xs with
  | nil => rfl
  | cons x xs ih =>
    obtain ⟨hx, hxs⟩ := List.forall_mem_cons.1 h
    rw [Node.emitEntries, hx, ih hxs]

/-- **The plain document of data in normal form is the data.** The node does not matter: what the
schema does not know is emitted as it is, and what it knows keeps its name. -/
theorem emit_plain (h : j.Normal) : Node.emit .plain home top entry n j = j := by
  -- the recursion goes from the data to its parts, whatever their nodes are
  induction j using Json.induction_on generalizing n home top entry with | step j ih =>
  cases j with
  | obj ms =>
    obtain ⟨hsorted, hms⟩ := h
    have hparts : ∀ m ∈ ms, ∀ home child, Node.emit .plain home false false child m.2 = m.2 :=
      fun m hm _ _ => ih m.2 (List.mem_map_of_mem hm) (Json.normalMembers_iff.1 hms m hm)
    cases hn : n.children? with
    | none => simp only [Node.emit, hn]
    | some children =>
      simp only [Node.emit, hn]
      rw [emitMembers_plain hparts, Members.ofList_of_sorted hsorted]
  | arr xs =>
    have hitems : ∀ x ∈ xs, Node.emit .plain home top true n x = x :=
      fun x hx => ih x hx (Json.normalList_iff.1 h x hx)
    rw [Node.emit, emitEntries_plain hitems, ite_self]
  | _ => rfl

/-- The document of a subtree at a place that the schema has. -/
theorem marshal_plain {s : Schema} {c : Subtree} {found : Node × Option String}
    (hnode : s.nodeAt c.location = .ok found) (h : c.data.Normal) :
    s.marshal c .plain = .ok c.data := by
  rw [marshal, hnode]
  exact congrArg _ (emit_plain h)

end ConfigTree.Schema
