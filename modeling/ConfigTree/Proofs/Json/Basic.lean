import ConfigTree.Json.Basic
import ConfigTree.Proofs.Members

/-!
# Parts of documents

The parts of an array are its items, those of an object the values of its members. `induction_on` is
the induction over documents by their parts, which is how most statements about them are proved;
`depthList_le` and `depthMembers_le` bound the depth of a document by that of its parts, and
`le_depthList` and `le_depthMembers` that of a part by that of the document.
-/

namespace ConfigTree.Json

/-- Whether a document has no parts. -/
def isScalar : Json → Bool
  | .arr _ | .obj _ => false
  | _ => true

/-- What stands right inside a document. -/
def parts : Json → List Json
  | .arr xs => xs
  | .obj ms => ms.map Prod.snd
  | _ => []

mutual

/-- Induction over documents by their parts. What the recursor of the type asks of lists of
documents, and of lists of members, is done here once. -/
theorem induction_on {P : Json → Prop} (step : ∀ j, (∀ x ∈ j.parts, P x) → P j) : ∀ j : Json, P j
  | .arr xs => step (.arr xs) (induction_on_list step xs)
  | .obj ms => step (.obj ms) (induction_on_members step ms)
  | .null | .bool _ | .num _ | .str _ => step _ fun _ hx => (nomatch hx)

theorem induction_on_list {P : Json → Prop} (step : ∀ j, (∀ x ∈ j.parts, P x) → P j) :
    ∀ xs : List Json, ∀ x ∈ xs, P x
  | [] => fun _ hx => (nomatch hx)
  | x :: xs => List.forall_mem_cons.2 ⟨induction_on step x, induction_on_list step xs⟩

theorem induction_on_members {P : Json → Prop} (step : ∀ j, (∀ x ∈ j.parts, P x) → P j) :
    ∀ ms : List (String × Json), ∀ x ∈ ms.map Prod.snd, P x
  | [] => fun _ hx => (nomatch hx)
  | (_, x) :: ms => List.forall_mem_cons.2 ⟨induction_on step x, induction_on_members step ms⟩

end

/-! ### Depth -/

theorem depth_of_isScalar {j : Json} (h : j.isScalar = true) : j.depth = 0 := by
  cases j with
  | arr xs => cases h
  | obj ms => cases h
  | _ => rfl

/-- The items of an array bound its depth from above, and it bounds theirs (`le_depthList`). -/
theorem depthList_le {xs : List Json} {bound : Nat} (h : ∀ x ∈ xs, x.depth ≤ bound) :
    depthList xs ≤ bound := by
  induction xs with
  | nil => exact Nat.zero_le _
  | cons x xs ih =>
    obtain ⟨hx, hxs⟩ := List.forall_mem_cons.1 h
    exact Nat.max_le.2 ⟨hx, ih hxs⟩

theorem depthMembers_le {ms : List (String × Json)} {bound : Nat}
    (h : ∀ m ∈ ms, m.2.depth ≤ bound) : depthMembers ms ≤ bound := by
  induction ms with
  | nil => exact Nat.zero_le _
  | cons m ms ih =>
    obtain ⟨hm, hms⟩ := List.forall_mem_cons.1 h
    exact Nat.max_le.2 ⟨hm, ih hms⟩

theorem le_depthList {xs : List Json} {x : Json} (h : x ∈ xs) : x.depth ≤ depthList xs := by
  induction xs with
  | nil => cases h
  | cons y xs ih =>
    rcases List.mem_cons.1 h with rfl | h
    · exact Nat.le_max_left _ _
    · exact Nat.le_trans (ih h) (Nat.le_max_right _ _)

theorem le_depthMembers {ms : List (String × Json)} {m : String × Json} (h : m ∈ ms) :
    m.2.depth ≤ depthMembers ms := by
  induction ms with
  | nil => cases h
  | cons m' ms ih =>
    rcases List.mem_cons.1 h with rfl | h
    · exact Nat.le_max_left _ _
    · exact Nat.le_trans (ih h) (Nat.le_max_right _ _)

theorem normal_of_isScalar {j : Json} (h : j.isScalar = true) : j.Normal := by
  cases j with
  | arr xs => cases h
  | obj ms => cases h
  | _ => simp [Normal]

end ConfigTree.Json
