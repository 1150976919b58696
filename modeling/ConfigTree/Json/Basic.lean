import ConfigTree.Json.Number
import ConfigTree.Members

/-!
# Documents

A document is a tree of objects, arrays and scalars. The members of an object are kept as written,
in their order and with repetitions; `normalize` sorts them by name and lets the last of several
members of one name count. A tree that is `Normal` is its own normal form
(`normalize_of_normal`), and every `normalize` result is normal (`normal_normalize`).
-/

namespace ConfigTree

/-- A document. Members of an object are kept as written. -/
inductive Json where
  | null
  | bool (b : Bool)
  | num (n : Json.Number)
  | str (s : String)
  | arr (items : List Json)
  | obj (members : List (String × Json))
deriving Repr, Inhabited

namespace Json

mutual

/-- Equality is decidable. -/
def decEq : (a b : Json) → Decidable (a = b)
  | .null, .null => isTrue rfl
  | .bool a, .bool b => decidable_of_iff (a = b) (by simp)
  | .num a, .num b => decidable_of_iff (a = b) (by simp)
  | .str a, .str b => decidable_of_iff (a = b) (by simp)
  | .arr a, .arr b =>
    match decEqList a b with
    | isTrue h => isTrue (by rw [h])
    | isFalse h => isFalse (by simpa using h)
  | .obj a, .obj b =>
    match decEqMembers a b with
    | isTrue h => isTrue (by rw [h])
    | isFalse h => isFalse (by simpa using h)
  | .null, .bool _ | .null, .num _ | .null, .str _ | .null, .arr _ | .null, .obj _
  | .bool _, .null | .bool _, .num _ | .bool _, .str _ | .bool _, .arr _ | .bool _, .obj _
  | .num _, .null | .num _, .bool _ | .num _, .str _ | .num _, .arr _ | .num _, .obj _
  | .str _, .null | .str _, .bool _ | .str _, .num _ | .str _, .arr _ | .str _, .obj _
  | .arr _, .null | .arr _, .bool _ | .arr _, .num _ | .arr _, .str _ | .arr _, .obj _
  | .obj _, .null | .obj _, .bool _ | .obj _, .num _ | .obj _, .str _ | .obj _, .arr _ =>
    isFalse (by simp)

def decEqList : (a b : List Json) → Decidable (a = b)
  | [], [] => isTrue rfl
  | x :: xs, y :: ys =>
    match decEq x y, decEqList xs ys with
    | isTrue h, isTrue h' => isTrue (by rw [h, h'])
    | isFalse h, _ => isFalse (by simp [h])
    | _, isFalse h => isFalse (by simp [h])
  | [], _ :: _ | _ :: _, [] => isFalse (by simp)

def decEqMembers : (a b : List (String × Json)) → Decidable (a = b)
  | [], [] => isTrue rfl
  | (k, x) :: xs, (l, y) :: ys =>
    if hk : k = l then
      match decEq x y, decEqMembers xs ys with
      | isTrue h, isTrue h' => isTrue (by rw [hk, h, h'])
      | isFalse h, _ => isFalse (by simp [h])
      | _, isFalse h => isFalse (by simp [h])
    else isFalse (by simp [hk])
  | [], _ :: _ | _ :: _, [] => isFalse (by simp)

end

instance : DecidableEq Json := decEq

/-! ### Parts -/

def str? : Json → Option String
  | .str s => some s
  | _ => none

def bool? : Json → Option Bool
  | .bool b => some b
  | _ => none

def num? : Json → Option Number
  | .num n => some n
  | _ => none

def arr? : Json → Option (List Json)
  | .arr xs => some xs
  | _ => none

def obj? : Json → Option (List (String × Json))
  | .obj ms => some ms
  | _ => none

def isNull : Json → Bool
  | .null => true
  | _ => false

def isObject (j : Json) : Bool := j.obj?.isSome

/-! ### Depth -/

mutual

/-- How many arrays and objects stand inside each other at the deepest place. -/
def depth : Json → Nat
  | .arr xs => depthList xs + 1
  | .obj ms => depthMembers ms + 1
  | _ => 0

def depthList : List Json → Nat
  | [] => 0
  | x :: xs => max (depth x) (depthList xs)

def depthMembers : List (String × Json) → Nat
  | [] => 0
  | (_, x) :: ms => max (depth x) (depthMembers ms)

end

/-! ### Normal form -/

mutual

/-- Sorts the members of every object; the last one of a name counts. What is read from a text is
brought into this form before anything else looks at it. -/
def normalize : Json → Json
  | .arr xs => .arr (normalizeList xs)
  | .obj ms => .obj (Members.ofList (normalizeMembers ms))
  | .null => .null
  | .bool b => .bool b
  | .num n => .num n
  | .str s => .str s

def normalizeList : List Json → List Json
  | [] => []
  | x :: xs => normalize x :: normalizeList xs

def normalizeMembers : List (String × Json) → List (String × Json)
  | [] => []
  | (k, x) :: ms => (k, normalize x) :: normalizeMembers ms

end

mutual

/-- The members of every object are sorted by name, without repetition. All trees that a store holds
are of this form. -/
def Normal : Json → Prop
  | .arr xs => NormalList xs
  | .obj ms => Members.Sorted ms ∧ NormalMembers ms
  | _ => True

def NormalList : List Json → Prop
  | [] => True
  | x :: xs => Normal x ∧ NormalList xs

def NormalMembers : List (String × Json) → Prop
  | [] => True
  | (_, x) :: ms => Normal x ∧ NormalMembers ms

end

theorem normalMembers_iff {ms : List (String × Json)} :
    NormalMembers ms ↔ ∀ m ∈ ms, Normal m.2 := by
  induction ms with
  | nil => simp [NormalMembers]
  | cons m ms ih => obtain ⟨k, x⟩ := m; simp [NormalMembers, ih]

theorem normalList_iff {xs : List Json} : NormalList xs ↔ ∀ x ∈ xs, Normal x := by
  induction xs with
  | nil => simp [NormalList]
  | cons x xs ih => simp [NormalList, ih]

/-- Members that come about by insertions have been there or are among those inserted. Nothing is
made up on the way. -/
theorem mem_insertAll {ms pairs : List (String × Json)} {m : String × Json}
    (h : m ∈ Members.insertAll ms pairs) : m ∈ ms ∨ m ∈ pairs := by
  induction pairs generalizing ms with
  | nil => exact .inl h
  | cons p pairs ih =>
    rcases ih h with h | h
    · rcases Members.mem_insert h with rfl | h
      · exact .inr (by simp)
      · exact .inl h
    · exact .inr (List.mem_cons_of_mem _ h)

mutual

/-- **The normal form is normal.** By recursion on the document, as the form itself: the values of
the members are normal already when the members are sorted. -/
theorem normal_normalize : ∀ j : Json, Normal (normalize j)
  | .arr xs => by simpa [normalize, Normal] using normal_normalizeList xs
  | .obj ms => by
    simp only [normalize, Normal]
    refine ⟨Members.sorted_ofList _, normalMembers_iff.2 fun m hm => ?_⟩
    rcases mem_insertAll hm with h | h
    · simp at h
    · exact normalMembers_iff.1 (normal_normalizeMembers ms) m h
  | .null | .bool _ | .num _ | .str _ => by simp [normalize, Normal]

theorem normal_normalizeList : ∀ xs : List Json, NormalList (normalizeList xs)
  | [] => by simp [normalizeList, NormalList]
  | x :: xs => by
    simpa [normalizeList, NormalList] using ⟨normal_normalize x, normal_normalizeList xs⟩

theorem normal_normalizeMembers : ∀ ms, NormalMembers (normalizeMembers ms)
  | [] => by simp [normalizeMembers, NormalMembers]
  | (_, x) :: ms => by
    simpa [normalizeMembers, NormalMembers] using
      ⟨normal_normalize x, normal_normalizeMembers ms⟩

end

mutual

/-- **What is normal is its own normal form.** So a tree that is written and read again is not
changed by being brought into this form. -/
theorem normalize_of_normal : ∀ {j : Json}, Normal j → normalize j = j
  | .arr xs, h => by
    simp only [Normal] at h
    simp only [normalize, normalizeList_of_normal h]
  | .obj ms, h => by
    simp only [Normal] at h
    simp only [normalize, normalizeMembers_of_normal h.2, Members.ofList_of_sorted h.1]
  | .null, _ | .bool _, _ | .num _, _ | .str _, _ => rfl

theorem normalizeList_of_normal : ∀ {xs : List Json}, NormalList xs → normalizeList xs = xs
  | [], _ => rfl
  | x :: xs, h => by
    simp only [NormalList] at h
    simp only [normalizeList, normalize_of_normal h.1, normalizeList_of_normal h.2]

theorem normalizeMembers_of_normal :
    ∀ {ms : List (String × Json)}, NormalMembers ms → normalizeMembers ms = ms
  | [], _ => rfl
  | (_, x) :: ms, h => by
    simp only [NormalMembers] at h
    simp only [normalizeMembers, normalize_of_normal h.1, normalizeMembers_of_normal h.2]

end

end Json

end ConfigTree
