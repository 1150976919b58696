/-!
# Members

A collection of named members is a list of pairs in increasing order of the names, compared by code
points, so each name occurs once. Objects of a document, the keys of a path element and the
children of a schema node are all held this way. The functions below work on any list of pairs and
keep the order where it holds.

The view of a collection is `get?`. Its equations are `get?_insert` and `get?_erase`;
`sorted_insert`, `sorted_erase` and `sorted_ofList` say that the order is kept, and `ext` that an
ordered collection is determined by its view.
-/

namespace ConfigTree.Members

variable {α : Type}

/-- The names strictly increase. So each of them occurs once, and two collections with the same
members are the same list. -/
def Sorted (ms : List (String × α)) : Prop := ms.Pairwise fun a b => a.1 < b.1

instance (ms : List (String × α)) : Decidable (Sorted ms) :=
  inferInstanceAs (Decidable (ms.Pairwise fun a b => a.1 < b.1))

/-- The value of the member of that name. In a list that repeats a name it is the first one, which
is why lists are brought into order before they are asked. -/
def get? : List (String × α) → String → Option α
  | [], _ => none
  | (k, v) :: rest, key => if k = key then some v else get? rest key

/-- Whether there is a member of that name. -/
def contains (ms : List (String × α)) (key : String) : Bool := (get? ms key).isSome

/-- Adds a member at its place in the order; a member of that name is overwritten. -/
def insert : List (String × α) → String → α → List (String × α)
  | [], key, value => [(key, value)]
  | (k, v) :: rest, key, value =>
    if key < k then (key, value) :: (k, v) :: rest
    else if key = k then (key, value) :: rest
    else (k, v) :: insert rest key value

/-- Removes the member of that name, if there is one. In a list that repeats the name all of them
go. -/
def erase : List (String × α) → String → List (String × α)
  | [], _ => []
  | (k, v) :: rest, key => if k = key then erase rest key else (k, v) :: erase rest key

/-- Adds all members of the second list in turn, later ones overwriting earlier ones. The second
list need not be ordered. -/
def insertAll (ms : List (String × α)) : List (String × α) → List (String × α)
  | [] => ms
  | (k, v) :: rest => insertAll (insert ms k v) rest

/-- Orders a list of pairs; of two pairs with one name the later one counts. This is how repeated
members of a payload come to be one. -/
def ofList (pairs : List (String × α)) : List (String × α) := insertAll [] pairs

/-! ### The view of each operation -/

@[simp] theorem get?_nil (key : String) : get? ([] : List (String × α)) key = none := rfl

@[grind =] theorem get?_cons (k : String) (v : α) (rest : List (String × α)) (key : String) :
    get? ((k, v) :: rest) key = if k = key then some v else get? rest key := rfl

/-- What is found after an insertion, whether or not there has been a member of that name. -/
@[grind =] theorem get?_insert (ms : List (String × α)) (k key : String) (v : α) :
    get? (insert ms k v) key = if k = key then some v else get? ms key := by
  induction ms with
  | nil => rfl
  | cons m rest ih =>
    obtain ⟨k', v'⟩ := m
    simp only [insert]
    -- the name comes before the first one, is the first one, or comes after it
    split
    · rfl
    · split
      · next h => subst h; simp only [get?]; split <;> rfl
      · simp only [get?, ih]
        split
        · next h => subst h; split <;> simp_all
        · rfl

@[grind =] theorem get?_erase (ms : List (String × α)) (k key : String) :
    get? (erase ms k) key = if k = key then none else get? ms key := by
  induction ms with
  | nil => simp [erase]
  | cons m rest ih =>
    obtain ⟨k', v'⟩ := m
    by_cases h : k' = k
    · subst h; simp only [erase, if_true, ih, get?]; split <;> rfl
    · simp only [erase, h, if_false, get?, ih]
      by_cases h2 : k' = key
      · subst h2; simp [Ne.symm h]
      · simp [h2]

theorem mem_of_get? {ms : List (String × α)} {key : String} {v : α}
    (h : get? ms key = some v) : (key, v) ∈ ms := by
  induction ms with
  | nil => simp at h
  | cons m rest ih =>
    obtain ⟨k', v'⟩ := m
    simp only [get?] at h
    split at h
    · next hk => subst hk; simp_all
    · exact List.mem_cons_of_mem _ (ih h)

/-! ### Order -/

@[simp] theorem sorted_nil : Sorted ([] : List (String × α)) := List.Pairwise.nil

theorem sorted_cons {k : String} {v : α} {rest : List (String × α)} :
    Sorted ((k, v) :: rest) ↔ (∀ m ∈ rest, k < m.1) ∧ Sorted rest := List.pairwise_cons

theorem mem_insert {ms : List (String × α)} {k : String} {v : α} {m : String × α}
    (h : m ∈ insert ms k v) : m = (k, v) ∨ m ∈ ms := by
  induction ms with
  | nil => simpa [insert] using h
  | cons m' rest ih =>
    obtain ⟨k', v'⟩ := m'
    simp only [insert] at h
    split at h
    · simpa using h
    · split at h <;> simp only [List.mem_cons] at h ⊢
      · exact h.imp_right .inr
      · rcases h with h | h
        · exact .inr (.inl h)
        · exact (ih h).imp_right .inr

theorem mem_erase {ms : List (String × α)} {k : String} {m : String × α}
    (h : m ∈ erase ms k) : m ∈ ms := by
  induction ms with
  | nil => simp [erase] at h
  | cons m' rest ih =>
    obtain ⟨k', v'⟩ := m'
    simp only [erase] at h
    split at h
    · exact List.mem_cons_of_mem _ (ih h)
    · simp only [List.mem_cons] at h ⊢
      exact h.imp_right ih

private theorem lt_of_not_lt_of_ne {a b : String} (h : ¬ a < b) (hne : a ≠ b) : b < a := by
  grind

/-- An insertion keeps the order: where it stops, all names before are smaller, and the one that it
stops at is not. -/
theorem sorted_insert {ms : List (String × α)} (k : String) (v : α) (h : Sorted ms) :
    Sorted (insert ms k v) := by
  induction ms with
  | nil => simp [insert, Sorted]
  | cons m rest ih =>
    obtain ⟨k', v'⟩ := m
    obtain ⟨hlt, hs⟩ := sorted_cons.1 h
    simp only [insert]
    split
    · next hk =>
      refine sorted_cons.2 ⟨fun m hm => ?_, h⟩
      rcases List.mem_cons.1 hm with rfl | hm
      · exact hk
      · exact String.lt_trans hk (hlt m hm)
    · next hk =>
      split
      · next heq => subst heq; exact sorted_cons.2 ⟨hlt, hs⟩
      · next hne =>
        refine sorted_cons.2 ⟨fun m hm => ?_, ih hs⟩
        rcases mem_insert hm with rfl | hm
        · exact lt_of_not_lt_of_ne hk hne
        · exact hlt m hm

theorem sorted_erase {ms : List (String × α)} (k : String) (h : Sorted ms) :
    Sorted (erase ms k) := by
  induction ms with
  | nil => simp [erase]
  | cons m rest ih =>
    obtain ⟨k', v'⟩ := m
    obtain ⟨hlt, hs⟩ := sorted_cons.1 h
    simp only [erase]
    split
    · exact ih hs
    · exact sorted_cons.2 ⟨fun m hm => hlt m (mem_erase hm), ih hs⟩

theorem sorted_insertAll {ms : List (String × α)} (pairs : List (String × α)) (h : Sorted ms) :
    Sorted (insertAll ms pairs) := by
  induction pairs generalizing ms with
  | nil => exact h
  | cons m rest ih => exact ih (sorted_insert _ _ h)

theorem sorted_ofList (pairs : List (String × α)) : Sorted (ofList pairs) :=
  sorted_insertAll pairs sorted_nil

theorem insert_of_forall_lt {ms : List (String × α)} {k : String} (v : α)
    (h : ∀ m ∈ ms, m.1 < k) : insert ms k v = ms ++ [(k, v)] := by
  induction ms with
  | nil => rfl
  | cons m rest ih =>
    obtain ⟨k', v'⟩ := m
    have hk : k' < k := h (k', v') (by simp)
    have hne : k ≠ k' := fun e => String.lt_irrefl k (e ▸ hk)
    simp only [insert, String.lt_asymm hk, hne, if_false, List.cons_append]
    rw [ih fun m hm => h m (List.mem_cons_of_mem _ hm)]

/-- Members that are in order after those that are there already are added at the end, so nothing is
overwritten. -/
theorem insertAll_of_sorted {acc ms : List (String × α)} (h : Sorted (acc ++ ms)) :
    insertAll acc ms = acc ++ ms := by
  induction ms generalizing acc with
  | nil => simp [insertAll]
  | cons m rest ih =>
    obtain ⟨k, v⟩ := m
    have hlt : ∀ m ∈ acc, m.1 < k := fun m hm =>
      (List.pairwise_append.1 h).2.2 m hm (k, v) (by simp)
    have happ : acc ++ (k, v) :: rest = (acc ++ [(k, v)]) ++ rest := by simp
    simp only [insertAll, insert_of_forall_lt v hlt]
    rw [ih (happ ▸ h), ← happ]

theorem ofList_of_sorted {ms : List (String × α)} (h : Sorted ms) : ofList ms = ms :=
  insertAll_of_sorted (by simpa using h)

theorem get?_eq_none_of_lt {ms : List (String × α)} {key : String}
    (h : ∀ m ∈ ms, key < m.1) : get? ms key = none := by
  induction ms with
  | nil => rfl
  | cons m rest ih =>
    obtain ⟨k', v'⟩ := m
    have hk : key < k' := h (k', v') (by simp)
    have hne : k' ≠ key := fun e => String.lt_irrefl key (e ▸ hk)
    simp only [get?, hne, if_false]
    exact ih fun m hm => h m (List.mem_cons_of_mem _ hm)

/-- **Ordered collections with one view are equal.** This lets later proofs compare objects by what
is found in them, name by name, instead of comparing lists. -/
theorem ext {l r : List (String × α)} (hl : Sorted l) (hr : Sorted r)
    (h : ∀ key, get? l key = get? r key) : l = r := by
  induction l generalizing r with
  | nil =>
    cases r with
    | nil => rfl
    | cons m rest =>
      have := h m.1
      simp [get?] at this
  | cons m rest ih =>
    obtain ⟨k, v⟩ := m
    obtain ⟨hlt, hs⟩ := sorted_cons.1 hl
    cases r with
    | nil => have := h k; simp [get?] at this
    | cons m' rest' =>
      obtain ⟨k', v'⟩ := m'
      obtain ⟨hlt', hs'⟩ := sorted_cons.1 hr
      -- the first names are equal: each of them is found in the other list, so neither can be the
      -- smaller one
      have hk : k = k' := by
        by_cases hne : k = k'
        · exact hne
        · have h1 := h k'
          have h2 := h k
          simp only [get?, if_true, hne, Ne.symm hne, if_false] at h1 h2
          have := hlt _ (mem_of_get? h1)
          have := hlt' _ (mem_of_get? h2.symm)
          grind
      subst hk
      have hv : v = v' := by simpa [get?] using h k
      subst hv
      -- neither rest has the first name again, so what is found in the rests is the same too
      have : rest = rest' := by
        refine ih hs hs' fun key => ?_
        by_cases hkey : k = key
        · subst hkey
          rw [get?_eq_none_of_lt hlt, get?_eq_none_of_lt hlt']
        · simpa [get?, hkey] using h key
      rw [this]

end ConfigTree.Members
