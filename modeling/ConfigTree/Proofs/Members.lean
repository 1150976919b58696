import ConfigTree.Members
import ConfigTree.Proofs.Results
import Mathlib.Data.List.Nodup
import Mathlib.Data.List.Perm.Basic

/-!
# Views of members

What the operations on members do is said by their view, `Members.get?`. Here are the views of those
operations that work on all members of a list at once, and what the view says about the list.

* `get?_insertAll`: of an ordered list that is added, each member counts.
* `get?_map`: a function of the members that keeps the names works on the view.
* `forall₂_of_sameNames`: the members of two ordered collections with the same names are in step.
* `InStep`: two collections have related members under the same names, all of them names that a
  third one knows. It is kept by each operation.
-/

namespace ConfigTree.Members

variable {α β : Type}

/-! ### The view and the list -/

/-- What is in an ordered list is found, since no other member has its name. In a list that repeats
names only the first one of a name would be. -/
theorem get?_of_mem {ms : List (String × α)} (hs : Sorted ms) {key : String} {v : α}
    (h : (key, v) ∈ ms) : get? ms key = some v := by
  induction ms with
  | nil => simp at h
  | cons m rest ih =>
    obtain ⟨k, w⟩ := m
    obtain ⟨hlt, hrest⟩ := sorted_cons.1 hs
    rcases List.mem_cons.1 h with heq | hmem
    · -- it is the first member, or one after it, whose name is larger
      obtain ⟨rfl, rfl⟩ := Prod.mk.inj heq
      rw [get?_cons, if_pos rfl]
    · have hne : k ≠ key := fun e => String.lt_irrefl key (e ▸ hlt _ hmem)
      rw [get?_cons, if_neg hne]
      exact ih hrest hmem

theorem get?_eq_none_iff {ms : List (String × α)} {key : String} :
    get? ms key = none ↔ ∀ m ∈ ms, m.1 ≠ key := by
  induction ms with
  | nil => exact ⟨fun _ _ hm => absurd hm List.not_mem_nil, fun _ => rfl⟩
  | cons m ms ih =>
    obtain ⟨k, v⟩ := m
    rw [get?_cons, List.forall_mem_cons, ← ih]
    by_cases hkey : k = key
    · simp [hkey]
    · simp [hkey]

theorem isSome_get?_iff {ms : List (String × α)} {key : String} :
    (get? ms key).isSome ↔ key ∈ ms.map Prod.fst := by
  constructor
  · intro h
    obtain ⟨v, hv⟩ := Option.isSome_iff_exists.1 h
    exact List.mem_map.2 ⟨(key, v), mem_of_get? hv, rfl⟩
  · intro h
    obtain ⟨m, hm, hname⟩ := List.mem_map.1 h
    cases hget : get? ms key with
    | some v => rfl
    | none => exact absurd hname (get?_eq_none_iff.1 hget m hm)

/-- Members are empty if nothing is found in them, in whatever order they are. The order is not
needed, since the first member is always found. -/
theorem eq_nil_iff {ms : List (String × α)} : ms = [] ↔ ∀ key, get? ms key = none := by
  constructor
  · rintro rfl key
    rfl
  · intro h
    cases ms with
    | nil => rfl
    | cons m rest =>
      have := h m.1
      simp [get?] at this

/-- The last value that is inserted under a name counts. -/
theorem insert_insert (ms : List (String × α)) (key : String) (v w : α) :
    insert (insert ms key v) key w = insert ms key w := by
  induction ms with
  | nil => simp [insert]
  | cons m ms ih =>
    obtain ⟨k, x⟩ := m
    by_cases hlt : key < k
    · simp [insert, hlt]
    · by_cases heq : key = k
      · simp [insert, heq]
      · simp [insert, hlt, heq, ih]

/-- Inserting what is there changes nothing. -/
theorem insert_of_get? {ms : List (String × α)} {key : String} {v : α} (hs : Sorted ms)
    (h : get? ms key = some v) : insert ms key v = ms := by
  refine ext (sorted_insert _ _ hs) hs fun k => ?_
  rw [get?_insert]
  split
  · next heq => rw [← heq, h]
  · rfl

/-- Removing what has been inserted leaves no member of that name. -/
theorem erase_insert {ms : List (String × α)} (hs : Sorted ms) (key : String) (v : α) :
    erase (insert ms key v) key = erase ms key := by
  refine ext (sorted_erase _ (sorted_insert _ _ hs)) (sorted_erase _ hs) fun k => ?_
  rw [get?_erase, get?_erase, get?_insert]
  split <;> rfl

/-! ### Views of lists of members -/

/-- A member is overwritten by one for which `f` lists the same. -/
theorem flatMap_insert {β : Type} {f : String × α → List β} {ms : List (String × α)} {key : String}
    {v w : α} (hs : Sorted ms) (h : get? ms key = some v) (hf : f (key, w) = f (key, v)) :
    (insert ms key w).flatMap f = ms.flatMap f := by
  induction ms with
  | nil => cases h
  | cons m rest ih =>
    obtain ⟨k, x⟩ := m
    obtain ⟨hlt, hs⟩ := sorted_cons.1 hs
    rw [get?_cons] at h
    split at h
    · next hk =>
      obtain rfl := Option.some.inj h
      subst hk
      rw [insert, if_neg (String.lt_irrefl k), if_pos rfl, List.flatMap_cons, List.flatMap_cons, hf]
    · next hk =>
      -- the member is further on, where the names are greater
      have hkey : ¬ key < k := String.lt_asymm (hlt _ (mem_of_get? h))
      rw [insert, if_neg hkey, if_neg (Ne.symm hk), List.flatMap_cons, List.flatMap_cons, ih hs h]

/-- A member is removed for which `f` lists nothing. -/
theorem flatMap_erase {β : Type} {f : String × α → List β} {ms : List (String × α)} {key : String}
    (hf : ∀ v, (key, v) ∈ ms → f (key, v) = []) : (erase ms key).flatMap f = ms.flatMap f := by
  induction ms with
  | nil => rfl
  | cons m rest ih =>
    obtain ⟨k, x⟩ := m
    have ih := ih fun v hv => hf v (List.mem_cons_of_mem _ hv)
    rw [erase, List.flatMap_cons]
    split
    · next hk =>
      subst hk
      rw [hf x List.mem_cons_self, List.nil_append, ih]
    · rw [List.flatMap_cons, ih]

theorem get?_map (f : String × α → β) (ms : List (String × α)) (key : String) :
    get? (ms.map fun m => (m.1, f m)) key = (get? ms key).map fun v => f (key, v) := by
  induction ms with
  | nil => rfl
  | cons m rest ih =>
    obtain ⟨k, v⟩ := m
    simp only [List.map_cons, get?]
    split
    · next heq => subst heq; rfl
    · exact ih

theorem sorted_map {ms : List (String × α)} (f : String × α → β) (h : Sorted ms) :
    Sorted (ms.map fun m => (m.1, f m)) := by
  unfold Sorted
  rw [List.pairwise_map]
  exact h

theorem get?_append (ms rest : List (String × α)) (key : String) :
    get? (ms ++ rest) key = (get? ms key).or (get? rest key) := by
  induction ms with
  | nil => simp
  | cons m ms ih =>
    obtain ⟨k, v⟩ := m
    rw [List.cons_append, get?_cons, get?_cons, ih]
    split <;> rfl

theorem get?_filter_ne (ms : List (String × α)) (name key : String) :
    get? (ms.filter fun m => m.1 != name) key = if key = name then none else get? ms key := by
  induction ms with
  | nil => split <;> rfl
  | cons m ms ih =>
    obtain ⟨k, v⟩ := m
    rw [List.filter_cons]
    by_cases hk : k = name
    · rw [if_neg (by simp [hk]), ih, get?_cons]
      split
      · rfl
      · next hne => rw [if_neg fun heq => hne (heq.symm.trans hk)]
    · rw [if_pos (by simp [hk]), get?_cons, get?_cons, ih]
      split
      · next heq => rw [if_neg fun heq' => hk (heq.trans heq')]
      · rfl

/-- Of members with different names, a filter by one of the names leaves the one member that has
it. -/
theorem filter_name_of_nodup {ms : List (String × α)} (h : (ms.map Prod.fst).Nodup) {name : String}
    {v : α} (hget : get? ms name = some v) : ms.filter (fun m => m.1 == name) = [(name, v)] := by
  induction ms with
  | nil => cases hget
  | cons m ms ih =>
    obtain ⟨k, w⟩ := m
    obtain ⟨hfresh, hms⟩ := List.nodup_cons.1 h
    rw [get?_cons] at hget
    by_cases hk : k = name
    · subst hk
      rw [if_pos rfl] at hget
      obtain rfl := Option.some.inj hget
      -- the name is not met again further on
      have hnone : ms.filter (fun m => m.1 == k) = [] := by
        rw [List.filter_eq_nil_iff]
        intro m hm heq
        have hname : m.1 = k := beq_iff_eq.1 heq
        exact hfresh (List.mem_map.2 ⟨m, hm, hname⟩)
      rw [List.filter_cons_of_pos (by simp), hnone]
    · rw [if_neg hk] at hget
      rw [List.filter_cons_of_neg (by simp [hk]), ih hms hget]

/-- Of several members of one name that are added, the last one counts. -/
theorem get?_insertAll_reverse (ms pairs : List (String × α)) (key : String) :
    get? (insertAll ms pairs) key = (get? pairs.reverse key).or (get? ms key) := by
  induction pairs generalizing ms with
  | nil => rfl
  | cons m pairs ih =>
    obtain ⟨k, v⟩ := m
    rw [insertAll, ih, get?_insert, List.reverse_cons, get?_append, get?_cons, get?_nil]
    split <;> simp

theorem get?_insertAll {pairs : List (String × α)} (h : Sorted pairs) (ms : List (String × α))
    (key : String) : get? (insertAll ms pairs) key = (get? pairs key).or (get? ms key) := by
  induction pairs generalizing ms with
  | nil => rfl
  | cons m pairs ih =>
    obtain ⟨k, v⟩ := m
    obtain ⟨hlt, hrest⟩ := sorted_cons.1 h
    rw [insertAll, ih hrest, get?_insert, get?_cons]
    -- the pairs behind have later names, so they do not override this one
    split
    · next heq =>
      subst heq
      rw [get?_eq_none_of_lt hlt]
      rfl
    · rfl

/-- The members of an ordered collection of some pairs are among the pairs. -/
theorem mem_of_mem_ofList {pairs : List (String × α)} {m : String × α} (h : m ∈ ofList pairs) :
    m ∈ pairs := by
  have hget := get?_of_mem (sorted_ofList pairs) h
  rw [ofList, get?_insertAll_reverse, get?_nil, Option.or_none] at hget
  exact List.mem_reverse.1 (mem_of_get? hget)

theorem get?_of_mem_of_nodup {ms : List (String × α)} (h : (ms.map Prod.fst).Nodup)
    {m : String × α} (hm : m ∈ ms) : get? ms m.1 = some m.2 := by
  induction ms with
  | nil => cases hm
  | cons m' ms ih =>
    obtain ⟨k, v⟩ := m'
    rw [List.map_cons, List.nodup_cons] at h
    rcases List.mem_cons.1 hm with rfl | hm
    · rw [get?_cons, if_pos rfl]
    · have hne : k ≠ m.1 := fun heq => h.1 (List.mem_map.2 ⟨m, hm, heq.symm⟩)
      rw [get?_cons, if_neg hne, ih h.2 hm]

/-- Pairs with different names are all kept. -/
theorem mem_ofList_iff {pairs : List (String × α)} (h : (pairs.map Prod.fst).Nodup)
    {m : String × α} : m ∈ ofList pairs ↔ m ∈ pairs := by
  refine ⟨mem_of_mem_ofList, fun hm => mem_of_get? (v := m.2) ?_⟩
  have hreverse : (pairs.reverse.map Prod.fst).Nodup := by
    rw [List.map_reverse]
    exact List.pairwise_reverse.2 (h.imp Ne.symm)
  rw [ofList, get?_insertAll_reverse, get?_of_mem_of_nodup hreverse (List.mem_reverse.2 hm)]
  rfl

/-- Pairs that are the members of an ordered collection, in any order, are put into its order. So
the collection is determined by what is in it. -/
theorem ofList_eq_of_mem_iff {pairs ms : List (String × α)} (hs : Sorted ms)
    (h : ∀ m, m ∈ pairs ↔ m ∈ ms) : ofList pairs = ms := by
  refine ext (sorted_ofList pairs) hs fun key => ?_
  rw [ofList, get?_insertAll_reverse, get?_nil, Option.or_none]
  cases hpair : get? pairs.reverse key with
  | some v =>
    have hmem := (h _).1 (List.mem_reverse.1 (mem_of_get? hpair))
    rw [get?_of_mem hs hmem]
  | none =>
    cases hv : get? ms key with
    | none => rfl
    | some v =>
      -- a member of that name would be among the pairs
      have hmem := List.mem_reverse.2 ((h _).2 (mem_of_get? hv))
      rw [get?_eq_none_iff] at hpair
      exact absurd rfl (hpair _ hmem)

/-- No two members of an ordered collection have one name. -/
theorem nodup_names {ms : List (String × α)} (hs : Sorted ms) : (ms.map Prod.fst).Nodup := by
  refine List.pairwise_map.2 (hs.imp fun {a b} hlt heq => ?_)
  exact String.lt_irrefl b.1 (heq ▸ hlt)

/-- An ordered collection is as long as a list of its names just if the list has none twice. -/
theorem length_eq_iff_nodup {ms : List (String × α)} {names : List String} (hs : Sorted ms)
    (h : ∀ name, (get? ms name).isSome ↔ name ∈ names) :
    ms.length = names.length ↔ names.Nodup := by
  have hmem : ∀ name, name ∈ ms.map Prod.fst ↔ name ∈ names := fun name => by
    rw [← isSome_get?_iff, h]
  have hlength : (ms.map Prod.fst).length = ms.length := List.length_map _
  rw [← hlength]
  constructor
  · intro hsame
    -- a list that has all names, and is no longer, has each of them once
    have hsub : (ms.map Prod.fst).Subperm names :=
      List.subperm_of_subset (nodup_names hs) fun name hname => (hmem name).1 hname
    exact (hsub.perm_of_length_le (Nat.le_of_eq hsame.symm)).nodup_iff.1 (nodup_names hs)
  · exact fun hnodup => ((List.perm_ext_iff_of_nodup (nodup_names hs) hnodup).2 hmem).length_eq

/-- Pairs with different names are found under them in whatever order. -/
theorem get?_ofList_of_nodup {pairs : List (String × α)} (h : (pairs.map Prod.fst).Nodup)
    (key : String) : get? (ofList pairs) key = get? pairs key := by
  cases hget : get? pairs key with
  | some v => exact get?_of_mem (sorted_ofList pairs) ((mem_ofList_iff h).2 (mem_of_get? hget))
  | none =>
    rw [get?_eq_none_iff] at hget ⊢
    exact fun m hm => hget m (mem_of_mem_ofList hm)

/-- Ordering pairs with different names does nothing but change their order. -/
theorem perm_ofList {pairs : List (String × α)} (h : (pairs.map Prod.fst).Nodup) :
    (ofList pairs).Perm pairs :=
  (List.perm_ext_iff_of_nodup (nodup_names (sorted_ofList pairs)).of_map h.of_map).2 fun _ =>
    mem_ofList_iff h

/-- **Pairs can be ordered before what they are related to.** What they are related to one by one is
an ordered collection, so it is found again by ordering. -/
theorem exists_forall₂_ofList {R : String × α → String × β → Prop} {pairs : List (String × α)}
    {cs : List (String × β)} (h : (pairs.map Prod.fst).Nodup) (hs : Sorted cs)
    (hcs : List.Forall₂ R pairs cs) :
    ∃ out, List.Forall₂ R (ofList pairs) out ∧ ofList out = cs := by
  obtain ⟨out, hout, hperm⟩ := List.perm_comp_forall₂ (perm_ofList h) hcs
  exact ⟨out, hout, ofList_eq_of_mem_iff hs fun _ => hperm.mem_iff⟩

/-! ### Two collections with the same names -/

/-- Two collections have the same names. What stands under a name may differ, and so may the
order. -/
def SameNames (ms : List (String × α)) (cs : List (String × β)) : Prop :=
  ∀ key, (get? ms key).isSome = (get? cs key).isSome

theorem SameNames.exists_right {ms : List (String × α)} {cs : List (String × β)}
    (h : SameNames ms cs) {key : String} {v : α} (hv : get? ms key = some v) :
    ∃ w, get? cs key = some w :=
  Option.isSome_iff_exists.1 (by rw [← h key, hv]; rfl)

theorem SameNames.eq_none {ms : List (String × α)} {cs : List (String × β)} (h : SameNames ms cs)
    {key : String} (hnone : get? ms key = none) : get? cs key = none :=
  Option.isSome_eq_false_iff.1 (by rw [← h key, hnone]; rfl) |> Option.isNone_iff_eq_none.1

theorem SameNames.symm {ms : List (String × α)} {cs : List (String × β)} (h : SameNames ms cs) :
    SameNames cs ms := fun key => (h key).symm

theorem SameNames.insert {ms : List (String × α)} {cs : List (String × β)} (h : SameNames ms cs)
    (key : String) (v : α) (w : β) : SameNames (insert ms key v) (insert cs key w) := by
  intro k
  rw [get?_insert, get?_insert]
  split
  · rfl
  · exact h k

theorem SameNames.erase {ms : List (String × α)} {cs : List (String × β)} (h : SameNames ms cs)
    (key : String) : SameNames (erase ms key) (erase cs key) := by
  intro k
  rw [get?_erase, get?_erase]
  split
  · rfl
  · exact h k

/-- Ordered collections with the same names have them at the same places. -/
theorem forall₂_of_sameNames {ms : List (String × α)} {cs : List (String × β)} (hs : Sorted ms)
    (hs' : Sorted cs) (h : SameNames ms cs) : List.Forall₂ (fun m c => m.1 = c.1) ms cs := by
  -- without their values the two collections have the same view, so they are equal
  have hview : ∀ key, get? (ms.map fun m => (m.1, ())) key
      = get? (cs.map fun c => (c.1, ())) key := by
    intro key
    have hkey := h key
    rw [get?_map fun _ => (), get?_map fun _ => ()]
    cases hm : get? ms key <;> cases hc : get? cs key <;> simp [hm, hc] at hkey ⊢
  have hnames := ext (sorted_map _ hs) (sorted_map _ hs') hview
  rw [← List.forall₂_eq_eq_eq, List.forall₂_map_left_iff, List.forall₂_map_right_iff] at hnames
  exact hnames.imp fun _ _ heq => (Prod.mk.inj heq).1

/-- The members of two ordered collections with the same names, in step, as the views have them. -/
theorem forall₂_get?_of_sameNames {ms : List (String × α)} {cs : List (String × β)} (hs : Sorted ms)
    (hs' : Sorted cs) (h : SameNames ms cs) : List.Forall₂ (fun m c => m.1 = c.1 ∧
      get? ms m.1 = some m.2 ∧ get? cs m.1 = some c.2) ms cs := by
  have hstep := forall₂_of_sameNames hs hs' h
  refine List.forall₂_iff_zip.2 ⟨hstep.length_eq, fun {m c} hmem => ?_⟩
  have heq : m.1 = c.1 := List.forall₂_zip hstep hmem
  have hm := get?_of_mem hs (List.of_mem_zip hmem).1
  have hc := get?_of_mem hs' (List.of_mem_zip hmem).2
  exact ⟨heq, hm, heq ▸ hc⟩

/-- Lists of members with one name at each place have the same names. -/
theorem sameNames_of_forall₂ {ms : List (String × α)} {cs : List (String × β)}
    (h : List.Forall₂ (fun m c => m.1 = c.1) ms cs) : SameNames ms cs := by
  intro key
  induction h with
  | nil => rfl
  | cons heq _ ih =>
    rw [get?, get?, heq]
    split
    · rfl
    · exact ih

/-- Members that stand at one place have one name, so the views have them under it. -/
theorem rel_of_get? {P : String × α → String × β → Prop} {ms : List (String × α)}
    {cs : List (String × β)} (h : List.Forall₂ (fun m c => m.1 = c.1 ∧ P m c) ms cs)
    {key : String} {v : α} {w : β} (hv : get? ms key = some v) (hw : get? cs key = some w) :
    P (key, v) (key, w) := by
  -- both lists have the same names in the same order, so the look-ups stop at the same place
  induction h with
  | nil => cases hv
  | @cons m c _ _ hmc _ ih =>
    obtain ⟨k, v'⟩ := m
    obtain ⟨k', w'⟩ := c
    obtain ⟨heq, hp⟩ := hmc
    dsimp only at heq
    subst heq
    rw [get?_cons] at hv hw
    split at hv
    · next hkey =>
      rw [if_pos hkey] at hw
      obtain rfl := Option.some.inj hv
      obtain rfl := Option.some.inj hw
      exact hkey ▸ hp
    · next hkey =>
      rw [if_neg hkey] at hw
      exact ih hv hw

theorem sorted_of_forall₂ {ms : List (String × α)} {cs : List (String × β)} (hs : Sorted ms)
    (h : List.Forall₂ (fun m c => m.1 = c.1) ms cs) : Sorted cs := by
  induction h with
  | nil => exact sorted_nil
  | cons heq hrest ih =>
    obtain ⟨hlt, hs⟩ := sorted_cons.1 hs
    refine sorted_cons.2 ⟨fun c hc => ?_, ih hs⟩
    obtain ⟨m, hm, hmc⟩ := exists_mem_of_forall₂ hrest hc
    rw [← heq, ← hmc]
    exact hlt m hm

/-! ### Collections whose members are related -/

/-- Two ordered collections have the same names, each of them known to `kinds`, and what they have
under one name is related as its kind says. This is the shape of every statement about the members
of an object and the children of its node. -/
structure InStep {κ : Type} (R : κ → α → β → Prop) (kinds : List (String × κ))
    (ms : List (String × α)) (vs : List (String × β)) : Prop where
  sorted : Sorted ms
  sorted' : Sorted vs
  names : SameNames ms vs
  known : ∀ (name : String) (w : α), get? ms name = some w → (get? kinds name).isSome
  members : ∀ (name : String) (kind : κ) (w : α) (v : β), get? kinds name = some kind →
    get? ms name = some w → get? vs name = some v → R kind w v

section

variable {κ : Type} {R : κ → α → β → Prop} {kinds : List (String × κ)} {ms : List (String × α)}
  {vs : List (String × β)} {name : String} {kind : κ} {w : α} {v : β}

theorem InStep.nil : InStep R kinds [] [] :=
  ⟨sorted_nil, sorted_nil, fun _ => rfl, fun _ _ hw => (nomatch hw), fun _ _ _ _ _ hw => nomatch hw⟩

theorem InStep.exists_right (h : InStep R kinds ms vs) (hkind : get? kinds name = some kind)
    (hw : get? ms name = some w) : ∃ v, get? vs name = some v ∧ R kind w v := by
  obtain ⟨v, hv⟩ := h.names.exists_right hw
  exact ⟨v, hv, h.members name kind w v hkind hw hv⟩

/-- Related members are inserted under one name, of a kind that is known. -/
theorem InStep.insert (h : InStep R kinds ms vs) (hkind : get? kinds name = some kind)
    (hw : R kind w v) : InStep R kinds (insert ms name w) (insert vs name v) := by
  -- the new member is looked at apart from the others
  refine ⟨sorted_insert _ _ h.sorted, sorted_insert _ _ h.sorted', h.names.insert name w v, ?_, ?_⟩
  · intro key x hx
    rw [get?_insert] at hx
    split at hx
    · next heq => exact heq ▸ Option.isSome_of_eq_some hkind
    · exact h.known key x hx
  · intro key kind' x y hk hx hy
    rw [get?_insert] at hx hy
    split at hx
    · -- under the new name
      next heq =>
      rw [if_pos heq] at hy
      obtain rfl := Option.some.inj hx
      obtain rfl := Option.some.inj hy
      obtain rfl := Option.some.inj (hkind.symm.trans (heq ▸ hk))
      exact hw
    · next hne =>
      rw [if_neg hne] at hy
      exact h.members key kind' x y hk hx hy

theorem InStep.erase (h : InStep R kinds ms vs) (name : String) :
    InStep R kinds (erase ms name) (erase vs name) := by
  refine ⟨sorted_erase _ h.sorted, sorted_erase _ h.sorted', h.names.erase name, ?_, ?_⟩
  · intro key x hx
    rw [get?_erase] at hx
    split at hx
    · cases hx
    · exact h.known key x hx
  · intro key kind x y hk hx hy
    rw [get?_erase] at hx hy
    split at hx
    · cases hx
    · next hne =>
      rw [if_neg hne] at hy
      exact h.members key kind x y hk hx hy

/-- Members in step are so one by one, and the other way round. The view is what statements are
about, and the list what inductions go along. -/
theorem inStep_iff_forall₂ : InStep R kinds ms vs ↔ Sorted ms ∧ List.Forall₂ (fun m m' =>
    m.1 = m'.1 ∧ ∃ kind, get? kinds m.1 = some kind ∧ R kind m.2 m'.2) ms vs := by
  constructor
  · intro h
    refine ⟨h.sorted, (forall₂_get?_of_sameNames h.sorted h.sorted' h.names).imp ?_⟩
    rintro m m' ⟨heq, hm, hm'⟩
    obtain ⟨kind, hkind⟩ := Option.isSome_iff_exists.1 (h.known _ _ hm)
    exact ⟨heq, kind, hkind, h.members _ _ _ _ hkind hm hm'⟩
  · rintro ⟨hsorted, h⟩
    -- members at one place have one name, so both lists have the same view
    have hnames := h.imp fun _ _ hm => hm.1
    refine ⟨hsorted, sorted_of_forall₂ hsorted hnames, sameNames_of_forall₂ hnames, ?_, ?_⟩
    · intro name w hw
      obtain ⟨m', -, -, kind, hkind, -⟩ := exists_mem_right_of_forall₂ h (mem_of_get? hw)
      exact Option.isSome_of_eq_some hkind
    · intro name kind w v hkind hw hv
      obtain ⟨kind', hkind', hr⟩ := rel_of_get? h hw hv
      obtain rfl := Option.some.inj (hkind.symm.trans hkind')
      exact hr

/-- Members in step that are added to members in step. By induction on the added pairs, so these are
taken one by one and not by their view. -/
theorem InStep.insertAll {pairs : List (String × α)} {pairs' : List (String × β)}
    (h : InStep R kinds ms vs) (hpairs : InStep R kinds pairs pairs') :
    InStep R kinds (insertAll ms pairs) (insertAll vs pairs') := by
  replace hpairs := (inStep_iff_forall₂.1 hpairs).2
  induction hpairs generalizing ms vs with
  | nil => exact h
  | @cons m m' _ _ hm _ ih =>
    obtain ⟨k, x⟩ := m
    obtain ⟨k', y⟩ := m'
    obtain ⟨heq, kind, hkind, hxy⟩ := hm
    dsimp only at heq
    subst heq
    exact ih (h.insert hkind hxy)

end

end ConfigTree.Members
