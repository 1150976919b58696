import Mathlib.Data.List.Forall2

/-!
# Results of steps that may fail

When a chain of steps succeeds, each of its steps has; when all items of a list are treated in turn,
the results stand at the places of the items. `Together` relates two chains of steps that do the
same on different data: either both fail, or both succeed and their results are related.

Nothing here is about trees. The lemmas let a proof take a chain of steps apart by name, without
opening how such chains are built.
-/

namespace ConfigTree

variable {ε δ α β γ : Type}

/-- When a chain of steps succeeds, each of its steps does. With this and its companions below, a
computation is taken apart by `obtain` and none of the functions in it is unfolded. -/
theorem bind_eq_ok_iff {x : Except ε α} {f : α → Except ε β} {b : β} :
    x >>= f = .ok b ↔ ∃ a, x = .ok a ∧ f a = .ok b := by
  cases x with
  | error e => exact ⟨fun h => (nomatch h), fun ⟨_, h, _⟩ => (nomatch h)⟩
  | ok a => exact ⟨fun h => ⟨a, rfl, h⟩, fun ⟨_, h, hf⟩ => by cases h; exact hf⟩

theorem map_eq_ok_iff {x : Except ε α} {f : α → β} {b : β} :
    x.map f = .ok b ↔ ∃ a, x = .ok a ∧ f a = b := by
  cases x with
  | error e => exact ⟨fun h => (nomatch h), fun ⟨_, h, _⟩ => (nomatch h)⟩
  | ok a => exact ⟨fun h => ⟨a, rfl, Except.ok.inj h⟩, fun ⟨_, h, hf⟩ => by cases h; rw [← hf]; rfl⟩

theorem mapError_eq_ok_iff {x : Except ε α} {f : ε → δ} {a : α} :
    x.mapError f = .ok a ↔ x = .ok a := by
  cases x with
  | error e => exact ⟨fun h => (nomatch h), fun h => (nomatch h)⟩
  | ok a => exact ⟨fun h => congrArg _ (Except.ok.inj h), fun h => congrArg _ (Except.ok.inj h)⟩

/-- When a chain of steps fails, one of its steps does. -/
theorem bind_eq_error_iff {x : Except ε α} {f : α → Except ε β} {e : ε} :
    x >>= f = .error e ↔ x = .error e ∨ ∃ a, x = .ok a ∧ f a = .error e := by
  cases x with
  | error e' =>
    exact ⟨fun h => .inl (congrArg _ (Except.error.inj h)),
      fun h => h.elim (fun h => congrArg _ (Except.error.inj h)) fun ⟨_, h, _⟩ => (nomatch h)⟩
  | ok a =>
    exact ⟨fun h => .inr ⟨a, rfl, h⟩,
      fun h => h.elim (fun h => (nomatch h)) fun ⟨_, h, hf⟩ => by cases h; exact hf⟩

theorem map_eq_error_iff {x : Except ε α} {f : α → β} {e : ε} :
    x.map f = .error e ↔ x = .error e := by
  cases x with
  | error e' =>
    exact ⟨fun h => congrArg _ (Except.error.inj h), fun h => congrArg _ (Except.error.inj h)⟩
  | ok a => exact ⟨fun h => (nomatch h), fun h => (nomatch h)⟩

theorem mapError_eq_error_iff {x : Except ε α} {f : ε → δ} {d : δ} :
    x.mapError f = .error d ↔ ∃ e, x = .error e ∧ f e = d := by
  cases x with
  | error e =>
    exact ⟨fun h => ⟨e, rfl, Except.error.inj h⟩,
      fun ⟨_, h, hf⟩ => by rw [Except.error.inj h, ← hf]; rfl⟩
  | ok a => exact ⟨fun h => (nomatch h), fun ⟨_, h, _⟩ => (nomatch h)⟩

/-! ### Items in turn -/

/-- Items in turn succeed if each of them does, and the results stand at the places of the items. So
nothing of the order of evaluation is left in a success. -/
theorem mapM_eq_ok_iff {f : α → Except ε β} {xs : List α} {ys : List β} :
    xs.mapM f = .ok ys ↔ List.Forall₂ (fun x y => f x = .ok y) xs ys := by
  -- on the list, with the results as they come
  induction xs generalizing ys with
  | nil =>
    rw [List.mapM_nil, List.forall₂_nil_left_iff]
    exact ⟨fun h => (Except.ok.inj h).symm, fun h => congrArg _ h.symm⟩
  | cons x xs ih =>
    rw [List.mapM_cons, bind_eq_ok_iff, List.forall₂_cons_left_iff]
    constructor
    · rintro ⟨y, hy, h⟩
      obtain ⟨ys', hys, heq⟩ := bind_eq_ok_iff.1 h
      exact ⟨y, ys', hy, ih.1 hys, (Except.ok.inj heq).symm⟩
    · rintro ⟨y, ys', hy, hys, rfl⟩
      exact ⟨y, hy, bind_eq_ok_iff.2 ⟨ys', ih.2 hys, rfl⟩⟩

theorem mapM_eq_some_iff {f : α → Option β} {xs : List α} {ys : List β} :
    xs.mapM f = some ys ↔ List.Forall₂ (fun x y => f x = some y) xs ys := by
  induction xs generalizing ys with
  | nil =>
    rw [List.mapM_nil, List.forall₂_nil_left_iff]
    exact ⟨fun h => (Option.some.inj h).symm, fun h => congrArg _ h.symm⟩
  | cons x xs ih =>
    rw [List.mapM_cons, Option.bind_eq_bind, Option.bind_eq_some_iff, List.forall₂_cons_left_iff]
    constructor
    · rintro ⟨y, hy, h⟩
      rw [Option.bind_eq_bind, Option.bind_eq_some_iff] at h
      obtain ⟨ys', hys, heq⟩ := h
      exact ⟨y, ys', hy, ih.1 hys, (Option.some.inj heq).symm⟩
    · rintro ⟨y, ys', hy, hys, rfl⟩
      refine ⟨y, hy, ?_⟩
      rw [Option.bind_eq_bind, Option.bind_eq_some_iff]
      exact ⟨ys', ih.2 hys, rfl⟩

/-- When items in turn come to an error, it is that of the first item that has one. -/
theorem mapM_eq_error_iff {f : α → Except ε β} {xs : List α} {e : ε} :
    xs.mapM f = .error e ↔ ∃ front x rest, xs = front ++ x :: rest ∧
      (∀ y ∈ front, ∃ b, f y = .ok b) ∧ f x = .error e := by
  induction xs with
  | nil =>
    rw [List.mapM_nil]
    refine iff_of_false (fun h => by cases h) ?_
    rintro ⟨front, x, rest, hxs, -⟩
    exact absurd hxs.symm (List.append_ne_nil_of_right_ne_nil front (List.cons_ne_nil x rest))
  | cons x xs ih =>
    rw [List.mapM_cons, bind_eq_error_iff]
    constructor
    -- either the first item fails, or one of the others is the first to fail
    · rintro (hx | ⟨b, hb, h⟩)
      · exact ⟨[], x, xs, rfl, fun y hy => absurd hy List.not_mem_nil, hx⟩
      · rcases bind_eq_error_iff.1 h with h | ⟨_, -, h⟩
        · obtain ⟨front, y, rest, rfl, hfront, hy⟩ := ih.1 h
          exact ⟨x :: front, y, rest, rfl, List.forall_mem_cons.2 ⟨⟨b, hb⟩, hfront⟩, hy⟩
        · cases h
    · rintro ⟨front, y, rest, hxs, hfront, hy⟩
      -- the first item fails, or it is one of those before the first that does
      cases front with
      | nil =>
        obtain ⟨rfl, rfl⟩ := List.cons.inj hxs
        exact .inl hy
      | cons z front =>
        obtain ⟨rfl, rfl⟩ := List.cons.inj hxs
        obtain ⟨⟨b, hb⟩, hfront⟩ := List.forall_mem_cons.1 hfront
        exact .inr ⟨b, hb, bind_eq_error_iff.2 (.inl (ih.2 ⟨front, y, rest, rfl, hfront, hy⟩))⟩

theorem forM_eq_ok_iff {f : α → Except ε Unit} {xs : List α} :
    xs.forM f = .ok () ↔ ∀ x ∈ xs, f x = .ok () := by
  induction xs with
  | nil => exact ⟨fun _ _ hx => (nomatch hx), fun _ => rfl⟩
  | cons x xs ih =>
    rw [List.forM, bind_eq_ok_iff, List.forall_mem_cons]
    constructor
    · rintro ⟨_, hx, hxs⟩
      exact ⟨hx, ih.1 hxs⟩
    · rintro ⟨hx, hxs⟩
      exact ⟨(), hx, ih.2 hxs⟩

/-- Each item on the right of two lists in step has its item on the left. -/
theorem exists_mem_of_forall₂ {R : α → β → Prop} {xs : List α} {ys : List β}
    (h : List.Forall₂ R xs ys) {y : β} (hy : y ∈ ys) : ∃ x ∈ xs, R x y := by
  induction h with
  | nil => simp at hy
  | cons hxy _ ih =>
    rcases List.mem_cons.1 hy with rfl | hy
    · exact ⟨_, List.mem_cons_self, hxy⟩
    · obtain ⟨x, hx, hr⟩ := ih hy
      exact ⟨x, List.mem_cons_of_mem _ hx, hr⟩

/-- Each item on the left of two lists in step has its item on the right. -/
theorem exists_mem_right_of_forall₂ {R : α → β → Prop} {xs : List α} {ys : List β}
    (h : List.Forall₂ R xs ys) {x : α} (hx : x ∈ xs) : ∃ y ∈ ys, R x y :=
  exists_mem_of_forall₂ h.flip hx

/-- Items that each have a related one have related ones in step. -/
theorem exists_forall₂ {R : α → β → Prop} {xs : List α} (h : ∀ x ∈ xs, ∃ y, R x y) :
    ∃ ys, List.Forall₂ R xs ys := by
  induction xs with
  | nil => exact ⟨[], .nil⟩
  | cons x xs ih =>
    obtain ⟨hx, hxs⟩ := List.forall_mem_cons.1 h
    obtain ⟨y, hy⟩ := hx
    obtain ⟨ys, hys⟩ := ih hxs
    exact ⟨y :: ys, .cons hy hys⟩

theorem exists_getElem?_of_length {xs : List α} {ys : List β} (h : xs.length = ys.length) {i : Nat}
    {x : α} (hx : xs[i]? = some x) : ∃ y, ys[i]? = some y := by
  obtain ⟨hi, -⟩ := List.getElem?_eq_some_iff.1 hx
  exact ⟨ys.get ⟨i, h ▸ hi⟩, List.getElem?_eq_getElem (h ▸ hi)⟩

/-- Two lists are in step if they are equally long and items at the same place are related. The one
form is for inductions, the other for access by number. -/
theorem forall₂_iff_getElem? {R : α → β → Prop} {xs : List α} {ys : List β} :
    List.Forall₂ R xs ys ↔ xs.length = ys.length ∧
      ∀ (i : Nat) x y, xs[i]? = some x → ys[i]? = some y → R x y := by
  constructor
  · intro h
    refine ⟨h.length_eq, fun i x y hx hy => ?_⟩
    obtain ⟨hi, rfl⟩ := List.getElem?_eq_some_iff.1 hx
    obtain ⟨hi', rfl⟩ := List.getElem?_eq_some_iff.1 hy
    exact h.get hi hi'
  · rintro ⟨hlen, hget⟩
    refine List.forall₂_iff_get.2 ⟨hlen, fun i hi hi' => ?_⟩
    exact hget i _ _ (List.getElem?_eq_getElem hi) (List.getElem?_eq_getElem hi')

/-- Two lists stay in step if related items are put in at the same place. -/
theorem forall₂_set {R : α → β → Prop} {xs : List α} {ys : List β} (h : List.Forall₂ R xs ys)
    (i : Nat) {x : α} {y : β} (hxy : R x y) : List.Forall₂ R (xs.set i x) (ys.set i y) := by
  induction h generalizing i with
  | nil => exact .nil
  | cons hab hrest ih =>
    cases i with
    | zero => exact .cons hxy hrest
    | succ i => exact .cons hab (ih i)

theorem forall₂_dropLast {R : α → β → Prop} {xs : List α} {ys : List β}
    (h : List.Forall₂ R xs ys) : List.Forall₂ R xs.dropLast ys.dropLast := by
  rw [List.dropLast_eq_take, List.dropLast_eq_take, ← h.length_eq]
  exact List.forall₂_take _ h

/-- An item that looks the same takes the place of another one. -/
theorem map_set_of_eq {f : α → β} {xs : List α} {i : Nat} {x y : α} (hx : xs[i]? = some x)
    (h : f y = f x) : (xs.set i y).map f = xs.map f := by
  obtain ⟨hi, rfl⟩ := List.getElem?_eq_some_iff.1 hx
  have hmap : (xs.map f)[i]? = some (f xs[i]) := by rw [List.getElem?_map, hx, Option.map_some]
  obtain ⟨hi', heq⟩ := List.getElem?_eq_some_iff.1 hmap
  rw [List.map_set, h, ← heq, List.set_getElem_self]

theorem findIdx?_congr {p : α → Bool} {q : β → Bool} {xs : List α} {ys : List β}
    (h : List.Forall₂ (fun x y => p x = q y) xs ys) : xs.findIdx? p = ys.findIdx? q := by
  induction h with
  | nil => rfl
  | cons hxy _ ih => rw [List.findIdx?_cons, List.findIdx?_cons, hxy, ih]

/-! ### Two chains of steps -/

/-- Both fail, or both succeed with related results. Which error it is does not matter: this is for
steps on data that is held in two ways, which are reported by different texts. -/
inductive Together (R : α → β → Prop) : Except ε α → Except δ β → Prop
  | ok {a : α} {b : β} (h : R a b) : Together R (.ok a) (.ok b)
  | error (e : ε) (e' : δ) : Together R (.error e) (.error e')

theorem Together.ok_or_error {R : α → β → Prop} {x : Except ε α} {y : Except δ β}
    (h : Together R x y) : (∃ a b, x = .ok a ∧ y = .ok b ∧ R a b) ∨
      ∃ e e', x = .error e ∧ y = .error e' := by
  cases h with
  | ok hab => exact .inl ⟨_, _, rfl, rfl, hab⟩
  | error e e' => exact .inr ⟨e, e', rfl, rfl⟩

/-- Steps that may also come to nothing. -/
theorem Together.some_or_none {R : α → β → Prop} {x : Except ε (Option α)}
    {y : Except δ (Option β)} (h : Together (Option.Rel R) x y) :
    (∃ a b, x = .ok (some a) ∧ y = .ok (some b) ∧ R a b) ∨ (x = .ok none ∧ y = .ok none) ∨
      ∃ e e', x = .error e ∧ y = .error e' := by
  cases h with
  | ok hrel =>
    cases hrel with
    | some hab => exact .inl ⟨_, _, rfl, rfl, hab⟩
    | none => exact .inr (.inl ⟨rfl, rfl⟩)
  | error e e' => exact .inr (.inr ⟨e, e', rfl, rfl⟩)

theorem Together.eq_ok_iff {x : Except ε α} {y : Except δ α} (h : Together Eq x y) {a : α} :
    x = .ok a ↔ y = .ok a := by
  cases h with
  | ok heq => rw [heq, Except.ok.injEq, Except.ok.injEq]
  | error e e' => exact ⟨fun h => (nomatch h), fun h => (nomatch h)⟩

theorem Together.map {R : α → β → Prop} {α' β' : Type} {S : α' → β' → Prop} {f : α → α'}
    {g : β → β'} {x : Except ε α} {y : Except δ β} (h : Together R x y)
    (hfg : ∀ a b, R a b → S (f a) (g b)) : Together S (x.map f) (y.map g) := by
  cases h with
  | ok hab => exact .ok (hfg _ _ hab)
  | error e e' => exact .error e e'

/-- Two chains are together if their first steps are, and if so are the rests on related results.
With it the two are compared step by step. -/
theorem Together.bind {R : α → β → Prop} {α' β' : Type} {S : α' → β' → Prop}
    {f : α → Except ε α'} {g : β → Except δ β'} {x : Except ε α} {y : Except δ β}
    (h : Together R x y) (hfg : ∀ a b, R a b → Together S (f a) (g b)) :
    Together S (x >>= f) (y >>= g) := by
  cases h with
  | ok hab => exact hfg _ _ hab
  | error e e' => exact .error e e'

end ConfigTree
