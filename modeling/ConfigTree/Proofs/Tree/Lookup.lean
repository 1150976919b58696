import ConfigTree.Proofs.Tree.Write

/-!
# Looking up a path

A look-up is a chain of steps, each of which reads what an element of the path selects.

* `lookup_append`: a look-up takes several steps and goes on from there.
* `lookup_stands`: in a tree that stands for another one and is alike to it, a path finds data that
  stands for what it finds in the other.
-/

namespace ConfigTree.Tree

open ConfigTree.Path (Elem)
open Members (get? Sorted)
open Schema (Node)
open Schema.Node (Alike Stands)

variable {n below child list : Node} {entry : Bool} {e : Elem} {ms cs : Object} {xs ys : List Json}
  {w v c : Json} {q : List Elem}

/-! ### Looking up a path -/

/-- A step is not refused by the schema if the keys of its element are ones of the child. -/
theorem childSchema_of_ownsKeys (hchild : n.child? e.name = some child) (howns : child.OwnsKeys e) :
    childSchema n e = .ok child := by
  unfold childSchema
  rw [hchild]
  unfold Node.OwnsKeys at howns
  cases hkeys : child.listKeys? with
  | none =>
    rw [hkeys] at howns
    simp [howns]
  | some keys => simp [Node.isList, hkeys]

/-- A look-up takes several steps and goes on from where they come to. Where they find nothing, the
rest of the path is not asked of the schema. -/
theorem lookup_append (elems rest : List Elem) (tree : Json) (n : Node) :
    lookup (elems ++ rest) tree n = lookup elems tree n >>= fun found =>
      match found with
      | none => .ok none
      | some (child, below) => lookup rest child below := by
  induction elems generalizing tree n with
  | nil => rfl
  | cons e elems ih =>
    rw [List.cons_append, lookup, lookup]
    -- both sides take the first step alike, and each way in which it stops them ends both
    cases childSchema n e with
    | error err => rfl
    | ok below =>
      dsimp only [bind, Except.bind]
      cases member? tree (localName e.name) with
      | none => rfl
      | some child =>
        dsimp only
        cases e.isKeyed with
        | false => exact ih child below
        | true =>
          simp only [if_true]
          cases (child.arr?.getD []).find? (isEntryWith e.keys) with
          | none => rfl
          | some entry => exact ih entry below

/-! ### Looking up a path in trees that stand for others -/

/-- Whether a path leads to data of one entry, if its start is such. The last element tells, and a
path without elements leads to the start. -/
def entryAt (entry : Bool) (elems : List Elem) : Bool :=
  (elems.getLast?.map Elem.isKeyed).getD entry

theorem entryAt_cons (entry : Bool) (e : Elem) (elems : List Elem) :
    entryAt entry (e :: elems) = entryAt e.isKeyed elems := by
  unfold entryAt
  rw [List.getLast?_cons]
  cases elems.getLast? <;> rfl

/-- What an element selects stands for what it selects in the other document. -/
theorem found?_stands (hs : Stands n entry (.obj ms) (.obj cs)) (ha : Alike n (.obj ms) (.obj cs))
    (hkeyed : n.Everywhere Node.KeyedAt) (hchild : n.child? e.name = some child)
    (howns : child.OwnsKeys e) :
    Option.Rel (fun x y => Stands child e.isKeyed x y ∧ Alike child x y) (found? ms e)
      (found? cs e) := by
  refine found?_rel hs ha hchild (isList_of_ownsKeys howns) fun he ms cs hsame => ?_
  obtain ⟨siblings, hn, hname⟩ := get?_of_child? hchild
  obtain ⟨keys, hkeys⟩ := Option.isSome_iff_exists.1 (isList_of_ownsKeys howns he)
  obtain ⟨children, hchildren⟩ := hsame.exists_children
  unfold Node.OwnsKeys at howns
  rw [hkeys] at howns
  -- the keys of a list are leaves, whose texts are the same in both
  exact hasKeys_alike_of_leaves hsame hchildren fun key hkey =>
    ((hkeyed.child hn hname).here keys children hkeys hchildren).2 _ (howns key hkey)

/-- **What a path finds stands for what it finds in the other document.** Neither look-up fails,
since the schema knows the path, and both find something or neither does. The induction is on the
path, for any node and documents that it may have come to. -/
theorem lookup_stands (hkeyed : n.Everywhere Node.KeyedAt) {home : Option String}
    {found : Node × Option String} (hq : n.walk? home q = some found) (hs : Stands n entry w c)
    (ha : Alike n w c) : ∃ o o', lookup q w n = .ok (o.map fun x => (x, found.1)) ∧
      lookup q c n = .ok (o'.map fun y => (y, found.1)) ∧
      Option.Rel (Stands found.1 (entryAt entry q)) o o' := by
  induction q generalizing n entry w c home with
  | nil =>
    obtain rfl := Option.some.inj hq
    exact ⟨some w, some c, rfl, rfl, .some hs⟩
  | cons e q ih =>
    obtain ⟨child, hchild, howns, hq⟩ := Node.walk?_cons hq
    obtain ⟨children, hn, hname⟩ := get?_of_child? hchild
    have hschema := childSchema_of_ownsKeys hchild howns
    rw [entryAt_cons]
    cases hs with
    | leaf held fits => cases hn
    | leafList held fits => cases hn
    -- a list without keys is not gone into
    | list =>
      refine ⟨none, none, ?_, ?_, .none⟩
      · rw [lookup, hschema]
        rfl
      · rw [lookup, hschema]
        rfl
    | @object _ _ _ ms cs shape sorted sorted' names known members =>
      have hs := Stands.object shape sorted sorted' names known members
      have hfound := found?_stands hs ha hkeyed hchild howns
      generalize hx : found? ms e = x, hy : found? cs e = y at hfound
      cases hfound with
      | none =>
        exact ⟨none, none, lookup_cons_of_missing hschema hx q,
          lookup_cons_of_missing hschema hy q, .none⟩
      | some hxy =>
        rw [lookup_cons_of_found hschema hx, lookup_cons_of_found hschema hy]
        exact ih (hkeyed.child hn hname) hq hxy.1 hxy.2

/-- What is found in a tree that stands for itself stands for itself. -/
theorem stands_of_lookup {home : Option String} {found : Node × Option String} {m : Node}
    {t x : Json} (hkeyed : n.Everywhere Node.KeyedAt) (hfree : n.Everywhere Schema.ColonFreeAt)
    (ht : Stands n entry t t) (hq : n.walk? home q = some found)
    (hx : lookup q t n = .ok (some (x, m))) :
    m = found.1 ∧ Stands found.1 (entryAt entry q) x x := by
  obtain ⟨o, o', ho, ho', hrel⟩ := lookup_stands hkeyed hq ht (Alike.of_stands hfree ht)
  rw [hx] at ho ho'
  cases hrel with
  | none => cases ho
  | @some a b hab =>
    obtain ⟨rfl, rfl⟩ := Prod.mk.inj (Option.some.inj (Except.ok.inj ho))
    obtain ⟨rfl, -⟩ := Prod.mk.inj (Option.some.inj (Except.ok.inj ho'))
    exact ⟨rfl, hab⟩

end ConfigTree.Tree
