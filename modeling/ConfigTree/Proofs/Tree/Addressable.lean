import ConfigTree.Proofs.Tree.Frame

/-!
# Finding an entry again

`findOrCreate` looks for an entry by the texts of its keys and adds it with the values that the
texts stand for. An entry that it has added is found again by the same element just if these values
have the same texts, which is not so for every numeral: the entry that is added for the text `007`
of a whole number holds the number 7, whose text is `7`. Then each further call adds an entry.

* `hasKeys_newEntry_iff`: a new entry has the keys of its element just if they print back.
* `findOrCreate_cases`: an entry has been there, or has been added behind all others.
* `findOrCreate_again`: what the same call does a second time.
-/

namespace ConfigTree

/-- **The text of a key is kept unless it is a numeral that is not written as its number is.** All
other texts are stored as strings, whose text they are, whether they fit the kind of the key or
not. -/
theorem keyString_keyValue_eq_iff {text : String} {kind : Option ScalarKind} :
    keyString (keyValue text kind) = text ↔
      ∀ n ∈ kind.bind (keyNumber? text), keyString (.num n) = text := by
  unfold keyValue
  cases kind.bind (keyNumber? text) with
  | none => simp [keyString]
  | some n => simp

namespace Tree

open ConfigTree.Path (Elem)
open Members (get?)
open Schema (Node)

variable {ms : Object} {list : Node} {e : Elem} {c : Child} {xs : List Json} {inner : Object}
  {create : Bool}

/-- The texts of an element's keys print back: one that is a numeral, for a key of a numeric kind,
is written as its number is. It can be decided from the schema and the element, without the tree. -/
def PrintsBack (list : Node) (e : Elem) : Prop :=
  ∀ key ∈ e.keys, ∀ n ∈ ((list.child? key.1).bind Node.scalar?).bind (keyNumber? key.2),
    keyString (.num n) = key.2

instance (list : Node) (e : Elem) : Decidable (PrintsBack list e) :=
  inferInstanceAs (Decidable (∀ key ∈ e.keys, ∀ n ∈ _, _ = _))

theorem hasKeys_newEntry_iff : hasKeys (keyMembers list e) e.keys = true ↔ PrintsBack list e := by
  rw [hasKeys_iff]
  refine forall₂_congr fun key hkey => ?_
  rw [get?_keyMembers, Members.get?_of_mem e.sorted hkey, Option.map_some, Option.map_some,
    Option.some.injEq]
  exact keyString_keyValue_eq_iff

/-! ### Lists that have been added to -/

/-- An entry behind those that have been looked through is found if it has the keys. So what has
been added is compared like any other entry, by the texts of what it holds. -/
theorem findKeyed?_append (h : findKeyed? e xs = .ok none) :
    findKeyed? e (xs ++ [.obj inner])
      = .ok (if hasKeys inner e.keys then some (xs.length, .obj inner) else none) := by
  induction xs with
  | nil =>
    simp only [List.nil_append, findKeyed?, Except.map, Option.map_none]
    split <;> rfl
  | cons x xs ih =>
    cases x with
    | obj members =>
      rw [findKeyed?] at h
      split at h
      · cases h
      · -- nothing is found in the old array, so no element of it ends the scan before the new one
        next hkeys =>
        obtain ⟨found, hfound, hnone⟩ := map_eq_ok_iff.1 h
        obtain rfl := Option.map_eq_none_iff.1 hnone
        rw [List.cons_append, findKeyed?, if_neg hkeys, ih hfound]
        cases hasKeys inner e.keys <;> rfl
    | _ => cases h

/-- What a look through the entries of a member gives. -/
theorem findOrCreate_of_some {i : Nat} {found : Json}
    (hlist : get? ms (localName e.name) = some (.arr xs))
    (hfound : findKeyed? e xs = .ok (some (i, found))) :
    findOrCreate ms list e create = .ok (some ⟨ms, .entry (localName e.name) i, found⟩) := by
  unfold findOrCreate
  simp only [hlist, hfound]

theorem findOrCreate_of_none (hlist : get? ms (localName e.name) = some (.arr xs))
    (hnone : findKeyed? e xs = .ok none) :
    findOrCreate ms list e create = .ok (if create then
      some ⟨Members.insert ms (localName e.name) (.arr (xs ++ [newEntry list e])),
        .entry (localName e.name) xs.length, newEntry list e⟩ else none) := by
  unfold findOrCreate
  simp only [hlist, hnone]
  split <;> rfl

/-- **An entry has been there, or has been added behind all others.** It has been added only where
the same call without leave to add finds nothing. -/
theorem findOrCreate_cases (h : findOrCreate ms list e true = .ok (some c)) :
    (c.members = ms ∧ findOrCreate ms list e false = .ok (some c)) ∨
    (findOrCreate ms list e false = .ok none ∧ ∃ xs, findKeyed? e xs = .ok none ∧
      c = ⟨Members.insert ms (localName e.name) (.arr (xs ++ [newEntry list e])),
        .entry (localName e.name) xs.length, newEntry list e⟩) := by
  cases hget : get? ms (localName e.name) with
  -- a list that is missing is added with the entry
  | none =>
    simp only [findOrCreate, hget, if_true] at h
    obtain rfl := Option.some.inj (Except.ok.inj h)
    refine .inr ⟨?_, [], rfl, rfl⟩
    simp [findOrCreate, hget]
  | some j =>
    cases j with
    | arr xs =>
      cases hfind : findKeyed? e xs with
      | error err => simp [findOrCreate, hget, hfind] at h
      | ok found =>
        cases found with
        | some entry =>
          rw [findOrCreate_of_some hget hfind] at h
          obtain rfl := Option.some.inj (Except.ok.inj h)
          exact .inl ⟨rfl, findOrCreate_of_some hget hfind⟩
        | none =>
          rw [findOrCreate_of_none hget hfind] at h
          obtain rfl := Option.some.inj (Except.ok.inj h)
          exact .inr ⟨findOrCreate_of_none hget hfind, xs, hfind, rfl⟩
    | _ => simp [findOrCreate, hget] at h

/-! ### The same call again -/

/-- **An entry is found again by its element just if it was there already or its keys print back.**
The call that has found or added an entry gives that entry a second time, whether it may add one or
not, in the first case. In the other case it finds nothing, and where it may add an entry it adds
another one of the same value. -/
theorem findOrCreate_again (h : findOrCreate ms list e true = .ok (some c)) :
    (findOrCreate ms list e false = .ok (some c) ∨ PrintsBack list e →
      ∀ create, findOrCreate c.members list e create = .ok (some c)) ∧
    (findOrCreate ms list e false ≠ .ok (some c) → ¬ PrintsBack list e →
      findOrCreate c.members list e false = .ok none ∧
      ∃ c', findOrCreate c.members list e true = .ok (some c') ∧ c'.value = c.value ∧
        entriesOf c'.members (localName e.name)
          = entriesOf c.members (localName e.name) ++ [c.value]) := by
  rcases findOrCreate_cases h with ⟨hsame, hfound⟩ | ⟨hmissing, xs, hnone, rfl⟩
  -- what has been found is found in the same members
  · refine ⟨fun _ create => ?_, fun hnot => absurd hfound hnot⟩
    rw [hsame]
    cases create with
    | false => exact hfound
    | true => exact h
  · have hlist : get? (Members.insert ms (localName e.name) (.arr (xs ++ [newEntry list e])))
        (localName e.name) = some (.arr (xs ++ [newEntry list e])) := by
      rw [Members.get?_insert, if_pos rfl]
    have hagain : findKeyed? e (xs ++ [newEntry list e]) = .ok
        (if hasKeys (keyMembers list e) e.keys then some (xs.length, newEntry list e) else none) :=
      findKeyed?_append hnone
    constructor
    · rintro (hfound | hprints) create
      · cases hmissing.symm.trans hfound
      · rw [if_pos (hasKeys_newEntry_iff.2 hprints)] at hagain
        exact findOrCreate_of_some hlist hagain
    · -- the entry just added does not have the texts, and the others have been looked through
      -- before
      intro _ hprints
      rw [if_neg fun hkeys => hprints (hasKeys_newEntry_iff.1 hkeys)] at hagain
      refine ⟨findOrCreate_of_none hlist hagain, _, findOrCreate_of_none hlist hagain, rfl, ?_⟩
      simp only [entriesOf_insert]

/-! ### A port with leading zeros -/

/-- Servers, told apart by their ports. -/
def portList : Node := .list none ["port"] [("port", .leaf none (.uint 16))]

/-- The server that listens on a port. -/
def serverElem (port : String) : Elem := Elem.ofKeys "server" [("port", port)]

/-- The entry of port 7. -/
def seventhPort : Json := .obj [("port", .num (.ofUInt64 7))]

/-- The text `007` is one that a port may have, but it does not print back. -/
theorem findOrCreate_leadingZeros :
    canonicalScalar "" (.uint 16) (keyValue "007" (some (.uint 16))) = .ok (.num (.ofUInt64 7)) ∧
    checkScalar "" (.uint 16) (.num (.ofUInt64 7)) = .ok () ∧
    ∃ c, findOrCreate [] portList (serverElem "007") true = .ok (some c) ∧
      c.members = [("server", .arr [seventhPort])] ∧
      findOrCreate c.members portList (serverElem "007") false = .ok none ∧
      ∃ c', findOrCreate c.members portList (serverElem "007") true = .ok (some c') ∧
        c'.value = c.value ∧ entriesOf c'.members "server" = [seventhPort, seventhPort] := by
  have hadded : findOrCreate [] portList (serverElem "007") true = .ok
      (some ⟨[("server", .arr [seventhPort])], .entry "server" 0, seventhPort⟩) := rfl
  have hmissing : findOrCreate [] portList (serverElem "007") false = .ok none := rfl
  obtain ⟨hnone, c', hcreate, hvalue, hentries⟩ := (findOrCreate_again hadded).2
    (fun hfound => by cases hmissing.symm.trans hfound) (by decide)
  exact ⟨rfl, rfl, _, hadded, rfl, hnone, c', hcreate, hvalue, hentries⟩

end Tree

end ConfigTree
