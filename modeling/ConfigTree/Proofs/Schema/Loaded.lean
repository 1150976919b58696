import ConfigTree.Schema.Load
import ConfigTree.Proofs.Members
import ConfigTree.Proofs.Results
import Mathlib.Data.List.TakeWhile

/-!
# Loaded schemas

What is known of a schema that has been read from a text. A property that each node can have by
itself holds `Everywhere` if the node and all nodes below it have it.

* `Loaded.keyed`: the keys of every list are leaves of it, and there is at least one.
* `Loaded.reach_le`: data that has the shape of the schema is not too deep to be read. A node stands
  two levels below its parent in the text of the schema, and its data at most two levels below that
  of the parent.

Of names nothing is known from loading. `ColonFree` says that no name of a child and no value of an
enumeration has a colon, so that none loses a part as if that were a module.
-/

namespace ConfigTree

/-- The values of an enumeration. -/
def ScalarKind.values : ScalarKind → List String
  | .enumeration values => values
  | _ => []

theorem localChars_of_not_mem {cs : List Char} (h : ':' ∉ cs) : localChars cs = cs := by
  have hdrop : cs.dropWhile (· != ':') = [] := by
    rw [List.dropWhile_eq_nil_iff]
    intro c hc
    simpa using fun heq : c = ':' => h (heq ▸ hc)
  rw [localChars, hdrop]

/-- A name without a colon is its own local name. This is what being free of colons is used for: a
conversion that drops a module leaves such names alone, so that it can be done twice. -/
theorem localName_of_not_mem {name : String} (h : ':' ∉ name.toList) : localName name = name := by
  rw [localName, localChars_of_not_mem h, String.ofList_toList]

/-- A name with a colon loses the colon at least, so it is longer than its local name. -/
theorem length_localChars_lt {cs : List Char} (h : ':' ∈ cs) :
    (localChars cs).length < cs.length := by
  have hle := (List.dropWhile_sublist (· != ':') : (cs.dropWhile _).Sublist cs).length_le
  unfold localChars
  split
  · next hnil => simpa using List.dropWhile_eq_nil_iff.1 hnil ':' h
  · next c rest hrest =>
    rw [hrest, List.length_cons] at hle
    omega

/-- With a colon it is not. -/
theorem localName_eq_iff {name : String} : localName name = name ↔ ':' ∉ name.toList := by
  refine ⟨fun h hmem => ?_, localName_of_not_mem⟩
  have hlt := length_localChars_lt hmem
  rw [localName, ← String.toList_inj, String.toList_ofList] at h
  rw [h] at hlt
  exact Nat.lt_irrefl _ hlt

namespace Schema

/-! ### Properties of all nodes -/

namespace Node

mutual

/-- The node and all nodes below it have a property. Properties of this sort go down to children and
along paths with the lemmas below, so that a proof about a node that a path leads to only has to
take them along. -/
def Everywhere (P : Node → Prop) : Node → Prop
  | .container home children => P (.container home children) ∧ EverywhereChildren P children
  | .list home keys children => P (.list home keys children) ∧ EverywhereChildren P children
  | .leaf home kind => P (.leaf home kind)
  | .leafList home kind => P (.leafList home kind)

/-- Every one of some children has the property, and all nodes below them. -/
def EverywhereChildren (P : Node → Prop) : List (String × Node) → Prop
  | [] => True
  | (_, n) :: rest => Everywhere P n ∧ EverywhereChildren P rest

end

mutual

/-- A decidable property that holds everywhere can be decided. -/
def decEverywhere (P : Node → Prop) [DecidablePred P] : ∀ n : Node, Decidable (n.Everywhere P)
  | .container home children =>
    have := decEverywhereChildren P children
    inferInstanceAs (Decidable (P (.container home children) ∧ EverywhereChildren P children))
  | .list home keys children =>
    have := decEverywhereChildren P children
    inferInstanceAs (Decidable (P (.list home keys children) ∧ EverywhereChildren P children))
  | .leaf home kind => inferInstanceAs (Decidable (P (.leaf home kind)))
  | .leafList home kind => inferInstanceAs (Decidable (P (.leafList home kind)))

def decEverywhereChildren (P : Node → Prop) [DecidablePred P] :
    ∀ children : List (String × Node), Decidable (EverywhereChildren P children)
  | [] => isTrue trivial
  | (_, n) :: rest =>
    have := decEverywhere P n
    have := decEverywhereChildren P rest
    inferInstanceAs (Decidable (Everywhere P n ∧ EverywhereChildren P rest))

end

instance (P : Node → Prop) [DecidablePred P] (n : Node) : Decidable (n.Everywhere P) :=
  decEverywhere P n

variable {P : Node → Prop} {n c : Node} {children : List (String × Node)} {name : String}

theorem Everywhere.here (h : Everywhere P n) : P n := by
  cases n with
  | container home children => exact h.1
  | list home keys children => exact h.1
  | leaf home kind => exact h
  | leafList home kind => exact h

theorem EverywhereChildren.get? (h : EverywhereChildren P children)
    (hc : Members.get? children name = some c) : Everywhere P c := by
  induction children with
  | nil => simp at hc
  | cons m rest ih =>
    obtain ⟨k, n⟩ := m
    rw [Members.get?_cons] at hc
    split at hc
    · exact Option.some.inj hc ▸ h.1
    · exact ih h.2 hc

theorem Everywhere.child (h : Everywhere P n) (hn : n.children? = some children)
    (hc : Members.get? children name = some c) : Everywhere P c := by
  cases n with
  | container home cs => obtain rfl := Option.some.inj hn; exact h.2.get? hc
  | list home keys cs => obtain rfl := Option.some.inj hn; exact h.2.get? hc
  | leaf home kind => cases hn
  | leafList home kind => cases hn

mutual

theorem Everywhere.imp {Q : Node → Prop} (hPQ : ∀ n, P n → Q n) :
    ∀ {n : Node}, Everywhere P n → Everywhere Q n
  | .container _ _, h => ⟨hPQ _ h.1, EverywhereChildren.imp hPQ h.2⟩
  | .list _ _ _, h => ⟨hPQ _ h.1, EverywhereChildren.imp hPQ h.2⟩
  | .leaf _ _, h => hPQ _ h
  | .leafList _ _, h => hPQ _ h

theorem EverywhereChildren.imp {Q : Node → Prop} (hPQ : ∀ n, P n → Q n) :
    ∀ {children : List (String × Node)}, EverywhereChildren P children →
      EverywhereChildren Q children
  | [], _ => trivial
  | (_, _) :: _, h => ⟨Everywhere.imp hPQ h.1, EverywhereChildren.imp hPQ h.2⟩

end

/-! ### Paths -/

/-- The node that a path leads to by the names of its elements. Unlike `walk?` it does not ask what
keys the elements have, nor does it go along with the module; where `walk?` finds a node, it is this
one. -/
def below? (n : Node) : List Path.Elem → Option Node
  | [] => some n
  | e :: rest => (n.child? e.name).bind fun c => c.below? rest

theorem below?_cons {e : Path.Elem} (hchild : n.child? e.name = some c) (rest : List Path.Elem) :
    n.below? (e :: rest) = c.below? rest := by
  rw [below?, hchild]
  rfl

theorem below?_append (n : Node) (elems rest : List Path.Elem) :
    n.below? (elems ++ rest) = (n.below? elems).bind fun c => c.below? rest := by
  induction elems generalizing n with
  | nil => rfl
  | cons e elems ih =>
    rw [List.cons_append, below?, below?, Option.bind_assoc]
    exact congrArg _ (funext ih)

theorem Everywhere.below? {elems : List Path.Elem} (h : Everywhere P n)
    (hc : n.below? elems = some c) : Everywhere P c := by
  induction elems generalizing n with
  | nil => exact Option.some.inj hc ▸ h
  | cons e elems ih =>
    obtain ⟨m, hm, hc⟩ := Option.bind_eq_some_iff.1 hc
    obtain ⟨cs, hcs, hget⟩ := Option.bind_eq_some_iff.1 hm
    exact ih (h.child hcs hget) hc

/-- Whether the keys of an element are ones of the node that it names. An element may leave keys of
a list out, and has none at all at any other node. -/
def OwnsKeys (c : Node) (e : Path.Elem) : Prop :=
  match c.listKeys? with
  | some keys => ∀ key ∈ e.keys, key.1 ∈ keys
  | none => e.isKeyed = false

/-- A path that has a node in the schema takes its first step to a child whose keys the first
element has, and goes on from there with the module of the child or, if it names none, that of the
node. -/
theorem walk?_cons {home : Option String} {e : Path.Elem} {rest : List Path.Elem}
    {found : Node × Option String} (h : n.walk? home (e :: rest) = some found) :
    ∃ c, n.child? e.name = some c ∧ c.OwnsKeys e ∧ c.walk? (c.home.or home) rest = some found := by
  rw [walk?] at h
  split at h
  · cases h
  · next c hc =>
    refine ⟨c, hc, ?_⟩
    unfold OwnsKeys
    -- at a list the keys have to be its own, and elsewhere there must be none
    cases hkeys : c.listKeys? with
    | some keys =>
      simp only [hkeys] at h
      split at h
      · next hall => exact ⟨fun key hkey => by simpa using List.all_eq_true.1 hall key hkey, h⟩
      · cases h
    | none =>
      simp only [hkeys] at h
      split at h
      · next hkeyed => exact ⟨by simpa using hkeyed, h⟩
      · cases h

/-- A step to a child whose keys the element has. -/
theorem walk?_eq_of_ownsKeys {e : Path.Elem} (hchild : n.child? e.name = some c)
    (howns : c.OwnsKeys e) (home : Option String) (rest : List Path.Elem) :
    n.walk? home (e :: rest) = c.walk? (c.home.or home) rest := by
  rw [walk?, hchild]
  unfold OwnsKeys at howns
  cases hkeys : c.listKeys? with
  | some keys =>
    rw [hkeys] at howns
    have hall : (e.keys.all fun k => keys.contains k.1) = true :=
      List.all_eq_true.2 fun key hkey => List.contains_iff_mem.2 (howns key hkey)
    simp only [hkeys, hall, if_true]
  | none =>
    rw [hkeys] at howns
    simp only [hkeys, show e.isKeyed = false from howns, Bool.not_false, if_true]

theorem walk?_of_ownsKeys {home : Option String} {e : Path.Elem} {rest : List Path.Elem}
    {found : Node × Option String} (hchild : n.child? e.name = some c) (howns : c.OwnsKeys e)
    (hrest : c.walk? (c.home.or home) rest = some found) :
    n.walk? home (e :: rest) = some found := by
  rw [walk?_eq_of_ownsKeys hchild howns, hrest]

/-- A path that has a node in the schema leads to it. -/
theorem below?_of_walk? {home : Option String} {elems : List Path.Elem}
    {found : Node × Option String} (h : n.walk? home elems = some found) :
    n.below? elems = some found.1 := by
  induction elems generalizing n home with
  | nil => exact congrArg (·.map Prod.fst) h
  | cons e rest ih =>
    obtain ⟨c, hc, -, hrest⟩ := walk?_cons h
    rw [below?_cons hc]
    exact ih hrest

/-- The beginning of a path that has a node in the schema has one too, from which the path goes on.
The keys of the beginning are among those that have been looked at. -/
theorem exists_walk?_of_append {home : Option String} {elems rest : List Path.Elem}
    {found : Node × Option String} (h : n.walk? home (elems ++ rest) = some found) :
    ∃ m home', n.walk? home elems = some (m, home') ∧ m.walk? home' rest = some found := by
  induction elems generalizing n home with
  | nil => exact ⟨n, home, rfl, h⟩
  | cons e elems ih =>
    obtain ⟨c, hc, howns, hrest⟩ := walk?_cons h
    obtain ⟨m, home', hm, hfound⟩ := ih hrest
    exact ⟨m, home', walk?_of_ownsKeys hc howns hm, hfound⟩

theorem walk?_append {home : Option String} {elems rest : List Path.Elem}
    {found : Node × Option String} (h : n.walk? home (elems ++ rest) = some found) :
    ∃ m home', n.below? elems = some m ∧ m.walk? home' rest = some found := by
  obtain ⟨m, home', hm, hrest⟩ := exists_walk?_of_append h
  exact ⟨m, home', below?_of_walk? hm, hrest⟩

/-- A path goes on from the node that its beginning leads to. -/
theorem walk?_append_of_walk? {home home' : Option String} {elems : List Path.Elem} {m : Node}
    (h : n.walk? home elems = some (m, home')) (rest : List Path.Elem) :
    n.walk? home (elems ++ rest) = m.walk? home' rest := by
  induction elems generalizing n home with
  | nil =>
    obtain ⟨rfl, rfl⟩ := Prod.mk.inj (Option.some.inj h)
    rfl
  | cons e elems ih =>
    obtain ⟨c, hc, howns, hrest⟩ := walk?_cons h
    rw [List.cons_append, walk?_eq_of_ownsKeys hc howns, ih hrest]

/-! ### Keys -/

theorem exists_list_of_isList (h : n.isList = true) :
    ∃ home keys children, n = .list home keys children := by
  cases n with
  | list home keys children => exact ⟨home, keys, children, rfl⟩
  | container home children => cases h
  | leaf home kind => cases h
  | leafList home kind => cases h

/-- The keys of a list are leaves of it, and there is at least one. So an entry is told apart by
texts, and a list that passes this check can be looked up by keys at all. -/
def KeyedAt (n : Node) : Prop :=
  ∀ keys children, n.listKeys? = some keys → n.children? = some children →
    keys ≠ [] ∧ ∀ key ∈ keys, ∃ home kind, Members.get? children key = some (.leaf home kind)

theorem exists_leaf_of_isLeafChild (h : isLeafChild children name = true) :
    ∃ home kind, Members.get? children name = some (.leaf home kind) := by
  unfold isLeafChild at h
  split at h
  · next home kind heq => exact ⟨home, kind, heq⟩
  · cases h

theorem keyedAt_of_checkKeys {path : String} {home : Option String} {keys : List String}
    (h : checkKeys path keys children = .ok ()) : KeyedAt (.list home keys children) := by
  intro keys' children' hkeys hchildren
  obtain rfl := Option.some.inj hkeys
  obtain rfl := Option.some.inj hchildren
  unfold checkKeys at h
  -- there is a key, and none of them is anything but a leaf
  split at h
  · cases h
  · next hne =>
    refine ⟨by simpa using hne, fun key hkey => ?_⟩
    split at h
    · cases h
    · next hfind =>
      have hleaf := List.find?_eq_none.1 hfind key hkey
      exact exists_leaf_of_isLeafChild (by simpa using hleaf)

mutual

/-- The check of a schema goes through all nodes and looks at the keys of every list. The recursion
is that of the check. -/
theorem everywhere_keyedAt_of_check : ∀ (n : Node) {path : String}, n.check path = .ok () →
    n.Everywhere KeyedAt
  | .container _ children, path, h => by
    rw [check] at h
    exact ⟨fun _ _ hkeys => (nomatch hkeys), everywhere_keyedAt_of_checkChildren children h⟩
  -- the keys of a list are checked before what is below it
  | .list _ keys children, path, h => by
    rw [check] at h
    cases hkeys : checkKeys path keys children with
    | error e => rw [hkeys] at h; cases h
    | ok u =>
      rw [hkeys] at h
      exact ⟨keyedAt_of_checkKeys hkeys, everywhere_keyedAt_of_checkChildren children h⟩
  | .leaf _ _, _, _ => fun _ _ hkeys => (nomatch hkeys)
  | .leafList _ _, _, _ => fun _ _ hkeys => (nomatch hkeys)

theorem everywhere_keyedAt_of_checkChildren : ∀ (children : List (String × Node)) {path : String},
    checkChildren path children = .ok () → EverywhereChildren KeyedAt children
  | [], _, _ => trivial
  | (name, n) :: rest, path, h => by
    rw [checkChildren] at h
    cases hn : n.check (memberPath path name) with
    | error e => rw [hn] at h; cases h
    | ok u =>
      rw [hn] at h
      exact ⟨everywhere_keyedAt_of_check n hn, everywhere_keyedAt_of_checkChildren rest h⟩

end

/-! ### Depth -/

mutual

/-- How many arrays and objects stand inside each other, at most, in data of a node. A list counts
twice, for its array and for the objects in it. -/
def reach : Node → Nat
  | .container _ children => reachChildren children + 1
  | .list _ _ children => reachChildren children + 2
  | .leaf _ _ => 0
  | .leafList _ _ => 1

def reachChildren : List (String × Node) → Nat
  | [] => 0
  | (_, n) :: rest => max (reach n) (reachChildren rest)

end

/-- Data of a child is within what the children reach. -/
theorem reach_le_reachChildren (hc : Members.get? children name = some c) :
    c.reach ≤ reachChildren children := by
  induction children with
  | nil => simp at hc
  | cons m rest ih =>
    obtain ⟨k, n⟩ := m
    rw [Members.get?_cons] at hc
    rw [reachChildren]
    split at hc
    · exact Option.some.inj hc ▸ Nat.le_max_left _ _
    · exact Nat.le_trans (ih hc) (Nat.le_max_right _ _)

theorem reachChildren_le {bound : Nat} (h : ∀ m ∈ children, m.2.reach ≤ bound) :
    reachChildren children ≤ bound := by
  induction children with
  | nil => exact Nat.zero_le _
  | cons m rest ih =>
    obtain ⟨k, n⟩ := m
    exact Nat.max_le.2 ⟨h (k, n) (by simp), ih fun m hm => h m (List.mem_cons_of_mem _ hm)⟩

end Node

end Schema

/-! ### Room -/

namespace Json.Term

variable {r : Reader} {room : Nat} {t x rest : Term} {fs : List (String × Term)}

/-- The terms right inside a term. -/
def items : Term → List Term
  | .array xs => xs
  | .object ms => ms.map Prod.snd
  | _ => []

/-- Whether the term can be read as a document that is at most so deep. The reader of schemas does
not ask for this, but the term that it is given has been read with a bound on its depth. -/
def Readable (r : Reader) (room : Nat) (t : Term) : Prop := (t.read? r room).isSome

theorem readable_of_readItems? {xs : List Term} (h : (readItems? r room xs).isSome) :
    ∀ x ∈ xs, x.Readable r room := by
  induction xs with
  | nil => simp
  | cons y ys ih =>
    simp only [readItems?, Option.bind_eq_bind, Option.isSome_iff_exists,
      Option.bind_eq_some_iff] at h
    obtain ⟨_, w, hw, ws, hws, -⟩ := h
    intro x hx
    rcases List.mem_cons.1 hx with rfl | hx
    · exact Option.isSome_of_eq_some hw
    · exact ih (Option.isSome_of_eq_some hws) x hx

theorem readable_of_readMembers? {ms : List (Option String × Term)}
    (h : (readMembers? r room ms).isSome) : ∀ m ∈ ms, m.2.Readable r room := by
  induction ms with
  | nil => simp
  | cons y ys ih =>
    obtain ⟨name, y⟩ := y
    simp only [readMembers?, Option.bind_eq_bind, Option.isSome_iff_exists,
      Option.bind_eq_some_iff] at h
    obtain ⟨_, _, -, w, hw, ws, hws, -⟩ := h
    intro x hx
    rcases List.mem_cons.1 hx with rfl | hx
    · exact Option.isSome_of_eq_some hw
    · exact ih (Option.isSome_of_eq_some hws) x hx

/-- What stands inside a term has one level less room. -/
theorem Readable.item (h : t.Readable r room) (hx : x ∈ t.items) :
    ∃ inner, room = inner + 1 ∧ x.Readable r inner := by
  unfold Readable at h
  match t, room with
  -- without room neither an array nor an object can be read
  | .array xs, 0 => simp [read?] at h
  | .array xs, room + 1 =>
    rw [read?, Option.isSome_map] at h
    exact ⟨room, rfl, readable_of_readItems? h x hx⟩
  | .object ms, 0 => simp [read?] at h
  | .object ms, room + 1 =>
    rw [read?, Option.isSome_map] at h
    obtain ⟨m, hm, rfl⟩ := List.mem_map.1 hx
    exact ⟨room, rfl, readable_of_readMembers? h m hm⟩
  | .null, _ | .bool _, _ | .number _, _ | .string _, _ => simp [items] at hx

/-- The tag of a record and what is left of it stand right inside the record, whether it is an
object or an array. -/
theorem mem_items_of_tagged? {tag : String} (h : t.tagged? tag = some (x, rest)) :
    x ∈ t.items ∧ ∀ y ∈ rest.items, y ∈ t.items := by
  unfold tagged? at h
  split at h
  -- in an object the tag is a member, and what is left are the other members
  · next ms =>
    split at h
    · next name y heq =>
      obtain ⟨rfl, rfl⟩ := Prod.mk.inj (Option.some.inj h)
      have hmem : (name, y) ∈ ms := List.mem_of_mem_filter (heq ▸ List.mem_singleton_self _)
      refine ⟨List.mem_map.2 ⟨_, hmem, rfl⟩, fun z hz => ?_⟩
      obtain ⟨m, hm, rfl⟩ := List.mem_map.1 hz
      exact List.mem_map.2 ⟨m, List.mem_of_mem_filter hm, rfl⟩
    · cases h
  -- in an array the tag comes first
  · obtain ⟨rfl, rfl⟩ := Prod.mk.inj (Option.some.inj h)
    exact ⟨List.mem_cons_self, fun y hy => List.mem_cons_of_mem _ hy⟩
  · cases h

/-- The fields of a record stand right inside it. In an array they go by their places, in an object
by their names. -/
theorem mem_items_of_fields? {names : List String} (h : t.fields? names = some fs) :
    ∀ f ∈ fs, f.2 ∈ t.items := by
  unfold fields? at h
  split at h
  · next ms =>
    -- fields of an object are the members whose names are known
    simp only [Option.bind_eq_bind, Option.bind_eq_some_iff] at h
    obtain ⟨named, hnamed, h⟩ := h
    split at h
    -- each field comes from a member, whatever the order
    · obtain rfl := Option.some.inj h
      intro f hf
      have hmem := List.mem_of_mem_filter hf
      obtain ⟨m, hm, hmf⟩ := exists_mem_of_forall₂ (mapM_eq_some_iff.1 hnamed) hmem
      rw [Option.map_eq_some_iff] at hmf
      obtain ⟨k, -, rfl⟩ := hmf
      exact List.mem_map.2 ⟨m, hm, rfl⟩
    · cases h
  · split at h
    · obtain rfl := Option.some.inj h
      intro f hf
      exact (List.of_mem_zip hf).2
    · cases h
  · cases h

end Json.Term

namespace Schema

/-! ### Reading nodes -/

open Json

namespace Node

variable {r : Reader} {bound : Nat} {t : Term}

/-- Each child that is read from a field of a term stands two levels below the term: the field is an
object of its own. -/
theorem exists_of_mem_children? {room : Nat} {fs : List (String × Term)}
    {child : Nat → Term → Option Node} {children : List (String × Node)}
    (ht : t.Readable r bound) (hfs : ∀ f ∈ fs, f.2 ∈ t.items)
    (h : Term.defaulted? fs "children" [] (Term.map? child room) = some children)
    {m : String × Node} (hm : m ∈ children) :
    ∃ inner x k, bound = inner + 2 ∧ Term.Readable r inner x ∧ child k x = some m.2 := by
  unfold Term.defaulted? at h
  split at h
  -- a field that is left out has no children
  · exact absurd (Option.some.inj h ▸ hm) List.not_mem_nil
  · next field hfield =>
    obtain ⟨inner, rfl, hreadable⟩ := ht.item (hfs _ (Members.mem_of_get? hfield))
    unfold Term.map? at h
    split at h
    · next room ms =>
      obtain ⟨pairs, hpairs, rfl⟩ := Option.map_eq_some_iff.1 h
      have hmem := Members.mem_of_mem_ofList hm
      obtain ⟨⟨name, x⟩, hx, hread⟩ := exists_mem_of_forall₂ (mapM_eq_some_iff.1 hpairs) hmem
      -- the field is one level below the term, and the child one below the field
      obtain ⟨inner, rfl, hinner⟩ := hreadable.item (List.mem_map.2 ⟨_, hx, rfl⟩)
      simp only [Option.bind_eq_bind, Option.bind_eq_some_iff] at hread
      obtain ⟨_, -, n, hn, heq⟩ := hread
      exact ⟨inner, x, room, rfl, hinner, Option.some.inj heq ▸ hn⟩
    · cases h

/-- A list that is read from a field of a term stands below the term, so the term is two levels deep
at least. This makes up for the second level of the data of a list without children. -/
theorem two_le_of_keys? {α : Type} {room : Nat} {fs : List (String × Term)}
    {item : Nat → Term → Option α} {keys : List α}
    (ht : t.Readable r bound) (hfs : ∀ f ∈ fs, f.2 ∈ t.items)
    (h : Term.required? fs "keys" (Term.list? item room) = some keys) : 2 ≤ bound := by
  unfold Term.required? at h
  obtain ⟨field, hfield, hlist⟩ := Option.bind_eq_some_iff.1 h
  obtain ⟨inner, rfl, hreadable⟩ := ht.item (hfs _ (Members.mem_of_get? hfield))
  unfold Term.list? at hlist
  split at hlist
  · cases inner with
    | zero => cases hreadable
    | succ inner => omega
  · cases hlist

/-- **Data of a node is no deeper than the text of the node.** The induction is on the fuel of the
reader. A node is an object in the text and its children are inside an object of it, which makes two
levels; in data there is one level for a container and two for a list. -/
theorem reach_le_of_ofReadable? {fuel : Nat} {nested : Bool} {n : Node}
    (ht : t.Readable r bound) (h : ofReadable? fuel nested t = some n) : n.reach ≤ bound := by
  induction fuel generalizing nested t bound n with
  | zero => cases h
  | succ fuel ih =>
    simp only [ofReadable?, Option.bind_eq_bind, Option.bind_eq_some_iff] at h
    obtain ⟨⟨tag, rest⟩, htag, kind, -, h⟩ := h
    obtain ⟨htagmem, hrest⟩ := Term.mem_items_of_tagged? htag
    obtain ⟨inner, hbound, -⟩ := ht.item htagmem
    have hfields : ∀ {names fs}, rest.fields? names = some fs → ∀ f ∈ fs, f.2 ∈ t.items :=
      fun hfs f hf => hrest _ (Term.mem_items_of_fields? hfs f hf)
    -- children stand two levels deeper in the text, and one or two levels deeper in the data
    have hchildren : ∀ {fs children}, (∀ f ∈ fs, f.2 ∈ t.items) →
        Term.defaulted? fs "children" []
          (Term.map? (fun _ => ofReadable? fuel true) (fuel + 1)) = some children →
        reachChildren children ≤ bound - 2 := by
      intro fs children hfs hcs
      refine reachChildren_le fun m hm => ?_
      obtain ⟨inner, x, _, rfl, hx, hread⟩ := exists_of_mem_children? ht hfs hcs hm
      exact ih hx hread
    -- a container, a list, a leaf, a leaf-list
    split at h
    · simp only [Option.bind_eq_some_iff] at h
      obtain ⟨fs, hfs, home, -, children, hcs, heq⟩ := h
      obtain rfl := Option.some.inj heq
      have := hchildren (hfields hfs) hcs
      rw [reach]
      omega
    · simp only [Option.bind_eq_some_iff] at h
      obtain ⟨fs, hfs, keys, hkeys, home, -, children, hcs, heq⟩ := h
      obtain rfl := Option.some.inj heq
      have := hchildren (hfields hfs) hcs
      have := two_le_of_keys? ht (hfields hfs) hkeys
      rw [reach]
      omega
    · simp only [Option.bind_eq_some_iff] at h
      obtain ⟨fs, -, home, -, kind, -, heq⟩ := h
      obtain rfl := Option.some.inj heq
      exact Nat.zero_le _
    · simp only [Option.bind_eq_some_iff] at h
      obtain ⟨fs, -, home, -, kind, -, heq⟩ := h
      obtain rfl := Option.some.inj heq
      rw [reach]
      omega
    · cases h

end Node

/-! ### Loaded schemas -/

/-- A schema that has been read from some text. -/
def Loaded (s : Schema) : Prop := ∃ r text, load r text = .ok s

/-- No name that a node gives its children or the values of its scalar has a colon. Nothing that is
loaded has to be so: the theorems that need it say it, and what happens without it is said of the
conversion of scalars and of the members of a payload. -/
def ColonFreeAt (n : Node) : Prop :=
  (∀ m ∈ n.children?.getD [], ':' ∉ m.1.toList) ∧
    ∀ kind ∈ n.scalar?, ∀ value ∈ kind.values, ':' ∉ value.toList

instance : DecidablePred ColonFreeAt := fun n =>
  inferInstanceAs (Decidable ((∀ m ∈ n.children?.getD [], ':' ∉ m.1.toList) ∧
    ∀ kind ∈ n.scalar?, ∀ value ∈ kind.values, ':' ∉ value.toList))

/-- No name of a child and no value of an enumeration has a colon. -/
def ColonFree (s : Schema) : Prop := s.root.Everywhere ColonFreeAt

instance (s : Schema) : Decidable s.ColonFree :=
  inferInstanceAs (Decidable (s.root.Everywhere ColonFreeAt))

/-- No name that a node gives its children has a colon. -/
def NamesFreeAt (n : Node) : Prop := ∀ m ∈ n.children?.getD [], ':' ∉ m.1.toList

instance : DecidablePred NamesFreeAt := fun n =>
  inferInstanceAs (Decidable (∀ m ∈ n.children?.getD [], ':' ∉ m.1.toList))

/-- No name of a child has a colon. Those of the values of enumerations may. It is enough wherever
places are concerned and no value is converted twice. -/
def NamesFree (s : Schema) : Prop := s.root.Everywhere NamesFreeAt

instance (s : Schema) : Decidable s.NamesFree :=
  inferInstanceAs (Decidable (s.root.Everywhere NamesFreeAt))

theorem ColonFree.namesFree {s : Schema} (h : s.ColonFree) : s.NamesFree :=
  Node.Everywhere.imp (fun _ => And.left) h

/-- A leaf or a leaf-list has no decimals. -/
def DecimalFreeAt (n : Node) : Prop := n.scalar? ≠ some .decimal

instance : DecidablePred DecimalFreeAt := fun n =>
  inferInstanceAs (Decidable (n.scalar? ≠ some .decimal))

/-- No leaf and no leaf-list has decimals. The typed value of a decimal is a float and its text may
be that of another number, so what goes through either is said without them. -/
def DecimalFree (s : Schema) : Prop := s.root.Everywhere DecimalFreeAt

instance (s : Schema) : Decidable s.DecimalFree :=
  inferInstanceAs (Decidable (s.root.Everywhere DecimalFreeAt))

/-- A name without a module is looked up as it is. -/
theorem Node.child?_of_get? {n : Node} {children : List (String × Node)} {name : String}
    {child : Node} (hn : n.children? = some children) (hlocal : ConfigTree.localName name = name)
    (hc : Members.get? children name = some child) : n.child? name = some child := by
  rw [Node.child?, hn, Option.bind_some, hlocal, hc]

/-- A child stands under its own local name. -/
theorem NamesFreeAt.localName {n : Node} {children : List (String × Node)} {name : String}
    {child : Node} (h : NamesFreeAt n) (hn : n.children? = some children)
    (hc : Members.get? children name = some child) : localName name = name := by
  have hmem : (name, child) ∈ n.children?.getD [] := by
    rw [hn]
    exact Members.mem_of_get? hc
  exact localName_of_not_mem (h _ hmem)

theorem NamesFreeAt.child? {n : Node} {children : List (String × Node)} {name : String}
    {child : Node} (h : NamesFreeAt n) (hn : n.children? = some children)
    (hc : Members.get? children name = some child) : n.child? name = some child :=
  Node.child?_of_get? hn (h.localName hn hc) hc

theorem ColonFreeAt.localName {n : Node} {children : List (String × Node)} {name : String}
    {child : Node} (h : ColonFreeAt n) (hn : n.children? = some children)
    (hc : Members.get? children name = some child) : localName name = name :=
  NamesFreeAt.localName h.1 hn hc

theorem ColonFreeAt.child? {n : Node} {children : List (String × Node)} {name : String}
    {child : Node} (h : ColonFreeAt n) (hn : n.children? = some children)
    (hc : Members.get? children name = some child) : n.child? name = some child :=
  NamesFreeAt.child? h.1 hn hc

variable {s : Schema}

/-- What loading asks of a schema: it has been read from a term, its root is a container, and the
keys of its lists have been checked. -/
theorem Loaded.exists_term (h : s.Loaded) : ∃ r t,
    ofTerm? r Term.maxDepth t = some s ∧ s.root.isContainer ∧ s.root.check "/" = .ok () := by
  obtain ⟨r, text, h⟩ := h
  unfold load at h
  split at h
  · cases h
  · next s' hread =>
    obtain ⟨t, -, hs'⟩ := Option.bind_eq_some_iff.1 hread
    split at h
    · next hcontainer =>
      obtain ⟨_, hcheck, rfl⟩ := map_eq_ok_iff.1 h
      exact ⟨r, t, hs', hcontainer, hcheck⟩
    · cases h

/-- The root of a loaded schema is a container. -/
theorem Loaded.root (h : s.Loaded) : ∃ home children, s.root = .container home children := by
  obtain ⟨r, t, -, hcontainer, -⟩ := h.exists_term
  cases hroot : s.root with
  | container home children => exact ⟨home, children, rfl⟩
  | list home keys children => rw [hroot] at hcontainer; cases hcontainer
  | leaf home kind => rw [hroot] at hcontainer; cases hcontainer
  | leafList home kind => rw [hroot] at hcontainer; cases hcontainer

/-- **The keys of every list of a loaded schema are leaves of it.** -/
theorem Loaded.keyed (h : s.Loaded) : s.root.Everywhere Node.KeyedAt := by
  obtain ⟨r, t, -, -, hcheck⟩ := h.exists_term
  exact Node.everywhere_keyedAt_of_check s.root hcheck

/-- **Data of a loaded schema is not too deep to be read.** The text of the schema has been read
within the bound on depth, and data is no deeper than that. So what the store holds can be read back
from its document whatever is stored. -/
theorem Loaded.reach_le (h : s.Loaded) : s.root.reach ≤ Term.maxDepth := by
  obtain ⟨r, t, hread, -, -⟩ := h.exists_term
  simp only [ofTerm?, Option.bind_eq_bind, Option.bind_eq_some_iff] at hread
  obtain ⟨⟨room, fs⟩, hrecord, models, -, root, hroot, heq⟩ := hread
  obtain rfl := Option.some.inj heq
  unfold Term.record? at hrecord
  obtain ⟨fs', -, heq⟩ := Option.map_eq_some_iff.1 hrecord
  obtain ⟨rfl, rfl⟩ := Prod.mk.inj heq
  obtain ⟨field, -, hfield⟩ := Option.bind_eq_some_iff.1 hroot
  obtain ⟨w, hw, hnode⟩ := Option.bind_eq_some_iff.1 hfield
  exact Nat.le_succ_of_le (Node.reach_le_of_ofReadable? (Option.isSome_of_eq_some hw) hnode)

end Schema

end ConfigTree
