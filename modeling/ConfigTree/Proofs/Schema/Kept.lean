import ConfigTree.Proofs.Schema.Check
import ConfigTree.Proofs.Store.Reachable

/-!
# What is kept of a payload

The members of a payload may be named with a module in front, and the data has them under their
plain names. So two members of one object can come to have one name. No check refuses them: the
data has the last one, and of the others nothing is left.

* `Json.LastHeld`: the data has each plain name once, with the last member of that name.
* `Json.Kept`: every member of the payload, at every depth, has its own place in the data.
* `Json.LastHeld.kept_iff`: that is so just if no object has two members with one plain name.
* `Schema.Node.lastHeld_of_conform`: the held form of a payload at a node.
* `Schema.kept_of_unmarshal`: a payload that is read at a place of the schema.
-/

namespace ConfigTree

open Members (get? Sorted)

namespace Json

variable {ms cs : List (String × Json)} {j c x : Json} {name : String}

/-! ### Plain names -/

/-- Members under their plain names, in their order and with repetitions. -/
def plainly (ms : List (String × Json)) : List (String × Json) :=
  ms.map fun m => (localName m.1, m.2)

/-- The plain names of members. -/
def plainNames (ms : List (String × Json)) : List String := (plainly ms).map Prod.fst

/-- The value of the last member of a plain name. This is what is held, since members are put into
the data one after another and each takes the place of the one before it. -/
def last? (ms : List (String × Json)) (name : String) : Option Json :=
  get? (plainly ms).reverse name

theorem isSome_last? : (last? ms name).isSome ↔ name ∈ plainNames ms := by
  rw [last?, Members.isSome_get?_iff, List.map_reverse, List.mem_reverse, plainNames]

theorem exists_mem_of_last? (h : last? ms name = some x) :
    ∃ m ∈ ms, localName m.1 = name ∧ m.2 = x := by
  obtain ⟨m, hm, heq⟩ := List.mem_map.1 (List.mem_reverse.1 (Members.mem_of_get? h))
  obtain ⟨hname, hvalue⟩ := Prod.mk.inj heq
  exact ⟨m, hm, hname, hvalue⟩

/-- Of members with different plain names, each is the last one of its own. -/
theorem last?_of_mem (hnames : (plainNames ms).Nodup) {m : String × Json} (hm : m ∈ ms) :
    last? ms (localName m.1) = some m.2 := by
  have hreverse : ((plainly ms).reverse.map Prod.fst).Nodup := by
    rw [List.map_reverse]
    exact List.nodup_reverse.2 hnames
  have hmem : (localName m.1, m.2) ∈ (plainly ms).reverse :=
    List.mem_reverse.2 (List.mem_map_of_mem hm)
  exact Members.get?_of_mem_of_nodup hreverse hmem

/-! ### Payloads and data -/

/-- Data holds a payload: scalars in the form of a kind, items one by one and, at every object, for
each plain name the last member that has it. It says what the data has, whether or not anything of
the payload is lost. -/
inductive LastHeld : Json → Json → Prop
  | scalar {kind : ScalarKind} {j c : Json} (held : coerce? kind j = some (some c)) : LastHeld j c
  | array {xs cs : List Json} (length : xs.length = cs.length)
      (items : ∀ (i : Nat) (x c : Json), xs[i]? = some x → cs[i]? = some c → LastHeld x c) :
      LastHeld (.arr xs) (.arr cs)
  | object {ms cs : List (String × Json)} (sorted : Sorted cs)
      (names : ∀ name : String, (last? ms name).isSome ↔ (get? cs name).isSome)
      (members : ∀ (name : String) (x c : Json), last? ms name = some x → get? cs name = some c →
        LastHeld x c) : LastHeld (.obj ms) (.obj cs)

/-- Data keeps a payload: every object has as many members as that of the payload, and each member
of the payload is kept under its plain name. This is what a reader would expect of a payload that
has been accepted. -/
inductive Kept : Json → Json → Prop
  | scalar {kind : ScalarKind} {j c : Json} (held : coerce? kind j = some (some c)) : Kept j c
  | array {xs cs : List Json} (length : xs.length = cs.length)
      (items : ∀ (i : Nat) (x c : Json), xs[i]? = some x → cs[i]? = some c → Kept x c) :
      Kept (.arr xs) (.arr cs)
  | object {ms cs : List (String × Json)} (length : ms.length = cs.length)
      (held : ∀ m ∈ ms, (get? cs (localName m.1)).isSome)
      (members : ∀ m ∈ ms, ∀ c : Json, get? cs (localName m.1) = some c → Kept m.2 c) :
      Kept (.obj ms) (.obj cs)

/-- No object in a payload has two members with one plain name. A document may have a name twice
even with the same module, so this also says that no name is repeated. -/
inductive NamesApart : Json → Prop
  | scalar {j : Json} (shape : j.isScalar = true) : NamesApart j
  | array {xs : List Json} (items : ∀ x ∈ xs, NamesApart x) : NamesApart (.arr xs)
  | object {ms : List (String × Json)} (names : (plainNames ms).Nodup)
      (members : ∀ m ∈ ms, NamesApart m.2) : NamesApart (.obj ms)

/-- An object that is held has as many members as the payload has if those have different plain
names, and only then. -/
theorem length_eq_iff_nodup_plainNames (hsorted : Sorted cs)
    (hnames : ∀ name : String, (last? ms name).isSome ↔ (get? cs name).isSome) :
    ms.length = cs.length ↔ (plainNames ms).Nodup := by
  have hlength : (plainNames ms).length = ms.length := by simp [plainNames, plainly]
  rw [← hlength, eq_comm]
  exact Members.length_eq_iff_nodup hsorted fun name => by rw [← hnames, isSome_last?]

/-- **Data that holds a payload keeps all of it just if the plain names of its members differ.** In
one direction the number of members says that no two were held as one; in the other each member is
the last one of its name. -/
theorem LastHeld.kept_iff (h : LastHeld j c) : Kept j c ↔ NamesApart j := by
  induction h with
  | scalar held => exact ⟨fun _ => .scalar (isScalar_of_coerce? held), fun _ => .scalar held⟩
  | @array xs cs length items ih =>
    constructor
    · intro hkept
      cases hkept with
      | scalar held => cases isScalar_of_coerce? held
      | array _ kept =>
        refine .array fun x hx => ?_
        obtain ⟨i, hi⟩ := List.getElem?_of_mem hx
        obtain ⟨c, hc⟩ := exists_getElem?_of_length length hi
        exact (ih i x c hi hc).1 (kept i x c hi hc)
    · intro hapart
      cases hapart with
      | scalar shape => cases shape
      | array apart =>
        exact .array length fun i x c hx hc =>
          (ih i x c hx hc).2 (apart x (List.mem_of_getElem? hx))
  | @object ms cs sorted names members ih =>
    -- either way the plain names differ, so that each member is the one that is held
    have hcount := length_eq_iff_nodup_plainNames sorted names
    have hheld : ∀ m ∈ ms, (get? cs (localName m.1)).isSome := fun m hm =>
      (names _).1 (isSome_last?.2 (List.mem_map_of_mem (List.mem_map_of_mem hm)))
    constructor
    · intro hkept
      cases hkept with
      | scalar held => cases isScalar_of_coerce? held
      | object length held kept =>
        have hnodup := hcount.1 length
        refine .object hnodup fun m hm => ?_
        obtain ⟨c, hc⟩ := Option.isSome_iff_exists.1 (held m hm)
        exact (ih _ _ _ (last?_of_mem hnodup hm) hc).1 (kept m hm c hc)
    · intro hapart
      cases hapart with
      | scalar shape => cases shape
      | object hnodup apart =>
        exact .object (hcount.2 hnodup) hheld fun m hm c hc =>
          (ih _ _ _ (last?_of_mem hnodup hm) hc).2 (apart m hm)

end Json

namespace Schema

open Json (LastHeld Kept NamesApart plainly last?)

namespace Node

variable {n : Node} {entry : Bool} {path : String} {j c : Json}

/-- The members of an object are held under their plain names, and of several the last one. -/
theorem last?_of_memberHeld {children : List (String × Node)} {ms out : List (String × Json)}
    (h : List.Forall₂ (MemberHeld path children) ms out) :
    List.Forall₂ (fun m o => m.1 = o.1 ∧ ∃ path child, conform path false child m.2 = .ok o.2)
      (plainly ms).reverse out.reverse := by
  refine List.rel_reverse (List.forall₂_map_left_iff.2 (h.imp ?_))
  rintro m o ⟨hname, -, child, -, hheld⟩
  exact ⟨hname.symm, _, child, hheld⟩

/-- **The held form of a payload has the last member of each plain name.** The induction is on the
payload. Members are put in order from the first to the last, so that looking a name up among them
in reverse finds what has stayed. -/
theorem lastHeld_of_conform (h : n.conform path entry j = .ok c) : LastHeld j c := by
  -- on the document that is read, for any node: the members of a name are held one over the other
  induction j using Json.induction_on generalizing n entry path c with | step j ih =>
  cases n, entry using cases_entry with
  | object n entry children hn =>
    obtain ⟨ms, out, rfl, hout, rfl⟩ := (conform_object_iff hn).1 h
    have hsteps := last?_of_memberHeld hout
    -- the last one of a name is left, and this is the first one from behind
    have hget : ∀ name, get? (Members.ofList out) name = get? out.reverse name := fun name => by
      rw [Members.ofList, Members.get?_insertAll_reverse, Members.get?_nil, Option.or_none]
    refine .object (Members.sorted_ofList out) (fun name => ?_) fun name x c hx hc => ?_
    · have hnames := Members.sameNames_of_forall₂ (hsteps.imp fun _ _ hm => hm.1)
      rw [hget, ← hnames name, last?]
    · rw [hget] at hc
      obtain ⟨_, child, hheld⟩ := Members.rel_of_get? hsteps hx hc
      obtain ⟨m, hm, -, rfl⟩ := Json.exists_mem_of_last? hx
      exact ih m.2 (List.mem_map_of_mem hm) hheld
  | list home keys children =>
    obtain ⟨xs, cs, rfl, hcs, rfl⟩ := conform_list_iff.1 h
    obtain ⟨hlength, hitems⟩ := forall₂_iff_getElem?.1 hcs
    exact .array hlength fun i x c hx hc =>
      ih x (List.mem_of_getElem? hx) (hitems i x c hx hc)
  | leaf home kind entry =>
    rw [conform_leaf, canonicalScalar_eq_ok_iff] at h
    exact .scalar h
  | leafList home kind entry =>
    obtain ⟨xs, cs, rfl, hcs, rfl⟩ := conform_leafList_iff.1 h
    obtain ⟨hlength, hitems⟩ := forall₂_iff_getElem?.1 hcs
    exact .array hlength fun i x c hx hc => .scalar (hitems i x c hx hc)

end Node

variable {s : Schema} {r : Json.Reader} {location : List Path.Elem} {payload : ByteArray}
  {c : Subtree}

/-- **A payload that is read is held member by member, and nothing of it is lost just if no object
in it has two members with one plain name.** Otherwise the last of them is held. -/
theorem kept_of_unmarshal (h : s.unmarshal r location payload = .ok c) : ∃ raw,
    Json.parseBytes? r payload = some raw ∧ LastHeld raw c.data ∧
      (Kept raw c.data ↔ NamesApart raw) := by
  obtain ⟨found, raw, -, hparse, hconform, -⟩ := unmarshal_eq_ok_iff.1 h
  have hheld := Node.lastHeld_of_conform hconform
  exact ⟨raw, hparse, hheld, hheld.kept_iff⟩

/-- A host that is named twice, once with a module. Each of the two names is one that the schema has
the host under. -/
def hostTwice : Json := .obj [("host", .str "alpha"), ("m:host", .str "beta")]

theorem parseBytes?_hostTwice : Json.parseBytes? .nearest hostTwice.bytes = some hostTwice := by
  rw [Json.parseBytes?_bytes Json.Reader.readsBack_nearest]
  decide

theorem not_namesApart_hostTwice : ¬ NamesApart hostTwice := by
  intro h
  cases h with
  | scalar shape => cases shape
  | object names => exact absurd names (by decide)

/-- The payload is read, and nothing is left of the first name. -/
theorem unmarshal_hostTwice :
    Store.serverSchema.unmarshal .nearest [] hostTwice.bytes
      = .ok (.root (.obj [("host", .str "beta")])) ∧
    LastHeld hostTwice (.obj [("host", .str "beta")]) ∧
    ¬ Kept hostTwice (.obj [("host", .str "beta")]) := by
  have hread : Store.serverSchema.unmarshal .nearest [] hostTwice.bytes
      = .ok (.root (.obj [("host", .str "beta")])) :=
    unmarshal_eq_ok_iff.2 ⟨_, hostTwice, rfl, parseBytes?_hostTwice, rfl, rfl⟩
  obtain ⟨raw, hparse, hheld, hkept⟩ := kept_of_unmarshal hread
  obtain rfl := Option.some.inj (parseBytes?_hostTwice.symm.trans hparse)
  exact ⟨hread, hheld, fun h => not_namesApart_hostTwice (hkept.1 h)⟩

end Schema

end ConfigTree
