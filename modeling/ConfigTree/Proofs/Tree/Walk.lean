import ConfigTree.Proofs.Store.Frame
import ConfigTree.Proofs.Tree.Finds

/-!
# Walking along a path

A deletion goes down a path by `descend`, step by step, in a tree that it may change, while a get
reads the tree by `lookup`. The two treat a tree of the wrong shape differently: a step with keys
looks through the entries itself and fails at what is no list of objects, where `lookup` finds
nothing. In a valid tree they agree.

* `walk`: the steps of a path one after the other, none of which adds anything.
* `exists_modifyAt_iff_walk`, `modifyAt_failed_iff_walk`: a change below a path takes this walk.
* `Agrees`: a walk leaves the tree as it is, and reaches what a look-up finds.
* `walk_agrees`: in valid data each walk does.
-/

namespace ConfigTree.Tree

open ConfigTree.Path (Elem)
open Members (get?)
open Schema (Node)
open Schema.Node (Valid)

variable {n below m : Node} {entry : Bool} {e : Elem} {ms inner : Object} {v : Json}
  {p rest : List Elem} {err : TreeError}

/-! ### Walks -/

/-- Where the steps of a path end: at a node, before they come to one, or at a step that fails. A
look-up has the same three outcomes, as a result that may be an error or nothing. -/
inductive Walked where
  | reaches (value : Json) (schema : Node)
  | stops
  | fails (err : TreeError)

/-- Takes the steps of a path one after the other, as long as they lead to objects. Gives where
they end and the members of the start after that, into which each child has been put back. -/
def walk : List Elem → Object → Node → Walked × Object
  | [], ms, n => (.reaches (.obj ms) n, ms)
  | e :: rest, ms, n =>
    match descend ms n e false with
    | .error err => (.fails err, ms)
    | .ok none => (.stops, ms)
    | .ok (some (c, below)) =>
      match c.value with
      | .obj inner =>
        ((walk rest inner below).1, c.slot.put c.members (.obj (walk rest inner below).2))
      | v => (if rest.isEmpty then .reaches v below else .stops, c.slot.put c.members v)

theorem walk_of_error (h : descend ms n e false = .error err) (rest : List Elem) :
    walk (e :: rest) ms n = (.fails err, ms) := by
  rw [walk, h]

theorem walk_of_none (h : descend ms n e false = .ok none) (rest : List Elem) :
    walk (e :: rest) ms n = (.stops, ms) := by
  rw [walk, h]

theorem walk_of_obj {c : Child} (h : descend ms n e false = .ok (some (c, below)))
    (hvalue : c.value = .obj inner) (rest : List Elem) : walk (e :: rest) ms n =
      ((walk rest inner below).1, c.slot.put c.members (.obj (walk rest inner below).2)) := by
  rw [walk, h]
  simp only [hvalue]

/-- What is no object is reached only as the end of the path. -/
theorem walk_of_not_obj {c : Child} (h : descend ms n e false = .ok (some (c, below)))
    (hvalue : ∀ inner, c.value ≠ .obj inner) (rest : List Elem) : walk (e :: rest) ms n =
      (if rest.isEmpty then .reaches c.value below else .stops,
        c.slot.put c.members c.value) := by
  rw [walk, h]
  dsimp only
  split
  · next inner heq => exact absurd heq (hvalue inner)
  · rfl

/-! ### Changes below a path -/

section

variable {β : Type} {f : Object → Node → β × Object} {out : β}

theorem modifyAt_of_obj {c : Child} (h : descend ms n e false = .ok (some (c, below)))
    (hvalue : c.value = .obj inner) (rest : List Elem) : modifyAt false f (e :: rest) ms n =
      (modifyAt false f rest inner below).map fun (out, inner) =>
        (out, c.slot.put c.members (.obj inner)) := by
  rw [modifyAt, h]
  simp only [hvalue]

theorem modifyAt_of_not_obj {c : Child} (h : descend ms n e false = .ok (some (c, below)))
    (hvalue : ∀ inner, c.value ≠ .obj inner) (rest : List Elem) :
    modifyAt false f (e :: rest) ms n = .error (.notObject e c.value) := by
  rw [modifyAt, h]
  dsimp only
  split
  · next inner heq => exact absurd heq (hvalue inner)
  · rfl

/-- **A change that adds nothing is made just where a walk reaches an object.** Nothing is asked of
the tree here: the walk is what the change does, step by step, without the change. -/
theorem exists_modifyAt_iff_walk : (∃ ms', modifyAt false f p ms n = .ok (out, ms')) ↔
    ∃ inner m, (walk p ms n).1 = .reaches (.obj inner) m ∧ (f inner m).1 = out := by
  induction p generalizing ms n with
  | nil =>
    constructor
    · rintro ⟨ms', h⟩
      exact ⟨ms, n, rfl, congrArg Prod.fst (Except.ok.inj h)⟩
    · rintro ⟨inner, m, h, rfl⟩
      obtain ⟨heq, rfl⟩ := Walked.reaches.inj h
      obtain rfl := Json.obj.inj heq
      exact ⟨_, rfl⟩
  | cons e p ih =>
    match hstep : descend ms n e false with
    | .error err =>
      rw [modifyAt, walk_of_error hstep, hstep]
      refine iff_of_false ?_ ?_
      · rintro ⟨_, h⟩
        cases h
      · rintro ⟨_, _, h, -⟩
        cases h
    | .ok none =>
      rw [modifyAt, walk_of_none hstep, hstep]
      refine iff_of_false ?_ ?_
      · rintro ⟨_, h⟩
        cases h
      · rintro ⟨_, _, h, -⟩
        cases h
    | .ok (some (c, below)) =>
      by_cases hvalue : ∃ inner, c.value = .obj inner
      · obtain ⟨inner, hvalue⟩ := hvalue
        rw [modifyAt_of_obj hstep hvalue, walk_of_obj hstep hvalue, ← ih]
        constructor
        · rintro ⟨ms', h⟩
          obtain ⟨⟨out', inner'⟩, hinner, heq⟩ := map_eq_ok_iff.1 h
          obtain ⟨rfl, -⟩ := Prod.mk.inj heq
          exact ⟨inner', hinner⟩
        · rintro ⟨inner', hinner⟩
          exact ⟨_, map_eq_ok_iff.2 ⟨_, hinner, rfl⟩⟩
      -- what is no object may be reached, but it has no members to change
      · have hnot := not_exists.1 hvalue
        rw [modifyAt_of_not_obj hstep hnot, walk_of_not_obj hstep hnot]
        refine iff_of_false ?_ ?_
        · rintro ⟨_, h⟩
          cases h
        · rintro ⟨inner, m, h, -⟩
          dsimp only at h
          split at h
          · exact hnot inner (Walked.reaches.inj h).1
          · cases h

/-- A change that adds nothing fails at a step just where a walk does. -/
theorem modifyAt_failed_iff_walk : modifyAt false f p ms n = .error (.failed err) ↔
    (walk p ms n).1 = .fails err := by
  induction p generalizing ms n with
  | nil => exact iff_of_false (fun h => by cases h) fun h => by cases h
  | cons e p ih =>
    match hstep : descend ms n e false with
    | .error err' =>
      rw [modifyAt, walk_of_error hstep, hstep]
      dsimp only
      rw [Except.error.injEq, Obstacle.failed.injEq, Walked.fails.injEq]
    | .ok none =>
      rw [modifyAt, walk_of_none hstep, hstep]
      exact iff_of_false (fun h => by cases h) fun h => by cases h
    | .ok (some (c, below)) =>
      -- only an object is entered; at anything else both stop, and neither calls that a failure of
      -- the tree
      by_cases hvalue : ∃ inner, c.value = .obj inner
      · obtain ⟨inner, hvalue⟩ := hvalue
        rw [modifyAt_of_obj hstep hvalue, walk_of_obj hstep hvalue, ← ih]
        exact map_eq_error_iff
      · have hnot := not_exists.1 hvalue
        rw [modifyAt_of_not_obj hstep hnot, walk_of_not_obj hstep hnot]
        refine iff_of_false (fun h => by cases h) fun h => ?_
        dsimp only at h
        split at h <;> cases h

end

/-! ### Walks in valid data -/

/-- In valid data, what an element with keys names is an array of objects. -/
theorem NamesList.of_valid (h : Valid n entry (.obj ms)) (hschema : childSchema n e = .ok below) :
    NamesList ms e :=
  NamesList.of_formed h.formed trivial hschema

/-- The members of valid data are in order. -/
theorem sorted_of_valid (h : Valid n entry (.obj ms)) (hschema : childSchema n e = .ok below) :
    Members.Sorted ms := by
  cases h with
  | leaf fits => cases child?_of_childSchema hschema
  | object shape sorted => exact sorted

/-- A walk leaves the tree as it is. It reaches just what a look-up finds. If a step fails, then the
look-up fails in the same way, and it is for a name that the schema does not have. The converse of
the last part does not hold: a look-up asks the schema for names further on, where a walk has
stopped. -/
structure Agrees (p : List Elem) (ms : Object) (n : Node) : Prop where
  same : (walk p ms n).2 = ms
  reaches : ∀ v m, (walk p ms n).1 = .reaches v m ↔ lookup p (.obj ms) n = .ok (some (v, m))
  fails : ∀ err, (walk p ms n).1 = .fails err →
    lookup p (.obj ms) n = .error err ∧ ∃ place, err = .noSchemaNode place

theorem agrees_nil : Agrees [] ms n where
  same := rfl
  reaches v m := by
    constructor
    · intro h
      obtain ⟨rfl, rfl⟩ := Walked.reaches.inj h
      rfl
    · intro h
      obtain ⟨rfl, rfl⟩ := Prod.mk.inj (Option.some.inj (Except.ok.inj h))
      rfl
  fails err h := by cases h

/-- A name that the schema does not have is an error of both. -/
theorem agrees_of_error (hschema : childSchema n e = .error err) (rest : List Elem) :
    Agrees (e :: rest) ms n := by
  have hstep : descend ms n e false = .error err := by
    rw [descend, hschema]
    rfl
  have hlookup : lookup (e :: rest) (.obj ms) n = .error err := by
    rw [lookup_cons, hschema]
    rfl
  have hwalk := walk_of_error hstep rest
  refine ⟨by rw [hwalk], fun v m => ?_, fun err' h => ?_⟩
  · rw [hwalk, hlookup]
    exact iff_of_false (fun h => by cases h) fun h => by cases h
  · rw [hwalk] at h
    obtain rfl := Walked.fails.inj h
    exact ⟨hlookup, childSchema_error hschema⟩

/-- Where an element selects nothing, both come to nothing. The schema is not asked for what
follows. -/
theorem agrees_of_missing (hschema : childSchema n e = .ok below) (hlist : NamesList ms e)
    (hfound : found? ms e = none) (rest : List Elem) : Agrees (e :: rest) ms n := by
  have hwalk := walk_of_none (descend_of_missing hschema hlist hfound) rest
  refine ⟨by rw [hwalk], fun v m => ?_, fun err h => ?_⟩
  · rw [hwalk, lookup_cons_of_missing hschema hfound]
    exact iff_of_false (fun h => by cases h) fun h => by cases h
  · rw [hwalk] at h
    cases h

/-- Where an element selects an object, both go on in it. -/
theorem agrees_of_obj (hs : Members.Sorted ms) (hschema : childSchema n e = .ok below)
    (hlist : NamesList ms e) (hfound : found? ms e = some (.obj inner))
    (h : Agrees rest inner below) : Agrees (e :: rest) ms n := by
  obtain ⟨slot, hstep, hput⟩ := descend_of_found hschema hlist hfound false
  have hwalk := walk_of_obj hstep rfl rest
  have hlookup := lookup_cons_of_found hschema hfound rest
  refine ⟨?_, fun v m => ?_, fun err hfails => ?_⟩
  -- what is put back is what has been there
  · rw [hwalk]
    dsimp only
    rw [h.same, hput, setFound_found hs hfound]
  · rw [hwalk, hlookup]
    exact h.reaches v m
  · rw [hwalk] at hfails
    rw [hlookup]
    exact h.fails err hfails

/-- Nothing is found below what is no object, and no walk goes on from there. Both may end there, if
the path does. -/
theorem agrees_of_not_obj (hs : Members.Sorted ms) (hschema : childSchema n e = .ok below)
    (hlist : NamesList ms e) (hfound : found? ms e = some v) (hnot : ∀ inner, v ≠ .obj inner)
    (rest : List Elem) : Agrees (e :: rest) ms n := by
  obtain ⟨slot, hstep, hput⟩ := descend_of_found hschema hlist hfound false
  have hwalk := walk_of_not_obj hstep hnot rest
  have hlookup := lookup_cons_of_found hschema hfound rest
  refine ⟨?_, fun w m => ?_, fun err h => ?_⟩
  · rw [hwalk]
    dsimp only
    rw [hput, setFound_found hs hfound]
  · rw [hwalk, hlookup]
    -- the last element reaches what it finds, whatever that is; any further one needs an object
    cases rest with
    | nil =>
      rw [List.isEmpty_nil, if_pos rfl, lookup]
      dsimp only
      rw [Walked.reaches.injEq, Except.ok.injEq, Option.some.injEq, Prod.mk.injEq]
    | cons f rest =>
      refine iff_of_false (fun h => by cases h) fun h => ?_
      obtain ⟨inner, rfl⟩ := exists_obj_of_lookup h
      exact hnot inner rfl
  · rw [hwalk] at h
    dsimp only at h
    split at h <;> cases h

/-- **Each walk in valid data agrees with the look-up.** -/
theorem agrees_of_valid (h : Valid n entry (.obj ms)) (p : List Elem) : Agrees p ms n := by
  -- by induction on the path: what an element selects is valid at the child that it names
  induction p generalizing n entry ms with
  | nil => exact agrees_nil
  | cons e p ih =>
    cases hschema : childSchema n e with
    | error err => exact agrees_of_error hschema p
    | ok below =>
      have hlist := NamesList.of_valid h hschema
      have hs := sorted_of_valid h hschema
      cases hfound : found? ms e with
      | none => exact agrees_of_missing hschema hlist hfound p
      | some v =>
        by_cases hobj : ∃ inner, v = .obj inner
        · obtain ⟨inner, rfl⟩ := hobj
          exact agrees_of_obj hs hschema hlist hfound (ih (valid_of_found? h hschema hfound))
        · exact agrees_of_not_obj hs hschema hlist hfound (not_exists.1 hobj) p

/-- **A walk in a valid tree agrees with the look-up of its path**, whatever keys the path has. It
reaches a node just where the look-up finds one, with the same value and the same schema, and it
leaves the tree as it is. No step meets anything but a list of objects where it looks for an entry:
what fails is for a name that the schema does not have. -/
theorem walk_agrees {s : Schema} {tree : Json} (hs : s.Loaded) (htree : tree.Normal)
    (hvalid : s.validate (Subtree.root tree) = .ok ()) (p : List Elem) :
    ∃ ms, tree = .obj ms ∧ (walk p ms s.root).2 = ms ∧
      (∀ v m, (walk p ms s.root).1 = .reaches v m ↔
        lookup p tree s.root = .ok (some (v, m))) ∧
      ∀ err, (walk p ms s.root).1 = .fails err →
        lookup p tree s.root = .error err ∧ ∃ place, err = .noSchemaNode place := by
  have hroot := Schema.valid_root htree hvalid
  obtain ⟨children, hshape⟩ := hs.hasMembers
  obtain ⟨ms, rfl⟩ := hroot.eq_obj hshape
  have hagrees := agrees_of_valid hroot p
  exact ⟨ms, rfl, hagrees.same, hagrees.reaches, hagrees.fails⟩

/-- A walk reaches the port of the second server. -/
theorem walk_newPort : ∃ ms, Store.grownTree = .obj ms ∧
    walk Store.newPort ms Store.serverSchema.root
      = (.reaches (.num (.ofUInt64 8080)) (.leaf none (.uint 16)), ms) := by
  obtain ⟨ms, hms, hsame, hreaches, -⟩ :=
    walk_agrees Store.loaded_serverSchema Store.normal_grownTree rfl Store.newPort
  exact ⟨ms, hms, Prod.ext ((hreaches _ _).2 rfl) hsame⟩

end ConfigTree.Tree
