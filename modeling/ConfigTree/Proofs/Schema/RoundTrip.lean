import ConfigTree.Message.Model
import ConfigTree.Proofs.Json.Record

/-!
# Schemas are read back

The readers of models, scalar kinds and schema nodes get back what was written, from the document as
it is written and from its value (`Json.Reads`).

* `ScalarKind.reads_ofReadable?`, `Node.Ordered.reads_ofReadable?`: kinds and nodes inside another
  tagged record, whose tags may be numbers.
* `Model.reads`, `ScalarKind.reads`, `Node.Ordered.reads`: those that stand alone.
-/

namespace ConfigTree

open Json (FormOf MembersOf Reads ReadsIn Reader Term readsIn_str readsIn_uint8)
open Members (get? Sorted)

variable {r : Reader}

theorem Model.reads (m : Model) : Reads Model.ofTerm? m.toJson m := by
  intro room hdepth k hk
  obtain ⟨inner, fs, hrecord, hfs⟩ := Term.exists_record hk hdepth
    (by decide : ["name", "organization", "version"].Nodup) (.refl _)
  have hname : Term.required? fs "name" Term.asString? = some m.name :=
    hfs.required rfl fun _ => Json.readsIn_str m.name
  have horganization : Term.defaulted? fs "organization" "" Term.asString? = some m.organization :=
    hfs.defaulted rfl "" fun _ => Json.readsIn_str m.organization
  have hversion : Term.defaulted? fs "version" "" Term.asString? = some m.version :=
    hfs.defaulted rfl "" fun _ => Json.readsIn_str m.version
  rw [ofTerm?, hrecord]
  simp only [Option.bind_eq_bind, Option.bind_some, hname, horganization, hversion]
  rfl

/-! ### Kinds of scalars -/

/-- A tag is read by its name. A reader of a record inside a record would also take its number,
which is not what is written. -/
theorem tagName?_string {names : List String} {name : String} (h : name ∈ names) (nested : Bool) :
    tagName? names nested (.string (some name)) = some name :=
  if_pos (List.contains_iff_mem.2 h)

namespace ScalarKind

/-- The name of a kind. -/
def base : ScalarKind → String
  | .string => "string"
  | .int _ => "int"
  | .uint _ => "uint"
  | .bool => "bool"
  | .decimal => "decimal"
  | .enumeration _ => "enumeration"
  | .binary => "binary"

/-- The members of a kind's document besides its name. -/
def params : ScalarKind → List (String × Json)
  | .int bits | .uint bits => [("bits", .num (.ofUInt64 bits.toUInt64))]
  | .enumeration values => [("values", .arr (values.map .str))]
  | _ => []

theorem toJson_eq (kind : ScalarKind) :
    kind.toJson = .obj (("base", .str kind.base) :: kind.params) := by
  cases kind <;> rfl

theorem tagName?_base (nested : Bool) (kind : ScalarKind) :
    tagName? bases nested (.string (some kind.base)) = some kind.base := by
  refine tagName?_string ?_ nested
  cases kind with
  | int => exact (by decide : "int" ∈ bases)
  | uint => exact (by decide : "uint" ∈ bases)
  | enumeration => exact (by decide : "enumeration" ∈ bases)
  | _ => decide

/-- The names of the members of a kind's document differ. -/
theorem nodup_params (kind : ScalarKind) : ("base" :: kind.params.map Prod.fst).Nodup := by
  cases kind with
  | int | uint => exact (by decide : ["base", "bits"].Nodup)
  | enumeration => exact (by decide : ["base", "values"].Nodup)
  | _ => exact (by decide : ["base"].Nodup)

/-- A kind is an object with its name and, for some, one more field. Kinds that have none are still
records, which may have no field but the name. -/
theorem reads_ofReadable? (nested : Bool) (kind : ScalarKind) :
    Reads (ofReadable? nested) kind.toJson kind := by
  intro room hdepth k hk
  rw [toJson_eq] at hk hdepth
  obtain ⟨inner, rest, fs, rfl, htagged, hfields, hfs⟩ :=
    Term.exists_tagged_record hk hdepth kind.nodup_params (.refl _)
  rw [ofReadable?, htagged]
  simp only [Option.bind_eq_bind, Option.bind_some, tagName?_base nested kind]
  -- the tag has told the kind, and what is left are its parameters
  cases kind with
  | string | bool | decimal | binary =>
    have hnone : rest.fields? [] = some fs := hfields
    simp only [base, ofFields?, hnone, Option.map_some]
  | int bits | uint bits =>
    have hread : rest.fields? ["bits"] = some fs := hfields
    have hbits : Term.required? fs "bits" Term.asUInt8? = some bits :=
      hfs.required rfl fun _ => readsIn_uint8 bits
    simp only [base, ofFields?, hread, Option.bind_eq_bind, Option.bind_some, hbits]
    rfl
  | enumeration values =>
    have hread : rest.fields? ["values"] = some fs := hfields
    have hvalues : Term.required? fs "values" (Term.list? (fun _ => Term.asString?) (inner + 1))
        = some values :=
      hfs.required rfl fun hdepth =>
        .list Json.str (Nat.le_succ_of_le hdepth) fun s _ _ _ => readsIn_str s
    simp only [base, ofFields?, hread, Option.bind_eq_bind, Option.bind_some, hvalues]
    rfl

theorem reads (hr : r.ReadsBack) (kind : ScalarKind) :
    Reads (ScalarKind.ofTerm? r) kind.toJson kind := by
  intro room hdepth k hk
  have hread := Json.read?_ofJson k (hr.readBy k) (Nat.le_trans hk.depth_le hdepth)
  rw [ofTerm?, hread, Option.bind_some]
  exact reads_ofReadable? false kind room hdepth k hk

end ScalarKind

/-! ### Nodes -/

namespace Schema.Node

/-- The children of every node are a map by their names. A schema that is read is of this sort;
one that is put together by hand may have children in any order, and then comes back with another
one. -/
inductive Ordered : Node → Prop
  | container (home : Option String) {children : List (String × Node)} : Sorted children →
      (∀ m ∈ children, Ordered m.2) → Ordered (.container home children)
  | list (home : Option String) (keys : List String) {children : List (String × Node)} :
      Sorted children → (∀ m ∈ children, Ordered m.2) → Ordered (.list home keys children)
  | leaf (home : Option String) (kind : ScalarKind) : Ordered (.leaf home kind)
  | leafList (home : Option String) (kind : ScalarKind) : Ordered (.leafList home kind)

theorem childrenToJson_eq_map (children : List (String × Node)) :
    childrenToJson children = children.map fun m => (m.1, m.2.toJson) := by
  induction children with
  | nil => rfl
  | cons m rest ih =>
    obtain ⟨name, n⟩ := m
    rw [childrenToJson, ih, List.map_cons]

/-- The names of a node's members, in their order, whether or not it names its module. -/
theorem names_homeMember (home : Option String) {ms : List (String × Json)} {names : List String}
    (hms : ms.map Prod.fst = names) :
    ((homeMember home ++ ms).map Prod.fst).Sublist ("module" :: names) := by
  subst hms
  cases home with
  | none => exact .cons _ (.refl _)
  | some m => exact .refl _

/-- The module of a node, if it names one, is read back. It is left out if there is none, so it
comes first or not at all. -/
theorem optional_home {home : Option String} {ms : List (String × Json)} {room : Nat}
    {fs : List (String × Term)} (hfs : Term.FieldsOf room fs (homeMember home ++ ms))
    (hms : get? ms "module" = none) :
    Term.optional? fs "module" Term.asString? = some home := by
  have hget : get? (homeMember home ++ ms) "module" = home.map Json.str := by
    cases home with
    | none => exact hms
    | some m => rfl
  exact hfs.optional_map Json.str hget (fun _ => rfl) fun m _ => readsIn_str m

theorem get?_homeMember (home : Option String) (ms : List (String × Json)) {name : String}
    (hne : name ≠ "module") : get? (homeMember home ++ ms) name = get? ms name := by
  cases home with
  | none => rfl
  | some m => exact (Members.get?_cons _ _ _ _).trans (if_neg hne.symm)

/-- The kind of a leaf or of the items of a leaf-list is read back. -/
theorem required_type {home : Option String} {kind : ScalarKind} {inner : Nat}
    {fs : List (String × Term)}
    (hfs : Term.FieldsOf inner fs (homeMember home ++ [("type", kind.toJson)])) :
    Term.required? fs "type" (ScalarKind.ofReadable? true (inner + 1)) = some kind :=
  hfs.required (get?_homeMember home _ (by decide)) fun hdepth =>
    ScalarKind.reads_ofReadable? true kind _ (Nat.le_succ_of_le hdepth)

/-- Children in order are read back if each of them is. -/
theorem defaulted_children {home : Option String} {ms : List (String × Json)}
    {children : List (String × Node)} {inner : Nat} {fs : List (String × Term)}
    (hfs : Term.FieldsOf inner fs (homeMember home ++ ms))
    (hget : get? ms "children" = some (.obj (children.map fun m => (m.1, m.2.toJson))))
    (hs : Sorted children)
    (hread : ∀ m ∈ children, Reads (fun room => ofReadable? room true) m.2.toJson m.2) :
    Term.defaulted? fs "children" [] (Term.map? (fun _ => ofReadable? inner true) (inner + 1))
      = some children :=
  hfs.defaulted ((get?_homeMember home ms (by decide)).trans hget) [] fun hdepth =>
    .map toJson hs (Nat.le_succ_of_le hdepth) fun m hm hroom => hread m hm inner hroom

/-- **A node is read back with all nodes below it.** The four kinds of nodes are records with the
same first fields, and differ in the last ones; the induction is on the order of children. -/
theorem Ordered.reads_ofReadable? {n : Node} (h : n.Ordered) (nested : Bool) :
    Reads (fun room => ofReadable? room nested) n.toJson n := by
  -- the nodes below are read as nested ones, whichever way this one is read
  induction h generalizing nested with
  | @container home children hs _ ih =>
    intro room hdepth k hk
    rw [toJson, childrenToJson_eq_map, List.append_assoc, List.singleton_append] at hk hdepth
    obtain ⟨inner, rest, fs, rfl, htagged, hfields, hfs⟩ := Term.exists_tagged_record hk hdepth
      (by decide : ["kind", "module", "children"].Nodup) (names_homeMember home rfl)
    have hhome := optional_home hfs rfl
    have hchildren := defaulted_children hfs rfl hs fun m hm => ih m hm true
    beta_reduce
    rw [ofReadable?, htagged]
    simp only [Option.bind_eq_bind, Option.bind_some,
      tagName?_string (by decide : "container" ∈ kinds), hfields, hhome, hchildren]
    rfl
  | @list home keys children hs _ ih =>
    intro room hdepth k hk
    rw [toJson, childrenToJson_eq_map, List.append_assoc, List.singleton_append] at hk hdepth
    obtain ⟨inner, rest, fs, rfl, htagged, hfields, hfs⟩ := Term.exists_tagged_record hk hdepth
      (by decide : ["kind", "module", "keys", "children"].Nodup) (names_homeMember home rfl)
    have hhome := optional_home hfs rfl
    have hkeys : Term.required? fs "keys" (Term.list? (fun _ => Term.asString?) (inner + 1))
        = some keys :=
      hfs.required (get?_homeMember home _ (by decide)) fun hdepth =>
        .list Json.str (Nat.le_succ_of_le hdepth) fun s _ _ _ => readsIn_str s
    have hchildren := defaulted_children hfs rfl hs fun m hm => ih m hm true
    beta_reduce
    rw [ofReadable?, htagged]
    simp only [Option.bind_eq_bind, Option.bind_some, tagName?_string (by decide : "list" ∈ kinds),
      hfields, hhome, hkeys, hchildren]
    rfl
  | leaf home kind =>
    intro room hdepth k hk
    rw [toJson, List.append_assoc, List.singleton_append] at hk hdepth
    obtain ⟨inner, rest, fs, rfl, htagged, hfields, hfs⟩ := Term.exists_tagged_record hk hdepth
      (by decide : ["kind", "module", "type"].Nodup) (names_homeMember home rfl)
    have hhome := optional_home hfs rfl
    have hkind := required_type hfs
    beta_reduce
    rw [ofReadable?, htagged]
    simp only [Option.bind_eq_bind, Option.bind_some, tagName?_string (by decide : "leaf" ∈ kinds),
      hfields, hhome, hkind]
    rfl
  | leafList home kind =>
    intro room hdepth k hk
    rw [toJson, List.append_assoc, List.singleton_append] at hk hdepth
    obtain ⟨inner, rest, fs, rfl, htagged, hfields, hfs⟩ := Term.exists_tagged_record hk hdepth
      (by decide : ["kind", "module", "type"].Nodup) (names_homeMember home rfl)
    have hhome := optional_home hfs rfl
    have hkind := required_type hfs
    beta_reduce
    rw [ofReadable?, htagged]
    simp only [Option.bind_eq_bind, Option.bind_some,
      tagName?_string (by decide : "leaf-list" ∈ kinds), hfields, hhome, hkind]
    rfl

theorem Ordered.reads (hr : r.ReadsBack) {n : Node} (h : n.Ordered) :
    Reads (Node.ofTerm? r) n.toJson n := by
  intro room hdepth k hk
  have hread := Json.read?_ofJson k (hr.readBy k) (Nat.le_trans hk.depth_le hdepth)
  rw [ofTerm?, hread, Option.bind_some]
  exact h.reads_ofReadable? false room hdepth k hk

end Schema.Node

end ConfigTree
