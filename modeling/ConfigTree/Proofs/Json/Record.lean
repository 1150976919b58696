import ConfigTree.Json.Record
import ConfigTree.Proofs.Json.ReadBack

/-!
# Records are read back

A document comes to its reader as it is written, or as a value that holds the members of each object
sorted by name (`FormOf`). What a reader of records, maps and lists makes of it is the same.

* `FormOf.arr`, `FormOf.obj`, `FormOf.sorted`: the forms of arrays and objects, by those of their
  parts. Only the members of an object may change places, and not if they are sorted already.
* `ReadsIn`, `Reads`: a reader gets a value from every form of a document, if it has room for it.
* `Term.exists_record`: an object whose names are among those of a record, in their order, is read
  as one; `Term.FieldsOf` is what the reader of a field then goes by.
* `Reads.list`, `Reads.map`: lists and maps are read if their items are.
* `Term.exists_single`, `Term.exists_tagged_record`: a choice is read as its name and its value, and
  a tagged record as its tag and a record.
* `RoundTrips`: a value is read back from its document and from the text of that, which a reader
  that has every form does (`RoundTrips.of_reads`, `Reads.roundTrips`).
-/

namespace ConfigTree.Json

open Members (get? Sorted)

variable {α : Type}

/-! ### Forms -/

/-- A document as it is written, or with the members of its objects sorted. A message is written in
the first form, and a reader of documents hands it on in the second one. -/
def FormOf (k j : Json) : Prop := k = j ∨ k = j.normalize

theorem FormOf.refl (j : Json) : FormOf j j := .inl rfl

theorem FormOf.normalize (j : Json) : FormOf j.normalize j := .inr rfl

theorem FormOf.eq_of_isScalar {k j : Json} (h : FormOf k j) (hj : j.isScalar = true) : k = j := by
  rcases h with h | h
  · exact h
  · cases j with
    | arr xs => cases hj
    | obj ms => cases hj
    | _ => exact h

theorem normalizeList_eq_map (xs : List Json) : normalizeList xs = xs.map Json.normalize := by
  induction xs with
  | nil => rfl
  | cons x xs ih => rw [normalizeList, ih, List.map_cons]

theorem normalizeMembers_eq_map (ms : List (String × Json)) :
    normalizeMembers ms = ms.map fun m => (m.1, m.2.normalize) := by
  induction ms with
  | nil => rfl
  | cons m ms ih =>
    obtain ⟨k, x⟩ := m
    rw [normalizeMembers, ih, List.map_cons]

/-- The items of an array keep their order, since it is only members that are sorted. -/
theorem FormOf.arr {k : Json} {xs : List Json} (h : FormOf k (.arr xs)) :
    ∃ ys, k = .arr ys ∧ List.Forall₂ FormOf ys xs := by
  rcases h with rfl | rfl
  · exact ⟨xs, rfl, List.forall₂_same.2 fun x _ => .refl x⟩
  · refine ⟨normalizeList xs, rfl, ?_⟩
    rw [normalizeList_eq_map, List.forall₂_map_left_iff]
    exact List.forall₂_same.2 fun x _ => .normalize x

/-- The members of an object whose members are sorted keep their order, so such an object is read in
the one form that it has. -/
theorem FormOf.sorted {k : Json} {ms : List (String × Json)} (h : FormOf k (.obj ms))
    (hs : Sorted ms) :
    ∃ ns, k = .obj ns ∧ List.Forall₂ (fun n m => n.1 = m.1 ∧ FormOf n.2 m.2) ns ms := by
  rcases h with rfl | rfl
  · exact ⟨ms, rfl, List.forall₂_same.2 fun m _ => ⟨rfl, .refl m.2⟩⟩
  · have hsorted : Sorted (normalizeMembers ms) := by
      rw [normalizeMembers_eq_map]
      exact Members.sorted_map _ hs
    refine ⟨normalizeMembers ms, by rw [Json.normalize, Members.ofList_of_sorted hsorted], ?_⟩
    rw [normalizeMembers_eq_map, List.forall₂_map_left_iff]
    exact List.forall₂_same.2 fun m _ => ⟨rfl, .normalize m.2⟩

/-- An object of one member. -/
theorem FormOf.single {k j : Json} {name : String} (h : FormOf k (.obj [(name, j)])) :
    ∃ k', k = .obj [(name, k')] ∧ FormOf k' j := by
  obtain ⟨ns, rfl, hns⟩ := h.sorted (List.pairwise_singleton _ _)
  obtain ⟨n, rest, hn, hrest, rfl⟩ := List.forall₂_cons_right_iff.1 hns
  obtain rfl := List.forall₂_nil_right_iff.1 hrest
  obtain ⟨name', k'⟩ := n
  obtain ⟨rfl, hk'⟩ := hn
  exact ⟨k', rfl, hk'⟩

/-- The same members in some order, each in one of its forms. It is stated by the view, since that
is how the fields of a record are found. -/
structure MembersOf (ns ms : List (String × Json)) : Prop where
  nodup : (ns.map Prod.fst).Nodup
  found : ∀ {name j}, get? ms name = some j → ∃ k, get? ns name = some k ∧ FormOf k j
  missing : ∀ {name}, get? ms name = none → get? ns name = none

/-- The members of an object whose names differ. They may be in another order, but each is there
once, with a value that is one of its forms. -/
theorem FormOf.obj {k : Json} {ms : List (String × Json)} (h : FormOf k (.obj ms))
    (hnodup : (ms.map Prod.fst).Nodup) : ∃ ns, k = .obj ns ∧ MembersOf ns ms := by
  rcases h with rfl | rfl
  · exact ⟨ms, rfl, hnodup, fun {_ j} hget => ⟨j, hget, .refl j⟩, id⟩
  · have hnames : ((normalizeMembers ms).map Prod.fst).Nodup := by
      rw [normalizeMembers_eq_map, List.map_map]
      exact hnodup
    -- sorting changes places only: the names differ, so none is overwritten
    have hget (name : String) : get? (Members.ofList (normalizeMembers ms)) name
        = (get? ms name).map Json.normalize := by
      rw [Members.get?_ofList_of_nodup hnames, normalizeMembers_eq_map, Members.get?_map]
    refine ⟨_, rfl, Members.nodup_names (Members.sorted_ofList _), ?_, ?_⟩
    · intro name j hj
      exact ⟨j.normalize, by rw [hget, hj, Option.map_some], .normalize j⟩
    · intro name hnone
      rw [hget, hnone, Option.map_none]

/-- The same members without those of one name. -/
theorem MembersOf.without {ns ms : List (String × Json)} (h : MembersOf ns ms) (name : String) :
    MembersOf (ns.filter fun m => m.1 != name) (ms.filter fun m => m.1 != name) := by
  refine ⟨(List.filter_sublist.map _).nodup h.nodup, ?_, ?_⟩
  · intro key j hj
    rw [Members.get?_filter_ne] at hj ⊢
    split at hj
    · cases hj
    · next hne =>
      rw [if_neg hne]
      exact h.found hj
  · intro key hnone
    rw [Members.get?_filter_ne] at hnone ⊢
    split
    · rfl
    · next hne =>
      rw [if_neg hne] at hnone
      exact h.missing hnone

/-- Sorting members makes a document no deeper. It may become less deep, where a repeated member is
dropped. -/
theorem depth_normalize_le (j : Json) : j.normalize.depth ≤ j.depth := by
  induction j using induction_on with | step j ih =>
  cases j with
  | arr xs =>
    rw [Json.normalize, depth, depth, normalizeList_eq_map]
    refine Nat.succ_le_succ (depthList_le fun y hy => ?_)
    obtain ⟨x, hx, rfl⟩ := List.mem_map.1 hy
    exact Nat.le_trans (ih x hx) (le_depthList hx)
  | obj ms =>
    rw [Json.normalize, depth, depth, normalizeMembers_eq_map]
    refine Nat.succ_le_succ (depthMembers_le fun n hn => ?_)
    -- sorting may lose members, and adds none
    obtain ⟨m, hm, rfl⟩ := List.mem_map.1 (Members.mem_of_mem_ofList hn)
    exact Nat.le_trans (ih m.2 (List.mem_map_of_mem hm)) (le_depthMembers hm)
  | _ => exact Nat.le_refl _

theorem FormOf.depth_le {k j : Json} (h : FormOf k j) : k.depth ≤ j.depth := by
  rcases h with rfl | rfl
  · exact Nat.le_refl _
  · exact depth_normalize_le j

/-! ### Readers -/

/-- A reader gets a value from every form of a document. So it does not matter whether the members
have been sorted on the way. -/
def ReadsIn (value : Term → Option α) (j : Json) (x : α) : Prop :=
  ∀ k, FormOf k j → value (Term.ofJson k) = some x

/-- A reader gets a value from every form of a document, if it may go as deep. Records hand this on
to their fields with less room, and ask for nothing else. -/
def Reads (value : Nat → Term → Option α) (j : Json) (x : α) : Prop :=
  ∀ room, j.depth ≤ room → ReadsIn (value room) j x

theorem ReadsIn.of_isScalar {value : Term → Option α} {j : Json} {x : α} (hj : j.isScalar = true)
    (h : value (Term.ofJson j) = some x) : ReadsIn value j x := by
  intro k hk
  rw [hk.eq_of_isScalar hj, h]

theorem readsIn_str (s : String) : ReadsIn Term.asString? (.str s) s :=
  .of_isScalar rfl rfl

theorem readsIn_bool (b : Bool) : ReadsIn Term.asBool? (.bool b) b :=
  .of_isScalar rfl rfl

theorem asWhole?_whole (n : Int) (fits : Fits n) :
    Term.asWhole? (Term.ofJson (.num (.whole n fits))) = some (.whole n fits) :=
  Number.wholeOfLiteral?_ofInt n fits

theorem readsIn_int64 (n : Int64) : ReadsIn Term.asInt64? (.num (.ofInt64 n)) n := by
  refine .of_isScalar rfl ?_
  have hlt : n.toInt < 9223372036854775808 := n.toInt_lt
  rw [Number.ofInt64, Term.asInt64?, asWhole?_whole, Option.bind_some, Number.toInt64?, if_pos hlt,
    Int64.ofInt_toInt]

theorem asUInt64?_ofUInt64 (n : UInt64) :
    Term.asUInt64? (Term.ofJson (.num (.ofUInt64 n))) = some n := by
  rw [Number.ofUInt64, Term.asUInt64?, asWhole?_whole, Option.bind_some, Number.toUInt64?,
    if_pos (Int.natCast_nonneg _), Int.toNat_natCast, UInt64.ofNat_toNat]

theorem readsIn_uint64 (n : UInt64) : ReadsIn Term.asUInt64? (.num (.ofUInt64 n)) n :=
  .of_isScalar rfl (asUInt64?_ofUInt64 n)

theorem readsIn_uint8 (n : UInt8) : ReadsIn Term.asUInt8? (.num (.ofUInt64 n.toUInt64)) n := by
  refine .of_isScalar rfl ?_
  have hlt : n.toUInt64 < 256 := by
    rw [UInt64.lt_iff_toNat_lt, UInt8.toNat_toUInt64]
    exact n.toNat_lt
  rw [Term.asUInt8?, asUInt64?_ofUInt64, Option.filter_some, decide_eq_true hlt, if_pos rfl,
    Option.map_some, UInt8.toUInt8_toUInt64]

theorem readsIn_float {r : Reader} (hr : r.ReadsBack) (x : Binary64) :
    ReadsIn (Term.asBinary64? r) (.num (.float x)) x := by
  refine .of_isScalar rfl ?_
  have hread := Number.ofLiteral?_literal hr (.float x)
  rw [Term.ofJson, Term.asBinary64?, hread]
  rfl

namespace Term

theorem ofItems_eq_map (xs : List Json) : ofItems xs = xs.map ofJson := by
  induction xs with
  | nil => rfl
  | cons x xs ih => rw [ofItems, ih, List.map_cons]

theorem ofMembers_eq_map (ms : List (String × Json)) :
    ofMembers ms = ms.map fun m => (some m.1, ofJson m.2) := by
  induction ms with
  | nil => rfl
  | cons m ms ih =>
    obtain ⟨k, x⟩ := m
    rw [ofMembers, ih, List.map_cons]

/-! ### Records -/

/-- The fields of a record as its readers find them, each with a form of the member that it is and
with room for it. The statements on single fields go by this alone, and not by how the record was
written. -/
structure FieldsOf (room : Nat) (fs : List (String × Term)) (ms : List (String × Json)) : Prop where
  found : ∀ {name j}, get? ms name = some j →
    j.depth ≤ room ∧ ∃ k, FormOf k j ∧ get? fs name = some (ofJson k)
  missing : ∀ {name}, get? ms name = none → get? fs name = none

/-- All members of an object are fields of a record if their names differ and are those of
fields. -/
theorem fields?_ofMembers {names : List String} {ns : List (String × Json)}
    (hnodup : (ns.map Prod.fst).Nodup) (hknown : ∀ n ∈ ns, n.1 ∈ names) :
    fields? names (.object (ofMembers ns)) = some (ns.map fun n => (n.1, ofJson n.2)) := by
  have hnamed : (ofMembers ns).mapM (fun m : Option String × Term => m.1.map (·, m.2))
      = some (ns.map fun n => (n.1, ofJson n.2)) := by
    rw [ofMembers_eq_map, mapM_eq_some_iff, List.forall₂_map_left_iff, List.forall₂_map_right_iff]
    exact List.forall₂_same.2 fun n _ => rfl
  -- no member is ignored, and none comes twice
  have hall : (ns.map fun n => (n.1, ofJson n.2)).filter (fun m => names.contains m.1)
      = ns.map fun n => (n.1, ofJson n.2) := by
    rw [List.filter_eq_self]
    intro m hm
    obtain ⟨n, hn, rfl⟩ := List.mem_map.1 hm
    exact List.contains_iff_mem.2 (hknown n hn)
  have hnames : ((ns.map fun n => (n.1, ofJson n.2)).map Prod.fst).Nodup := by
    rw [List.map_map]
    exact hnodup
  rw [fields?, hnamed, Option.bind_eq_bind, Option.bind_some]
  simp only [hall, if_pos hnames]

/-- Members that are the same as those of a record are its fields. The order in which they stand
does not matter to the reader. -/
theorem exists_fields {names : List String} {ns ms : List (String × Json)} {room : Nat}
    (h : MembersOf ns ms) (hnames : (ms.map Prod.fst).Sublist names)
    (hdepth : depthMembers ms ≤ room) :
    ∃ fs, fields? names (.object (ofMembers ns)) = some fs ∧ FieldsOf room fs ms := by
  -- a member with a name that the record does not have would be missing among the fields
  have hknown : ∀ n ∈ ns, n.1 ∈ names := by
    intro n hn
    cases hget : get? ms n.1 with
    | some j =>
      have hmem := Members.mem_of_get? hget
      exact hnames.subset (List.mem_map.2 ⟨_, hmem, rfl⟩)
    | none =>
      have hnone := h.missing hget
      rw [Members.get?_of_mem_of_nodup h.nodup hn] at hnone
      cases hnone
  refine ⟨_, fields?_ofMembers h.nodup hknown, ?_, ?_⟩
  · intro name j hj
    obtain ⟨k, hk, hform⟩ := h.found hj
    have hmem := Members.mem_of_get? hj
    refine ⟨Nat.le_trans (le_depthMembers hmem) hdepth, k, hform, ?_⟩
    rw [Members.get?_map, hk, Option.map_some]
  · intro name hnone
    rw [Members.get?_map, h.missing hnone, Option.map_none]

/-- **An object whose names are among those of a record is read as the record.** -/
theorem exists_record {names : List String} {k : Json} {ms : List (String × Json)} {room : Nat}
    (hform : FormOf k (.obj ms)) (hdepth : (Json.obj ms).depth ≤ room) (hnodup : names.Nodup)
    (hnames : (ms.map Prod.fst).Sublist names) :
    ∃ inner fs, record? names room (ofJson k) = some (inner, fs) ∧ FieldsOf inner fs ms := by
  obtain ⟨ns, rfl, hns⟩ := hform.obj (hnames.nodup hnodup)
  rw [depth] at hdepth
  obtain ⟨inner, rfl⟩ := Nat.exists_eq_add_one.2 (Nat.lt_of_lt_of_le (Nat.succ_pos _) hdepth)
  obtain ⟨fs, hfs, hfields⟩ := exists_fields hns hnames (Nat.le_of_succ_le_succ hdepth)
  refine ⟨inner, fs, ?_, hfields⟩
  rw [ofJson, record?, hfs]
  rfl

namespace FieldsOf

variable {room : Nat} {fs : List (String × Term)} {ms : List (String × Json)} {name : String}
  {j : Json} {x : α} {value : Term → Option α}

theorem required (h : FieldsOf room fs ms) (hget : get? ms name = some j)
    (hvalue : j.depth ≤ room → ReadsIn value j x) : required? fs name value = some x := by
  obtain ⟨hdepth, k, hk, hfs⟩ := h.found hget
  rw [required?, hfs, Option.bind_some, hvalue hdepth k hk]

theorem defaulted (h : FieldsOf room fs ms) (hget : get? ms name = some j) (default : α)
    (hvalue : j.depth ≤ room → ReadsIn value j x) : defaulted? fs name default value = some x := by
  obtain ⟨hdepth, k, hk, hfs⟩ := h.found hget
  rw [defaulted?, hfs]
  exact hvalue hdepth k hk

/-- A field that is left out has its default. -/
theorem defaulted_none (h : FieldsOf room fs ms) (hget : get? ms name = none)
    (default : α) : defaulted? fs name default value = some default := by
  rw [defaulted?, h.missing hget]

theorem optional (h : FieldsOf room fs ms) (hget : get? ms name = some j) (hnull : j.isNull = false)
    (hvalue : j.depth ≤ room → ReadsIn value j x) :
    optional? fs name value = some (some x) := by
  obtain ⟨hdepth, k, hk, hfs⟩ := h.found hget
  have hread := hvalue hdepth k hk
  -- no form of the document is null
  have hnot : ofJson k ≠ .null := by
    have hknull : k.isNull = false := by
      rcases hk with rfl | rfl
      · exact hnull
      · cases j <;> first | rfl | exact hnull
    intro heq
    cases k with
    | null => cases hknull
    | _ => cases heq
  rw [optional?, hfs]
  split
  · next heq => cases heq
  · next heq => exact absurd (Option.some.inj heq) hnot
  · next heq =>
    obtain rfl := Option.some.inj heq
    rw [hread, Option.map_some]

theorem optional_none (h : FieldsOf room fs ms) (hget : get? ms name = none) :
    optional? fs name value = some none := by
  rw [optional?, h.missing hget]

/-- A field that is left out if there is no value. The reader takes its absence for that. -/
theorem optional_map {β : Type} {value : Term → Option β} (h : FieldsOf room fs ms)
    (toJson : β → Json) {o : Option β} (hget : get? ms name = o.map toJson)
    (hnull : ∀ x, (toJson x).isNull = false)
    (hvalue : ∀ x, (toJson x).depth ≤ room → ReadsIn value (toJson x) x) :
    optional? fs name value = some o := by
  cases o with
  | none => exact h.optional_none hget
  | some x => exact h.optional hget (hnull x) (hvalue x)

theorem optional_null (h : FieldsOf room fs ms) (hget : get? ms name = some .null) :
    optional? fs name value = some none := by
  obtain ⟨-, k, hk, hfs⟩ := h.found hget
  obtain rfl := hk.eq_of_isScalar rfl
  rw [optional?, hfs]
  rfl

/-- A field that is null if there is no value. The reader takes the null for that, the same as an
absence. -/
theorem optional_orNull {β : Type} {value : Term → Option β} (h : FieldsOf room fs ms)
    (toJson : β → Json) {o : Option β} (hget : get? ms name = some ((o.map toJson).getD .null))
    (hnull : ∀ x, (toJson x).isNull = false)
    (hvalue : ∀ x, (toJson x).depth ≤ room → ReadsIn value (toJson x) x) :
    optional? fs name value = some o := by
  cases o with
  | none => exact h.optional_null hget
  | some x => exact h.optional hget (hnull x) (hvalue x)

end FieldsOf

/-! ### Lists, maps and choices -/

theorem readsIn_ofItems {value : Term → Option α} {ks js : List Json} {xs : List α}
    (hforms : List.Forall₂ FormOf ks js) (h : List.Forall₂ (ReadsIn value) js xs) :
    (ofItems ks).mapM value = some xs := by
  rw [ofItems_eq_map, mapM_eq_some_iff, List.forall₂_map_left_iff]
  induction hforms generalizing xs with
  | nil =>
    cases h
    exact .nil
  | cons hk _ ih =>
    cases h with
    | cons hx hrest => exact .cons (hx _ hk) (ih hrest)

theorem readsIn_ofMembers {value : Term → Option α} (toJson : α → Json) {ns : List (String × Json)}
    {ms : List (String × α)}
    (hforms : List.Forall₂ (fun n m => n.1 = m.1 ∧ FormOf n.2 (toJson m.2)) ns ms)
    (h : ∀ m ∈ ms, ReadsIn value (toJson m.2) m.2) :
    (ofMembers ns).mapM (fun m : Option String × Term => do return (← m.1, ← value m.2))
      = some ms := by
  rw [ofMembers_eq_map, mapM_eq_some_iff, List.forall₂_map_left_iff]
  -- member by member, each of them written in some form that reads as it
  induction hforms with
  | nil => exact .nil
  | @cons n m ns ms hn _ ih =>
    obtain ⟨hm, hms⟩ := List.forall_mem_cons.1 h
    obtain ⟨hname, hform⟩ := hn
    refine .cons ?_ (ih hms)
    rw [hm _ hform, hname]
    rfl

end Term

/-- A list is read if its items are, in the room that is left for them. -/
theorem ReadsIn.list {item : Nat → Term → Option α} (toJson : α → Json) {xs : List α} {room : Nat}
    (hdepth : (Json.arr (xs.map toJson)).depth ≤ room)
    (h : ∀ x ∈ xs, ∀ inner, (toJson x).depth ≤ inner → ReadsIn (item inner) (toJson x) x) :
    ReadsIn (Term.list? item room) (.arr (xs.map toJson)) xs := by
  intro k hk
  obtain ⟨ks, rfl, hks⟩ := hk.arr
  rw [depth] at hdepth
  obtain ⟨inner, rfl⟩ := Nat.exists_eq_add_one.2 (Nat.lt_of_lt_of_le (Nat.succ_pos _) hdepth)
  refine Term.readsIn_ofItems hks (List.forall₂_map_left_iff.2 (List.forall₂_same.2 fun x hx => ?_))
  refine h x hx inner (Nat.le_trans (le_depthList (List.mem_map_of_mem hx)) ?_)
  exact Nat.le_of_succ_le_succ hdepth

theorem Reads.list {item : Nat → Term → Option α} (toJson : α → Json) {xs : List α}
    (h : ∀ x ∈ xs, Reads item (toJson x) x) :
    Reads (Term.list? item) (.arr (xs.map toJson)) xs :=
  fun _ hdepth => .list toJson hdepth h

/-- A map is read if its values are, in the room that is left for them. -/
theorem ReadsIn.map {value : Nat → Term → Option α} (toJson : α → Json) {ms : List (String × α)}
    {room : Nat} (hs : Sorted ms)
    (hdepth : (Json.obj (ms.map fun m => (m.1, toJson m.2))).depth ≤ room + 1)
    (h : ∀ m ∈ ms, (toJson m.2).depth ≤ room → ReadsIn (value room) (toJson m.2) m.2) :
    ReadsIn (Term.map? value (room + 1)) (.obj (ms.map fun m => (m.1, toJson m.2))) ms := by
  intro k hk
  obtain ⟨ns, rfl, hns⟩ := hk.sorted (Members.sorted_map _ hs)
  rw [depth] at hdepth
  rw [List.forall₂_map_right_iff] at hns
  have hread := Term.readsIn_ofMembers toJson hns fun m hm => by
    have hmem : (m.1, toJson m.2) ∈ ms.map fun m => (m.1, toJson m.2) := List.mem_map_of_mem hm
    exact h m hm (Nat.le_trans (le_depthMembers hmem) (Nat.le_of_succ_le_succ hdepth))
  rw [Term.ofJson, Term.map?, hread, Option.map_some, Members.ofList_of_sorted hs]

theorem Reads.map {value : Nat → Term → Option α} (toJson : α → Json) {ms : List (String × α)}
    (hs : Sorted ms) (h : ∀ m ∈ ms, Reads value (toJson m.2) m.2) :
    Reads (Term.map? value) (.obj (ms.map fun m => (m.1, toJson m.2))) ms := by
  intro room hdepth
  obtain ⟨inner, rfl⟩ := Nat.exists_eq_add_one.2 (Nat.lt_of_lt_of_le (Nat.succ_pos _) hdepth)
  exact .map toJson hs hdepth fun m hm => h m hm inner

namespace Term

/-- What a reader of an object of one member goes by. -/
theorem exists_single {k j : Json} {name : String} {room : Nat}
    (hform : FormOf k (.obj [(name, j)])) (hdepth : (Json.obj [(name, j)]).depth ≤ room) :
    ∃ inner k', room = inner + 1 ∧ ofJson k = .object [(some name, ofJson k')] ∧ FormOf k' j ∧
      j.depth ≤ inner := by
  obtain ⟨k', rfl, hk'⟩ := hform.single
  rw [depth] at hdepth
  obtain ⟨inner, rfl⟩ := Nat.exists_eq_add_one.2 (Nat.lt_of_lt_of_le (Nat.succ_pos _) hdepth)
  refine ⟨inner, k', rfl, rfl, hk', ?_⟩
  exact Nat.le_trans (Nat.le_max_left _ _) (Nat.le_of_succ_le_succ hdepth)

/-- A name alone is read as a choice without a value. -/
theorem unitChoice?_of_form {k : Json} {name : String} (hform : FormOf k (.str name)) (room : Nat) :
    unitChoice? room (ofJson k) = some name := by
  obtain rfl := hform.eq_of_isScalar rfl
  cases room <;> rfl

/-- A tagged record without its tag, and the tag. -/
theorem exists_tagged {k : Json} {tag kind : String} {ms : List (String × Json)}
    (hform : FormOf k (.obj ((tag, .str kind) :: ms))) (hnodup : (tag :: ms.map Prod.fst).Nodup) :
    ∃ ns, tagged? tag (ofJson k) = some (.string (some kind), .object (ofMembers ns)) ∧
      MembersOf ns ms := by
  obtain ⟨ns, rfl, hns⟩ := hform.obj hnodup
  obtain ⟨k', hk', hkind⟩ := hns.found (Members.get?_cons tag _ ms tag |>.trans (if_pos rfl))
  obtain rfl := hkind.eq_of_isScalar rfl
  have hrest : ((tag, Json.str kind) :: ms).filter (fun m => m.1 != tag) = ms := by
    rw [List.filter_cons_of_neg (by simp), List.filter_eq_self]
    intro m hm
    have hne : m.1 ≠ tag := fun heq =>
      (List.nodup_cons.1 hnodup).1 (heq ▸ List.mem_map_of_mem hm)
    exact bne_iff_ne.2 hne
  refine ⟨ns.filter fun m => m.1 != tag, ?_, hrest ▸ hns.without tag⟩
  -- one member has the name of the tag, and it is found by a filter on names
  have htag : (ofMembers ns).filter (fun m => m.1 == some tag)
      = [(some tag, ofJson (.str kind))] := by
    rw [ofMembers_eq_map, List.filter_map]
    have hpred : ((fun m : Option String × Term => m.1 == some tag) ∘
        fun m : String × Json => (some m.1, ofJson m.2)) = fun m => m.1 == tag := by
      funext m
      exact Option.some_beq_some
    rw [hpred, Members.filter_name_of_nodup hns.nodup hk']
    rfl
  -- the others are those that are left without it
  have hothers : (ofMembers ns).filter (fun m => m.1 != some tag)
      = ofMembers (ns.filter fun m => m.1 != tag) := by
    rw [ofMembers_eq_map, ofMembers_eq_map, List.filter_map]
    have hpred : ((fun m : Option String × Term => m.1 != some tag) ∘
        fun m : String × Json => (some m.1, ofJson m.2)) = fun m => m.1 != tag := by
      funext m
      exact congrArg not Option.some_beq_some
    rw [hpred]
  rw [ofJson, tagged?, htag, hothers]
  rfl

/-- **A tagged record is read as its tag and a record.** -/
theorem exists_tagged_record {names : List String} {k : Json} {tag kind : String}
    {ms : List (String × Json)} {room : Nat} (hform : FormOf k (.obj ((tag, .str kind) :: ms)))
    (hdepth : (Json.obj ((tag, .str kind) :: ms)).depth ≤ room) (hnodup : (tag :: names).Nodup)
    (hnames : (ms.map Prod.fst).Sublist names) :
    ∃ inner rest fs, room = inner + 1 ∧
      tagged? tag (ofJson k) = some (.string (some kind), rest) ∧ rest.fields? names = some fs ∧
      FieldsOf inner fs ms := by
  obtain ⟨ns, htagged, hns⟩ := exists_tagged hform ((hnames.cons_cons tag).nodup hnodup)
  rw [depth] at hdepth
  obtain ⟨inner, rfl⟩ := Nat.exists_eq_add_one.2 (Nat.lt_of_lt_of_le (Nat.succ_pos _) hdepth)
  -- the tag takes no room from the members beside it
  have hmembers : depthMembers ms ≤ inner :=
    Nat.le_trans (Nat.le_max_right _ _) (Nat.le_of_succ_le_succ hdepth)
  obtain ⟨fs, hfields, hfs⟩ := exists_fields hns hnames hmembers
  exact ⟨inner, _, fs, rfl, htagged, hfields, hfs⟩

end Term

/-- A choice without a value is read by its name. -/
theorem readsIn_unit {ofName? : String → Option α} {name : String} {x : α}
    (h : ofName? name = some x) (room : Nat) :
    ReadsIn (fun t => (t.unitChoice? room).bind ofName?) (.str name) x := by
  intro k hk
  simp only [Term.unitChoice?_of_form hk room, Option.bind_some, h]

/-- A value is read back from its document and from the text of that. The document has floats, not
literals, and `Reader.nearest` takes the literal of a float for that float; the text may be read by
any reader that reads floats back. -/
def RoundTrips (value : Reader → Nat → Term → Option α) (j : Json) (x : α) : Prop :=
  ∀ room, j.depth ≤ room → value .nearest room (Term.ofJson j.normalize) = some x ∧
    ∀ r : Reader, r.ReadsBack → (Term.parse? j.render).bind (value r room) = some x

theorem RoundTrips.of_reads {value : Reader → Nat → Term → Option α} {j : Json} {x : α}
    (h : ∀ r : Reader, r.ReadsBack → Reads (value r) j x) : RoundTrips value j x := by
  intro room hdepth
  refine ⟨h .nearest Reader.readsBack_nearest room hdepth _ (.normalize j), fun r hr => ?_⟩
  rw [Term.parse?_render, Option.bind_some]
  exact h r hr room hdepth _ (.refl j)

/-- What is read without floats is read by every reader of them, since nothing in it is left to the
reader. -/
theorem Reads.roundTrips {value : Nat → Term → Option α} {j : Json} {x : α}
    (h : Reads value j x) : RoundTrips (fun _ => value) j x :=
  .of_reads fun _ _ => h

end ConfigTree.Json
