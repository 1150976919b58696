import ConfigTree.Message.Codec
import ConfigTree.Proofs.Schema.RoundTrip

/-!
# Messages are read back

What is written of a message is read as the same message. Floats have to be finite and the texts of
subtrees have to be UTF-8 (`TypedValue.Faithful`); the children of the nodes of a schema are maps by
their names (`Schema.Node.Ordered`).

* `TypedValue.Faithful.reads`: values, at any depth of lists within lists.
* `Path.reads`, `Notification.Faithful.reads` and so on: each message, by the readers of its parts.
* `reads_messages`: every message, its parts and the types of a schema make the round trip
  (`Json.RoundTrips`).
-/

namespace ConfigTree

open Json (Reads ReadsIn Reader RoundTrips Term readsIn_int64 readsIn_uint8 readsIn_uint64
  readsIn_float readsIn_unit)
open Members (get?)

variable {r : Reader}

/-! ### Paths -/

/-- An element is written without its keys if it has none, and the reader puts none in their place.
Keys come back as a map because they are sorted by their names. -/
theorem Path.Elem.reads (e : Path.Elem) : Reads Path.Elem.ofTerm? e.toJson e := by
  intro room hdepth k hk
  obtain ⟨name, keys, hs⟩ := e
  have hkeys := Reads.map Json.str hs fun m _ room _ => Json.readsIn_str m.2
  obtain ⟨inner, fs, hrecord, hfs⟩ := Term.exists_record hk hdepth
    (by decide : ["name", "keys"].Nodup) (by cases keys with
      | nil => exact .cons_cons _ (.cons _ (.refl _))
      | cons => exact .refl _)
  have hname : Term.required? fs "name" Term.asString? = some name :=
    hfs.required rfl fun _ => Json.readsIn_str name
  -- keys are written if there are any
  have hmap : Term.defaulted? fs "keys" [] (Term.map? (fun _ => Term.asString?) inner)
      = some keys := by
    cases keys with
    | nil => exact hfs.defaulted_none rfl []
    | cons => exact hfs.defaulted rfl [] (hkeys inner)
  have hwhole : Path.Elem.ofKeys name keys = ⟨name, keys, hs⟩ := by
    simp only [Path.Elem.ofKeys, Members.ofList_of_sorted hs]
  rw [ofTerm?, hrecord]
  simp only [Option.bind_eq_bind, Option.bind_some, hname, hmap, hwhole]
  rfl

/-- A path is written without its origin if it has none, and with its elements even if there are
none. -/
theorem Path.reads (p : Path) : Reads Path.ofTerm? p.toJson p := by
  intro room hdepth k hk
  obtain ⟨origin, elems⟩ := p
  have helems := Reads.list Path.Elem.toJson fun (e : Path.Elem) (_ : e ∈ elems) => e.reads
  -- the origin is left out of the record where there is none
  obtain ⟨inner, fs, hrecord, hfs⟩ := Term.exists_record hk hdepth
    (by decide : ["origin", "elem"].Nodup) (by cases origin with
      | none => exact .cons _ (.refl _)
      | some o => exact .refl _)
  have horigin : Term.optional? fs "origin" Term.asString? = some origin :=
    hfs.optional_map Json.str (by cases origin <;> rfl) (fun _ => rfl) fun o _ => Json.readsIn_str o
  have hlist : Term.defaulted? fs "elem" [] (Term.list? Elem.ofTerm? inner) = some elems :=
    hfs.defaulted (by cases origin <;> rfl) [] (helems inner)
  rw [ofTerm?, hrecord]
  simp only [Option.bind_eq_bind, Option.bind_some, horigin, hlist]
  rfl

/-! ### Values -/

/-- The values that have a document of their own: floats are finite, and the text of a subtree is
UTF-8. A float that is not finite is written as null, which is read as no float; what is not UTF-8
in the text of a subtree is written with replacement characters, which come back as such. Bytes are
written as numbers, so nothing is asked of them. The items of a list are faithful at any depth. -/
inductive TypedValue.Faithful : TypedValue → Prop
  | string (s : String) : Faithful (.string s)
  | int (n : Int64) : Faithful (.int n)
  | uint (n : UInt64) : Faithful (.uint n)
  | bool (b : Bool) : Faithful (.bool b)
  | bytes (b : ByteArray) : Faithful (.bytes b)
  | float (x : Binary64) : Faithful (.float (.finite x))
  | json (text : String) : Faithful (.json text.toByteArray)
  | jsonIetf (text : String) : Faithful (.jsonIetf text.toByteArray)
  | leafList {items : List TypedValue} : (∀ v ∈ items, Faithful v) → Faithful (.leafList items)

theorem decodeLossy_toByteArray (text : String) : Text.decodeLossy text.toByteArray = text := by
  rw [Text.decodeLossy, Json.fromUTF8?_toByteArray, Option.getD_some]

theorem TypedValue.itemsToJson_eq_map (items : List TypedValue) :
    itemsToJson items = items.map toJson := by
  induction items with
  | nil => rfl
  | cons v items ih => rw [itemsToJson, ih, List.map_cons]

theorem readsIn_bytes (b : ByteArray) {room : Nat}
    (hdepth : (Json.arr (b.data.toList.map fun x => .num (.ofUInt64 x.toUInt64))).depth ≤ room) :
    ReadsIn (Term.list? (fun _ => Term.asUInt8?) room)
      (.arr (b.data.toList.map fun x => .num (.ofUInt64 x.toUInt64))) b.data.toList :=
  .list (fun x => .num (.ofUInt64 x.toUInt64)) hdepth fun x _ _ _ => readsIn_uint8 x

/-- **A value is read back at any depth of lists.** The induction is on its being faithful, with the
room that the reader has left for the depth of documents. Every value is an object with one member,
whose name says which sort it is. -/
theorem TypedValue.Faithful.reads (hr : r.ReadsBack) {v : TypedValue} (h : v.Faithful) :
    Reads (TypedValue.ofTerm? r) v.toJson v := by
  induction h with
  | string s =>
    intro room hdepth k hk
    obtain ⟨inner, k', rfl, hterm, hk', -⟩ := Term.exists_single hk hdepth
    rw [hterm]
    simp only [ofTerm?, Json.readsIn_str s k' hk', Option.map_some]
  | int n =>
    intro room hdepth k hk
    obtain ⟨inner, k', rfl, hterm, hk', -⟩ := Term.exists_single hk hdepth
    rw [hterm]
    simp only [ofTerm?, readsIn_int64 n k' hk', Option.map_some]
  | uint n =>
    intro room hdepth k hk
    obtain ⟨inner, k', rfl, hterm, hk', -⟩ := Term.exists_single hk hdepth
    rw [hterm]
    simp only [ofTerm?, readsIn_uint64 n k' hk', Option.map_some]
  | bool b =>
    intro room hdepth k hk
    obtain ⟨inner, k', rfl, hterm, hk', -⟩ := Term.exists_single hk hdepth
    rw [hterm]
    simp only [ofTerm?, Json.readsIn_bool b k' hk', Option.map_some]
  | bytes b =>
    intro room hdepth k hk
    obtain ⟨inner, k', rfl, hterm, hk', hdepth⟩ := Term.exists_single hk hdepth
    rw [hterm]
    simp only [ofTerm?, readsIn_bytes b hdepth k' hk', Option.map_some, Array.toArray_toList]
  | float x =>
    intro room hdepth k hk
    obtain ⟨inner, k', rfl, hterm, hk', -⟩ := Term.exists_single hk hdepth
    rw [hterm]
    simp only [ofTerm?, readsIn_float hr x k' hk', Option.map_some]
  | json text =>
    intro room hdepth k hk
    rw [toJson, decodeLossy_toByteArray] at hk hdepth
    obtain ⟨inner, k', rfl, hterm, hk', -⟩ := Term.exists_single hk hdepth
    rw [hterm]
    simp only [ofTerm?, Json.readsIn_str text k' hk', Option.map_some]
  | jsonIetf text =>
    intro room hdepth k hk
    rw [toJson, decodeLossy_toByteArray] at hk hdepth
    obtain ⟨inner, k', rfl, hterm, hk', -⟩ := Term.exists_single hk hdepth
    rw [hterm]
    simp only [ofTerm?, Json.readsIn_str text k' hk', Option.map_some]
  | @leafList items _ ih =>
    -- the list takes up two levels, and its items have what is left
    intro room hdepth k hk
    rw [toJson, itemsToJson_eq_map] at hk hdepth
    obtain ⟨inner, k', rfl, hterm, hk', hdepth⟩ := Term.exists_single hk hdepth
    obtain ⟨ks, rfl, hks⟩ := hk'.arr
    rw [Json.depth] at hdepth
    obtain ⟨deep, rfl⟩ := Nat.exists_eq_add_one.2 (Nat.lt_of_lt_of_le (Nat.succ_pos _) hdepth)
    have hitems : (Term.ofItems ks).mapM (ofTerm? r deep) = some items := by
      refine Term.readsIn_ofItems hks
        (List.forall₂_map_left_iff.2 (List.forall₂_same.2 fun v hv => ih v hv deep ?_))
      have hle : v.toJson.depth ≤ _ := Json.le_depthList (List.mem_map_of_mem hv)
      exact Nat.le_trans hle (Nat.le_of_succ_le_succ hdepth)
    rw [hterm]
    simp only [ofTerm?, Term.ofJson, hitems, Option.map_some]

theorem Encoding.reads (e : Encoding) : Reads Encoding.ofTerm? e.toJson e :=
  fun room _ => readsIn_unit (by cases e <;> decide) room

/-- All values of an update are faithful, and so on for whatever has updates: nothing else in a
message can fail to be written. -/
def Update.Faithful (u : Update) : Prop := u.value.Faithful

def Notification.Faithful (n : Notification) : Prop := ∀ u ∈ n.updates, u.Faithful

theorem Path.isNull_toJson (p : Path) : p.toJson.isNull = false := rfl

theorem Path.orNull_eq (base : Option Path) :
    Path.orNull base = (base.map Path.toJson).getD .null := by
  cases base <;> rfl

theorem Update.Faithful.reads (hr : r.ReadsBack) {u : Update} (h : u.Faithful) :
    Reads (Update.ofTerm? r) u.toJson u := by
  intro room hdepth k hk
  obtain ⟨inner, fs, hrecord, hfs⟩ := Term.exists_record hk hdepth
    (by decide : ["path", "val"].Nodup) (.refl _)
  have hpath : Term.required? fs "path" (Path.ofTerm? inner) = some u.path :=
    hfs.required rfl (u.path.reads inner)
  have hvalue : Term.required? fs "val" (TypedValue.ofTerm? r inner) = some u.value :=
    hfs.required rfl (TypedValue.Faithful.reads hr h inner)
  rw [ofTerm?, hrecord]
  simp only [Option.bind_eq_bind, Option.bind_some, hpath, hvalue]
  rfl

/-- A notification is written with its prefix and its deletes only if it has them, so that there are
four shapes of its document; a reader finds each field by its name in any of them. -/
theorem Notification.Faithful.reads (hr : r.ReadsBack) {n : Notification} (h : n.Faithful) :
    Reads (Notification.ofTerm? r) n.toJson n := by
  intro room hdepth k hk
  obtain ⟨timestamp, base, updates, deletes⟩ := n
  have hupdates := Reads.list Update.toJson fun u hu => (h u hu).reads hr
  have hdeletes := Reads.list Path.toJson fun p (_ : p ∈ deletes) => p.reads
  obtain ⟨inner, fs, hrecord, hfs⟩ := Term.exists_record hk hdepth
    (by decide : ["timestamp", "prefix", "update", "delete"].Nodup) (by
      cases base with
      | none => cases deletes with
        | nil => exact .cons_cons _ (.cons _ (.cons_cons _ (.cons _ (.refl _))))
        | cons => exact .cons_cons _ (.cons _ (.refl _))
      | some p => cases deletes with
        | nil => exact .cons_cons _ (.cons_cons _ (.cons_cons _ (.cons _ (.refl _))))
        | cons => exact .refl _)
  have htime : Term.required? fs "timestamp" Term.asInt64? = some timestamp :=
    hfs.required rfl fun _ => readsIn_int64 timestamp
  have hbase : Term.optional? fs "prefix" (Path.ofTerm? inner) = some base :=
    hfs.optional_map Path.toJson (by cases base <;> cases deletes <;> rfl) Path.isNull_toJson
      fun p => p.reads inner
  have hupdate : Term.defaulted? fs "update" [] (Term.list? (Update.ofTerm? r) inner)
      = some updates :=
    hfs.defaulted (by cases base <;> cases deletes <;> rfl) [] (hupdates inner)
  -- deletes are written if there are any
  have hdelete : Term.defaulted? fs "delete" [] (Term.list? Path.ofTerm? inner)
      = some deletes := by
    cases deletes with
    | nil => exact hfs.defaulted_none (by cases base <;> rfl) []
    | cons => exact hfs.defaulted (by cases base <;> rfl) [] (hdeletes inner)
  rw [ofTerm?, hrecord]
  simp only [Option.bind_eq_bind, Option.bind_some, htime, hbase, hupdate, hdelete]
  rfl

/-! ### Capabilities -/

theorem reads_models (models : List Model) :
    Reads (Term.list? Model.ofTerm?) (.arr (models.map Model.toJson)) models :=
  .list Model.toJson fun m _ => m.reads

/-- The message without fields. -/
theorem reads_empty : Reads emptyOfTerm? (.obj []) () := by
  intro room hdepth k hk
  obtain ⟨inner, fs, hrecord, -⟩ := Term.exists_record hk hdepth
    (.nil : ([] : List String).Nodup) (.refl _)
  rw [emptyOfTerm?, hrecord]
  rfl

theorem Capabilities.reads (c : Capabilities) : Reads Capabilities.ofTerm? c.toJson c := by
  intro room hdepth k hk
  have hencodings := Reads.list Encoding.toJson fun e (_ : e ∈ c.encodings) => e.reads
  obtain ⟨inner, fs, hrecord, hfs⟩ := Term.exists_record hk hdepth
    (by decide : ["supported_models", "supported_encodings", "gnmi_version"].Nodup) (.refl _)
  have hmodel : Term.required? fs "supported_models" (Term.list? Model.ofTerm? inner)
      = some c.models := hfs.required rfl (reads_models c.models inner)
  have hencoding : Term.required? fs "supported_encodings" (Term.list? Encoding.ofTerm? inner)
      = some c.encodings := hfs.required rfl (hencodings inner)
  have hversion : Term.required? fs "gnmi_version" Term.asString? = some c.protocolVersion :=
    hfs.required rfl fun _ => Json.readsIn_str c.protocolVersion
  rw [ofTerm?, hrecord]
  simp only [Option.bind_eq_bind, Option.bind_some, hmodel, hencoding, hversion]
  rfl

/-! ### Get and set -/

theorem DataType.reads (d : DataType) : Reads DataType.ofTerm? d.toJson d :=
  fun room _ => readsIn_unit (by cases d <;> decide) room

theorem Operation.reads (o : Operation) : Reads Operation.ofTerm? o.toJson o :=
  fun room _ => readsIn_unit (by cases o <;> decide) room

theorem reads_paths (paths : List Path) :
    Reads (Term.list? Path.ofTerm?) (.arr (paths.map Path.toJson)) paths :=
  .list Path.toJson fun p _ => p.reads

theorem reads_updates (hr : r.ReadsBack) {updates : List Update} (h : ∀ u ∈ updates, u.Faithful) :
    Reads (Term.list? (Update.ofTerm? r)) (.arr (updates.map Update.toJson)) updates :=
  .list Update.toJson fun u hu => (h u hu).reads hr

/-- The prefix of a request is written as null if there is none, unlike that of a notification, and
null is read as none. The fields that a request may leave out are all written. -/
theorem GetRequest.reads (q : GetRequest) : Reads GetRequest.ofTerm? q.toJson q := by
  intro room hdepth k hk
  -- the base is written as null where there is none, so all members are there in any case
  rw [toJson, Path.orNull_eq] at hk hdepth
  obtain ⟨inner, fs, hrecord, hfs⟩ := Term.exists_record hk hdepth
    (by decide : ["prefix", "path", "type", "encoding", "use_models"].Nodup) (.refl _)
  have hbase : Term.optional? fs "prefix" (Path.ofTerm? inner) = some q.base :=
    hfs.optional_orNull Path.toJson rfl Path.isNull_toJson fun p => p.reads inner
  have hpaths : Term.defaulted? fs "path" [] (Term.list? Path.ofTerm? inner) = some q.paths :=
    hfs.defaulted rfl [] (reads_paths q.paths inner)
  have htype : Term.defaulted? fs "type" .all (DataType.ofTerm? inner) = some q.dataType :=
    hfs.defaulted rfl .all (q.dataType.reads inner)
  have hencoding : Term.defaulted? fs "encoding" .json (Encoding.ofTerm? inner)
      = some q.encoding := hfs.defaulted rfl .json (q.encoding.reads inner)
  have hmodels : Term.defaulted? fs "use_models" [] (Term.list? Model.ofTerm? inner)
      = some q.models := hfs.defaulted rfl [] (reads_models q.models inner)
  rw [ofTerm?, hrecord]
  simp only [Option.bind_eq_bind, Option.bind_some, hbase, hpaths, htype, hencoding, hmodels]
  rfl

def GetResponse.Faithful (a : GetResponse) : Prop := ∀ n ∈ a.notifications, n.Faithful

theorem GetResponse.Faithful.reads (hr : r.ReadsBack) {a : GetResponse} (h : a.Faithful) :
    Reads (GetResponse.ofTerm? r) a.toJson a := by
  intro room hdepth k hk
  have hnotifications := Reads.list Notification.toJson fun n hn => (h n hn).reads hr
  obtain ⟨inner, fs, hrecord, hfs⟩ := Term.exists_record hk hdepth
    (by decide : ["notification"].Nodup) (.refl _)
  have hlist : Term.required? fs "notification" (Term.list? (Notification.ofTerm? r) inner)
      = some a.notifications := hfs.required rfl (hnotifications inner)
  rw [ofTerm?, hrecord]
  simp only [Option.bind_eq_bind, Option.bind_some, hlist]
  rfl

def SetRequest.Faithful (q : SetRequest) : Prop :=
  (∀ u ∈ q.replaces, u.Faithful) ∧ ∀ u ∈ q.updates, u.Faithful

theorem SetRequest.Faithful.reads (hr : r.ReadsBack) {q : SetRequest} (h : q.Faithful) :
    Reads (SetRequest.ofTerm? r) q.toJson q := by
  intro room hdepth k hk
  rw [toJson, Path.orNull_eq] at hk hdepth
  obtain ⟨inner, fs, hrecord, hfs⟩ := Term.exists_record hk hdepth
    (by decide : ["prefix", "delete", "replace", "update"].Nodup) (.refl _)
  have hbase : Term.optional? fs "prefix" (Path.ofTerm? inner) = some q.base :=
    hfs.optional_orNull Path.toJson rfl Path.isNull_toJson fun p => p.reads inner
  have hdeletes : Term.defaulted? fs "delete" [] (Term.list? Path.ofTerm? inner)
      = some q.deletes := hfs.defaulted rfl [] (reads_paths q.deletes inner)
  have hreplaces : Term.defaulted? fs "replace" [] (Term.list? (Update.ofTerm? r) inner)
      = some q.replaces := hfs.defaulted rfl [] (reads_updates hr h.1 inner)
  have hupdates : Term.defaulted? fs "update" [] (Term.list? (Update.ofTerm? r) inner)
      = some q.updates := hfs.defaulted rfl [] (reads_updates hr h.2 inner)
  rw [ofTerm?, hrecord]
  simp only [Option.bind_eq_bind, Option.bind_some, hbase, hdeletes, hreplaces, hupdates]
  rfl

theorem UpdateResult.reads (u : UpdateResult) : Reads UpdateResult.ofTerm? u.toJson u := by
  intro room hdepth k hk
  obtain ⟨inner, fs, hrecord, hfs⟩ := Term.exists_record hk hdepth
    (by decide : ["path", "op"].Nodup) (.refl _)
  have hpath : Term.required? fs "path" (Path.ofTerm? inner) = some u.path :=
    hfs.required rfl (u.path.reads inner)
  have hoperation : Term.required? fs "op" (Operation.ofTerm? inner) = some u.operation :=
    hfs.required rfl (u.operation.reads inner)
  rw [ofTerm?, hrecord]
  simp only [Option.bind_eq_bind, Option.bind_some, hpath, hoperation]
  rfl

theorem SetResponse.reads (a : SetResponse) : Reads SetResponse.ofTerm? a.toJson a := by
  intro room hdepth k hk
  obtain ⟨base, results, timestamp⟩ := a
  have hresults := Reads.list UpdateResult.toJson fun u (_ : u ∈ results) => u.reads
  -- the base is left out of the record where there is none
  obtain ⟨inner, fs, hrecord, hfs⟩ := Term.exists_record hk hdepth
    (by decide : ["prefix", "response", "timestamp"].Nodup) (by cases base with
      | none => exact .cons _ (.refl _)
      | some p => exact .refl _)
  have hbase : Term.optional? fs "prefix" (Path.ofTerm? inner) = some base :=
    hfs.optional_map Path.toJson (by cases base <;> rfl) Path.isNull_toJson fun p => p.reads inner
  have hlist : Term.required? fs "response" (Term.list? UpdateResult.ofTerm? inner)
      = some results := hfs.required (by cases base <;> rfl) (hresults inner)
  have htime : Term.required? fs "timestamp" Term.asInt64? = some timestamp :=
    hfs.required (by cases base <;> rfl) fun _ => readsIn_int64 timestamp
  rw [ofTerm?, hrecord]
  simp only [Option.bind_eq_bind, Option.bind_some, hbase, hlist, htime]
  rfl

/-! ### Subscribe -/

theorem ListMode.reads (m : ListMode) : Reads ListMode.ofTerm? m.toJson m :=
  fun room _ => readsIn_unit (by cases m <;> decide) room

theorem SendMode.reads (m : SendMode) : Reads SendMode.ofTerm? m.toJson m :=
  fun room _ => readsIn_unit (by cases m <;> decide) room

theorem Code.reads (c : Code) : Reads Code.ofTerm? c.toJson c :=
  fun room _ => readsIn_unit (by cases c <;> decide) room

theorem Subscription.reads (s : Subscription) : Reads Subscription.ofTerm? s.toJson s := by
  intro room hdepth k hk
  obtain ⟨inner, fs, hrecord, hfs⟩ := Term.exists_record hk hdepth
    (by decide : ["path", "mode", "sample_interval"].Nodup) (.refl _)
  have hpath : Term.required? fs "path" (Path.ofTerm? inner) = some s.path :=
    hfs.required rfl (s.path.reads inner)
  have hmode : Term.defaulted? fs "mode" .targetDefined (SendMode.ofTerm? inner) = some s.mode :=
    hfs.defaulted rfl .targetDefined (s.mode.reads inner)
  have hinterval : Term.defaulted? fs "sample_interval" 0 Term.asUInt64? = some s.interval :=
    hfs.defaulted rfl 0 fun _ => readsIn_uint64 s.interval
  rw [ofTerm?, hrecord]
  simp only [Option.bind_eq_bind, Option.bind_some, hpath, hmode, hinterval]
  rfl

theorem SubscriptionList.reads (l : SubscriptionList) :
    Reads SubscriptionList.ofTerm? l.toJson l := by
  intro room hdepth k hk
  -- here too the base is written as null
  rw [toJson, Path.orNull_eq] at hk hdepth
  have hsubscriptions := Reads.list Subscription.toJson fun s (_ : s ∈ l.subscriptions) => s.reads
  obtain ⟨inner, fs, hrecord, hfs⟩ := Term.exists_record hk hdepth
    (by decide : ["prefix", "subscription", "mode", "allow_aggregation", "use_models", "encoding",
      "updates_only"].Nodup) (.refl _)
  have hbase : Term.optional? fs "prefix" (Path.ofTerm? inner) = some l.base :=
    hfs.optional_orNull Path.toJson rfl Path.isNull_toJson fun p => p.reads inner
  have hlist : Term.defaulted? fs "subscription" [] (Term.list? Subscription.ofTerm? inner)
      = some l.subscriptions := hfs.defaulted rfl [] (hsubscriptions inner)
  have hmode : Term.defaulted? fs "mode" .stream (ListMode.ofTerm? inner) = some l.mode :=
    hfs.defaulted rfl .stream (l.mode.reads inner)
  have haggregation : Term.defaulted? fs "allow_aggregation" false Term.asBool?
      = some l.allowAggregation :=
    hfs.defaulted rfl false fun _ => Json.readsIn_bool l.allowAggregation
  have hmodels : Term.defaulted? fs "use_models" [] (Term.list? Model.ofTerm? inner)
      = some l.models := hfs.defaulted rfl [] (reads_models l.models inner)
  have hencoding : Term.defaulted? fs "encoding" .json (Encoding.ofTerm? inner)
      = some l.encoding := hfs.defaulted rfl .json (l.encoding.reads inner)
  have honly : Term.defaulted? fs "updates_only" false Term.asBool? = some l.updatesOnly :=
    hfs.defaulted rfl false fun _ => Json.readsIn_bool l.updatesOnly
  rw [ofTerm?, hrecord]
  simp only [Option.bind_eq_bind, Option.bind_some, hbase, hlist, hmode, haggregation, hmodels,
    hencoding, honly]
  rfl

theorem SubscribeRequest.reads (q : SubscribeRequest) :
    Reads SubscribeRequest.ofTerm? q.toJson q := by
  intro room hdepth k hk
  -- each kind of request is an object with one member, whose name tells the kind
  cases q with
  | subscribe l =>
    obtain ⟨inner, k', rfl, hterm, hk', hdepth⟩ := Term.exists_single hk hdepth
    rw [ofTerm?, hterm]
    simp only [Term.choice?, Option.bind_eq_bind, Option.bind_some, l.reads inner hdepth k' hk',
      Option.map_some]
  | poll =>
    obtain ⟨inner, k', rfl, hterm, hk', hdepth⟩ := Term.exists_single hk hdepth
    rw [ofTerm?, hterm]
    simp only [Term.choice?, Option.bind_eq_bind, Option.bind_some,
      reads_empty inner hdepth k' hk', Option.map_some]

theorem Status.reads (s : Status) : Reads Status.ofTerm? s.toJson s := by
  intro room hdepth k hk
  obtain ⟨inner, fs, hrecord, hfs⟩ := Term.exists_record hk hdepth
    (by decide : ["code", "message"].Nodup) (.refl _)
  have hcode : Term.required? fs "code" (Code.ofTerm? inner) = some s.code :=
    hfs.required rfl (s.code.reads inner)
  have hmessage : Term.defaulted? fs "message" "" Term.asString? = some s.message :=
    hfs.defaulted rfl "" fun _ => Json.readsIn_str s.message
  rw [ofTerm?, hrecord]
  simp only [Option.bind_eq_bind, Option.bind_some, hcode, hmessage]
  rfl

def SubscribeResponse.Faithful : SubscribeResponse → Prop
  | .update n => n.Faithful
  | .sync _ | .error _ => True

theorem SubscribeResponse.Faithful.reads (hr : r.ReadsBack) {a : SubscribeResponse}
    (h : a.Faithful) : Reads (SubscribeResponse.ofTerm? r) a.toJson a := by
  intro room hdepth k hk
  cases a with
  | update n =>
    obtain ⟨inner, k', rfl, hterm, hk', hdepth⟩ := Term.exists_single hk hdepth
    have hread := Notification.Faithful.reads hr h inner hdepth k' hk'
    rw [ofTerm?, hterm]
    simp only [Term.choice?, Option.bind_eq_bind, Option.bind_some, hread, Option.map_some]
  | sync done =>
    obtain ⟨inner, k', rfl, hterm, hk', -⟩ := Term.exists_single hk hdepth
    rw [ofTerm?, hterm]
    simp only [Term.choice?, Option.bind_eq_bind, Option.bind_some, Json.readsIn_bool done k' hk',
      Option.map_some]
  | error status =>
    obtain ⟨inner, k', rfl, hterm, hk', hdepth⟩ := Term.exists_single hk hdepth
    rw [ofTerm?, hterm]
    simp only [Term.choice?, Option.bind_eq_bind, Option.bind_some,
      status.reads inner hdepth k' hk', Option.map_some]

/-! ### The round trip -/

/-- **What is written of a message is read as the same message**, and so are its parts and the types
of a schema. It is said of the document and of its text, for every type that has a reader; the
hypotheses of the readers above are all that is asked. -/
theorem reads_messages :
    (∀ e : Path.Elem, RoundTrips (fun _ => Path.Elem.ofTerm?) e.toJson e) ∧
    (∀ p : Path, RoundTrips (fun _ => Path.ofTerm?) p.toJson p) ∧
    (∀ v : TypedValue, v.Faithful → RoundTrips TypedValue.ofTerm? v.toJson v) ∧
    (∀ e : Encoding, RoundTrips (fun _ => Encoding.ofTerm?) e.toJson e) ∧
    (∀ m : Model, RoundTrips (fun _ => Model.ofTerm?) m.toJson m) ∧
    RoundTrips (fun _ => emptyOfTerm?) (.obj []) () ∧
    (∀ c : Capabilities, RoundTrips (fun _ => Capabilities.ofTerm?) c.toJson c) ∧
    (∀ d : DataType, RoundTrips (fun _ => DataType.ofTerm?) d.toJson d) ∧
    (∀ q : GetRequest, RoundTrips (fun _ => GetRequest.ofTerm?) q.toJson q) ∧
    (∀ a : GetResponse, a.Faithful → RoundTrips GetResponse.ofTerm? a.toJson a) ∧
    (∀ q : SetRequest, q.Faithful → RoundTrips SetRequest.ofTerm? q.toJson q) ∧
    (∀ o : Operation, RoundTrips (fun _ => Operation.ofTerm?) o.toJson o) ∧
    (∀ u : UpdateResult, RoundTrips (fun _ => UpdateResult.ofTerm?) u.toJson u) ∧
    (∀ a : SetResponse, RoundTrips (fun _ => SetResponse.ofTerm?) a.toJson a) ∧
    (∀ m : ListMode, RoundTrips (fun _ => ListMode.ofTerm?) m.toJson m) ∧
    (∀ m : SendMode, RoundTrips (fun _ => SendMode.ofTerm?) m.toJson m) ∧
    (∀ s : Subscription, RoundTrips (fun _ => Subscription.ofTerm?) s.toJson s) ∧
    (∀ l : SubscriptionList, RoundTrips (fun _ => SubscriptionList.ofTerm?) l.toJson l) ∧
    (∀ q : SubscribeRequest, RoundTrips (fun _ => SubscribeRequest.ofTerm?) q.toJson q) ∧
    (∀ a : SubscribeResponse, a.Faithful → RoundTrips SubscribeResponse.ofTerm? a.toJson a) ∧
    (∀ u : Update, u.Faithful → RoundTrips Update.ofTerm? u.toJson u) ∧
    (∀ n : Notification, n.Faithful → RoundTrips Notification.ofTerm? n.toJson n) ∧
    (∀ c : Code, RoundTrips (fun _ => Code.ofTerm?) c.toJson c) ∧
    (∀ s : Status, RoundTrips (fun _ => Status.ofTerm?) s.toJson s) ∧
    (∀ kind : ScalarKind, RoundTrips ScalarKind.ofTerm? kind.toJson kind) ∧
    (∀ n : Schema.Node, n.Ordered → RoundTrips Schema.Node.ofTerm? n.toJson n) :=
  ⟨fun e => e.reads.roundTrips, fun p => p.reads.roundTrips,
    fun _ h => .of_reads fun _ hr => TypedValue.Faithful.reads hr h,
    fun e => e.reads.roundTrips, fun m => m.reads.roundTrips, reads_empty.roundTrips,
    fun c => c.reads.roundTrips, fun d => d.reads.roundTrips, fun q => q.reads.roundTrips,
    fun _ h => .of_reads fun _ hr => GetResponse.Faithful.reads hr h,
    fun _ h => .of_reads fun _ hr => SetRequest.Faithful.reads hr h,
    fun o => o.reads.roundTrips, fun u => u.reads.roundTrips, fun a => a.reads.roundTrips,
    fun m => m.reads.roundTrips, fun m => m.reads.roundTrips, fun s => s.reads.roundTrips,
    fun l => l.reads.roundTrips, fun q => q.reads.roundTrips,
    fun _ h => .of_reads fun _ hr => SubscribeResponse.Faithful.reads hr h,
    fun _ h => .of_reads fun _ hr => Update.Faithful.reads hr h,
    fun _ h => .of_reads fun _ hr => Notification.Faithful.reads hr h,
    fun c => c.reads.roundTrips, fun s => s.reads.roundTrips,
    fun kind => .of_reads fun _ hr => ScalarKind.reads hr kind,
    fun _ h => .of_reads fun _ hr => h.reads hr⟩

/-- An update of a list within a list, with a float, bytes and the text of a subtree. -/
def nestedUpdate : Update :=
  { path := ⟨some "device", [.ofKeys "server" [("port", "8080")], .ofKeys "gain" []]⟩
    value := .leafList [.leafList [.float (.finite ⟨true, 1022 * Binary64.binade, by decide⟩),
      .bytes ⟨#[1, 255]⟩], .leafList [], .json "[]".toByteArray, .int (-1)] }

theorem faithful_nestedUpdate : nestedUpdate.Faithful := by
  refine .leafList fun v hv => ?_
  simp only [List.mem_cons, List.not_mem_nil, or_false] at hv
  rcases hv with rfl | rfl | rfl | rfl
  · refine .leafList fun v hv => ?_
    simp only [List.mem_cons, List.not_mem_nil, or_false] at hv
    rcases hv with rfl | rfl
    · exact .float _
    · exact .bytes _
  · exact .leafList fun v hv => absurd hv List.not_mem_nil
  · exact .json "[]"
  · exact .int (-1)

/-- A nested update is read back from its document, and from the text of that. -/
theorem reads_nestedUpdate :
    Update.ofTerm? .nearest Term.maxDepth (Term.ofJson nestedUpdate.toJson.normalize)
      = some nestedUpdate ∧
    (Term.parse? nestedUpdate.toJson.render).bind (Update.ofTerm? .nearest Term.maxDepth)
      = some nestedUpdate := by
  obtain ⟨-, -, -, -, -, -, -, -, -, -, -, -, -, -, -, -, -, -, -, -, hupdate, -⟩ := reads_messages
  have hdepth : nestedUpdate.toJson.depth ≤ Term.maxDepth := by decide +kernel
  obtain ⟨hvalue, htext⟩ := hupdate nestedUpdate faithful_nestedUpdate Term.maxDepth hdepth
  exact ⟨hvalue, htext .nearest Reader.readsBack_nearest⟩

end ConfigTree
