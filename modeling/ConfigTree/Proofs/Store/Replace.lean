import ConfigTree.Store.Read
import ConfigTree.Proofs.Schema.Marshal
import ConfigTree.Proofs.Store.Batch
import ConfigTree.Proofs.Store.Put

/-!
# Reading what has been replaced

A set that replaces the node at a path succeeds for every payload that is valid there, and a get of
the path then answers that payload in its held form: nothing of what was there before is left. An
entry also has those keys of the path that the payload leaves out.

* `Edit.Replaced`: what stands at a path after the replacement.
* `Edit.putAt_stands`: putting valid data at a path leaves a tree that stands for a document, in
  which a look-up of the path finds that.
* `Store.Answers`: a get answers scalars with a typed value, and all else with a document.
* `Store.get_set_replace`: the set and the get together.

The path has to select an entry wherever it goes through a list, with keys that are valid texts; an
entry that has to be added would not be valid otherwise. It must not end in a key of an entry, since
another value there would make it another entry.
-/

namespace ConfigTree

open ConfigTree.Path (Elem)
open ConfigTree.Tree (Object Selects HeldKeys SelectsEntries EachKey EndsInKey heldKeys lookup)
open Schema (Node)
open Schema.Node (Alike Stands)

namespace Edit

variable {s : Schema} {target : Node} {e : Elem} {ms : Object} {d : Json} {p : Path}

/-- What stands at a path once data has replaced what was there: the data, and in an entry also the
keys of the path in held form, where the data leaves them out. -/
inductive Replaced (target : Node) (elems : List Elem) (data : Json) : Json → Prop
  | whole (place : Subtree.isEntryPlace elems = false) : Replaced target elems data data
  | entry {last : Elem} {ks new : Object} (place : elems.getLast? = some last)
      (keyed : last.isKeyed = true) (keys : HeldKeys target last ks) (members : data = .obj new) :
      Replaced target elems data (.obj (Members.insertAll ks new))

/-- What replaces what is at the end of a path stands there. What has been found makes no
difference. -/
theorem replaced_written {elems : List Elem} (found : Option Json)
    (hlast : elems.getLast? = some e) (hsel : e.isKeyed = true → Selects target e)
    (hd : Stands target e.isKeyed d d) :
    Replaced target elems d (written .replace (heldKeys target e.keys) d found) := by
  cases he : e.isKeyed with
  | false =>
    have hplace : Subtree.isEntryPlace elems = false := by
      simp [Subtree.isEntryPlace, hlast, he]
    rw [heldKeys, Tree.keys_eq_nil he, List.map_nil, written_of_kept_nil hd.normal rfl]
    exact .whole hplace
  | true =>
    rw [he] at hd
    obtain ⟨ks, hks⟩ := (hsel he).exists_heldKeys
    obtain ⟨home, keys, children, rfl, -⟩ := id (hsel he).fit
    obtain ⟨new, -, rfl, -⟩ := hd.eq_obj .list
    -- the entry starts anew, so nothing but the keys of the path and the data is in it
    have hanew : Members.insertAll [] ks = ks := by
      rw [hks.eq_heldKeys]
      exact Members.ofList_of_sorted (Members.sorted_map _ e.sorted)
    rw [← hks.eq_heldKeys, written, kept, hanew]
    exact .entry hlast he hks rfl

/-! ### Replacing the node at a path -/

/-- **Data that is valid at a path can be put there**, and the tree then stands for a document in
which the path leads to it. -/
theorem putAt_stands (hs : s.Loaded) (hfree : s.ColonFree) {home : Option String}
    (hstands : s.root.Stands false (.obj ms) (.obj ms))
    (hnode : s.nodeAt p.elems = .ok (target, home)) (hselects : SelectsEntries s.root p.elems)
    (hvalid : EachKey IsKeyText s.root p.elems) (hkey : ¬ EndsInKey s.root p.elems)
    (hd : Stands target (Subtree.isEntryPlace p.elems) d d) (hagrees : Agrees p d) :
    ∃ ms' cs' held, putAt s .replace p d ms = .ok ms' ∧
      s.root.Stands false (.obj ms') (.obj cs') ∧
      lookup p.elems (.obj cs') s.root = .ok (some (held, target)) ∧
      Replaced target p.elems d held ∧
      Stands target (Subtree.isEntryPlace p.elems) held held := by
  have hwalk := walk?_of_nodeAt hnode
  cases hsplit : p.splitLast? with
  | none =>
    have helems := splitLast?_eq_none hsplit
    rw [helems] at hwalk hd ⊢
    -- at the root the data is the whole tree
    obtain ⟨rfl, -⟩ := Prod.mk.inj (Option.some.inj hwalk)
    obtain ⟨children, hroot⟩ := hs.hasMembers
    obtain ⟨new, -, rfl, -⟩ := hd.eq_obj hroot
    exact ⟨new, new, .obj new, by rw [putAt, hsplit], hd, rfl, .whole rfl, hd⟩
  | some split =>
    obtain ⟨above, last⟩ := split
    have helems := splitLast?_eq_some hsplit
    have hplace : Subtree.isEntryPlace p.elems = last.isKeyed := by
      simp [Subtree.isEntryPlace, helems]
    rw [hplace] at hd ⊢
    obtain ⟨ms', cs', before, held, hput, hms', -, hafter, hwritten, hsel, hheld⟩ :=
      exists_lookup_putAt .replace hs hfree hstands hsplit hnode hselects hvalid hkey hd hagrees
    have hlast : p.elems.getLast? = some last := by rw [helems, List.getLast?_concat]
    exact ⟨ms', cs', held, hput, hms', hafter,
      hwritten ▸ replaced_written before hlast hsel hd, hheld⟩

end Edit

namespace Store

variable {st : Store} {p : Path} {target : Node} {entry : Bool} {held : Json} {answer : TypedValue}

/-! ### What a get answers -/

/-- The answer to a get of a node: a typed value for scalars, and the text of the document else. It
depends on what is held alone, so two nodes that hold the same are answered alike. -/
def Answers (target : Node) (place : String) (held : Json) (answer : TypedValue) : Prop :=
  match target.scalar? with
  | some kind => TypedValue.ofHeld place kind held = .ok answer
  | none => answer = .json held.bytes

/-- What stands for itself has an answer. -/
theorem exists_answers (h : Stands target entry held held) (place : String) :
    ∃ answer, Answers target place held answer := by
  unfold Answers
  cases h with
  | leaf held fits => exact exists_ofHeld fits place
  | leafList held fits => exact exists_ofHeld_arr fits place
  -- a node with members has no scalar, and its answer is a document, which can always be printed
  | object shape =>
    have hnone : target.scalar? = none := by
      cases target with
      | leaf home kind => cases shape.1
      | leafList home kind => cases shape.1
      | _ => rfl
    rw [hnone]
    exact ⟨_, rfl⟩
  | list => exact ⟨_, rfl⟩

/-- **A get answers what a look-up finds.** -/
theorem valueAt_of_lookup {home : Option String}
    (hnode : st.schema.nodeAt p.elems = .ok (target, home))
    (hlookup : lookup p.elems st.tree st.schema.root = .ok (some (held, target)))
    (hheld : held.Normal) (h : Answers target p.text held answer) :
    st.valueAt .json [] p = .ok answer := by
  unfold Answers at h
  unfold valueAt
  rw [hlookup]
  dsimp only
  cases hkind : target.scalar? with
  | some kind =>
    rw [hkind] at h
    simp only [leafValue, h, Except.mapError]
  | none =>
    rw [hkind] at h
    -- the document of a node in normal form is the node itself
    have hdocument : st.schema.marshal ⟨p.elems, held⟩ .plain = .ok held :=
      Schema.marshal_plain hnode hheld
    simp only [List.isEmpty_nil, if_true, subtreeValue, subtreeValue.document, hdocument,
      Except.map, h]

/-- A get of one path in an encoding that is served. -/
theorem get_of_valueAt {base : Option Path} {encoding : Encoding}
    (hencoding : encodings.contains encoding = true)
    (h : st.valueAt encoding [] (p.under base) = .ok answer) (hp : st.poisoned = false)
    (now : Int64) :
    st.get now ⟨base, [p], .all, encoding, []⟩ = .ok ⟨[⟨now, base, [⟨p, answer⟩], []⟩]⟩ := by
  have hsupport : st.checkSupport encoding [] = .ok () := by
    rw [checkSupport, hencoding]
    rfl
  unfold get
  simp [hsupport, hp, h, bind, Except.bind, pure, Except.pure]

/-- A get of one path fails as the reading of its node does. -/
theorem get_of_valueAt_error {base : Option Path} {encoding : Encoding} {err : StoreError}
    (hencoding : encodings.contains encoding = true)
    (h : st.valueAt encoding [] (p.under base) = .error err) (hp : st.poisoned = false)
    (now : Int64) : st.get now ⟨base, [p], .all, encoding, []⟩ = .error err := by
  have hsupport : st.checkSupport encoding [] = .ok () := by
    rw [checkSupport, hencoding]
    rfl
  unfold get
  simp [hsupport, hp, h, bind, Except.bind]

/-- A get of one path in the JSON encoding. -/
theorem get_single {base : Option Path} (h : st.valueAt .json [] (p.under base) = .ok answer)
    (hp : st.poisoned = false) (now : Int64) :
    st.get now ⟨base, [p], .all, .json, []⟩ = .ok ⟨[⟨now, base, [⟨p, answer⟩], []⟩]⟩ :=
  get_of_valueAt rfl h hp now

/-! ### A set and a get -/

/-- What a single replacement comes to. -/
theorem settle_replace {s : Schema} {r : Json.Reader} {value : TypedValue} {d c : Json}
    {ms ms' : Object} (hs : s.Loaded) (hfree : s.ColonFree) (hr : r.ReadsBack)
    (hdata : Edit.dataAt s r p value = .ok d) (hput : Edit.putAt s .replace p d ms = .ok ms')
    (h : s.root.Stands false (.obj ms') c) :
    settle s r [.write .replace p value] ms = .ok c := by
  have hread := Schema.rederive_of_stands hs hfree hr h
  -- it is only an update of the root that is refused
  have hmode : (p.isRoot && WriteMode.replace == .update) = false := Bool.and_false _
  exact settle_write_iff.2 ⟨hmode, d, ms', _, hdata, hput, hread, rfl⟩

/-- **What has been replaced is what is read then.** In a reachable store without a device, a set
that replaces the node at a path by a payload that is valid there succeeds, and a get of the path
answers that payload in its held form, for an entry with its keys. -/
theorem get_set_replace (h : Reachable st) (hfree : st.schema.ColonFree)
    (hr : st.reader.ReadsBack) (hd : st.device = none) {base : Option Path} {value : TypedValue}
    {d : Json} (hselects : SelectsEntries st.schema.root (p.under base).elems)
    (hvalid : EachKey IsKeyText st.schema.root (p.under base).elems)
    (hkey : ¬ EndsInKey st.schema.root (p.under base).elems)
    (hdata : Edit.dataAt st.schema st.reader (p.under base) value = .ok d)
    (hagrees : Edit.Agrees (p.under base) d) (now now' : Int64) :
    ∃ resp st' target held answer,
      st.set now ⟨base, [], [⟨p, value⟩], []⟩ = (.ok resp, st') ∧
      st.schema.resolve? (p.under base).elems = some target ∧
      Edit.Replaced target (p.under base).elems d held ∧
      Answers target (p.under base).text held answer ∧
      st'.get now' ⟨base, [p], .all, .json, []⟩ = .ok ⟨[⟨now', base, [⟨p, answer⟩], []⟩]⟩ := by
  have hinv := h.invariant
  have hstands := hinv.stands hfree
  rw [h.tree_eq hfree] at hstands
  obtain ⟨target, home, hnode, hdata'⟩ := Edit.stands_of_dataAt hfree hdata
  obtain ⟨ms', cs', held, hput, hms', hlookup, hreplaced, hheld⟩ :=
    Edit.putAt_stands hinv.loaded hfree hstands hnode hselects hvalid hkey hdata' hagrees
  obtain ⟨answer, hanswer⟩ := exists_answers hheld (p.under base).text
  -- the one edit comes to the document that its tree stands for
  have hsettle := settle_replace hinv.loaded hfree hr hdata hput hms'
  have hset : ∃ resp, st.set now ⟨base, [], [⟨p, value⟩], []⟩
      = (.ok resp, { st with tree := .obj cs' }) :=
    (set_eq_ok_iff hd hinv.poisoned).2 ⟨_, hsettle, rfl⟩
  have hvalue : Store.valueAt { st with tree := .obj cs' } .json [] (p.under base) = .ok answer :=
    valueAt_of_lookup hnode hlookup hheld.normal hanswer
  obtain ⟨resp, hset⟩ := hset
  refine ⟨resp, _, target, held, answer, hset, ?_, hreplaced, hanswer, ?_⟩
  · rw [Schema.resolve?, Node.resolve?, Edit.walk?_of_nodeAt hnode, Option.map_some]
  · exact get_single hvalue hinv.poisoned now'

/-! ### A server that is added -/

/-- The place of a server that the store does not have. -/
def newServer : Path := Path.ofElems [Path.Elem.ofKeys "server" [("port", "8080")]]

/-- A payload that leaves out the key. -/
def disabled : Json := .obj [("enabled", .bool false)]

/-- The server as it is read then. -/
def disabledServer : Json := .obj [("enabled", .bool false), ("port", .num (.ofUInt64 8080))]

theorem isKeyText_8080 : IsKeyText "8080" (.uint 16) :=
  ⟨.num (.ofUInt64 8080), rfl, rfl, by decide⟩

theorem dataAt_newServer :
    Edit.dataAt serverSchema .nearest newServer (.json disabled.bytes) = .ok disabled := by
  have hparse : Json.parseBytes? .nearest disabled.bytes = some disabled := by
    rw [Json.parseBytes?_bytes Json.Reader.readsBack_nearest]
    decide
  have hnode : serverSchema.nodeAt newServer.elems = .ok (.list none ["port"] [
      ("enabled", .leaf none .bool), ("port", .leaf none (.uint 16))], none) := rfl
  exact Edit.dataAt_of_payload hnode rfl hparse rfl rfl

/-- A path through a server selects it by its port, which is all of its keys. -/
theorem selectsEntries_server_cons {text : String} {rest : List Elem}
    (hrest : SelectsEntries serverList rest) :
    SelectsEntries serverSchema.root (Elem.ofKeys "server" [("port", text)] :: rest) := by
  intro child hchild
  change serverSchema.root.child? "server" = some child at hchild
  obtain rfl := Option.some.inj hchild
  exact ⟨.inr (full_server text), hrest⟩

/-- The server is added with its key, and can be read then. -/
theorem get_set_newServer : ∃ resp st',
    (serverStore none []).set 0 ⟨none, [], [⟨newServer, .json disabled.bytes⟩], []⟩
      = (.ok resp, st') ∧
    st'.get 1 ⟨none, [newServer], .all, .json, []⟩
      = .ok ⟨[⟨1, none, [⟨newServer, .json disabledServer.bytes⟩], []⟩]⟩ := by
  have hvalid : EachKey IsKeyText serverSchema.root newServer.elems :=
    eachKey_server isKeyText_8080 trivial
  have hselects : SelectsEntries serverSchema.root newServer.elems :=
    selectsEntries_server_cons trivial
  have hkey : ¬ EndsInKey serverSchema.root newServer.elems := Tree.not_endsInKey_singleton rfl
  have hagrees : Edit.Agrees newServer disabled := by
    intro last hlast members hmembers member hmember
    obtain rfl := Option.some.inj hlast
    obtain rfl := Option.some.inj hmembers
    obtain rfl := List.mem_singleton.1 hmember
    rfl
  have hbase : newServer.under none = newServer := rfl
  rw [← hbase] at hselects hvalid hkey hagrees
  have hdata := dataAt_newServer
  rw [← hbase] at hdata
  obtain ⟨resp, st', target, held, answer, hset, htarget, hheld, hanswer, hget⟩ :=
    get_set_replace reachable_serverStore colonFree_serverSchema Json.Reader.readsBack_nearest rfl
      hselects hvalid hkey hdata hagrees 0 1
  refine ⟨resp, st', hset, ?_⟩
  obtain rfl := Option.some.inj htarget
  -- the path ends in an entry, whose only key is the port
  cases hheld with
  | whole place => cases place
  | entry place keyed keys members =>
    obtain rfl := Option.some.inj place
    obtain rfl := Json.obj.inj members
    cases keys with
    | @cons _ held _ _ hhead htail =>
      cases htail
      obtain ⟨name, c⟩ := held
      obtain ⟨hname, leaf, kind, hleaf, hkind, hc⟩ := hhead
      obtain rfl := hname
      obtain rfl := Option.some.inj hleaf
      obtain rfl := Option.some.inj hkind
      have hport : canonicalScalar "" (.uint 16) (keyValue "8080" (some (.uint 16)))
          = .ok (.num (.ofUInt64 8080)) := rfl
      obtain rfl := Except.ok.inj (hc.symm.trans hport)
      have hserver : Json.obj (Members.insertAll [("port", .num (.ofUInt64 8080))]
          [("enabled", .bool false)]) = disabledServer := rfl
      rw [hserver] at hanswer
      have hdocument : answer = .json disabledServer.bytes := hanswer
      rw [hdocument] at hget
      exact hget

end Store

end ConfigTree
