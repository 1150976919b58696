import ConfigTree.Schema.Load
import ConfigTree.Store.Write
import ConfigTree.Proofs.Json.ReadBack
import ConfigTree.Proofs.Schema.Stands
import ConfigTree.Proofs.Schema.Valid

/-!
# Reachable stores

What holds of the committed tree of every store that comes about by its operations.

* `rederive_of_stands`, `stands_of_rederive`: the configuration that is read from the text of a tree
  is the document that the tree stands for. The reader has to read back each float.
* `Reachable`: the stores that an initial configuration and any sequence of operations lead to,
  whether they succeed or fail.
* `Invariant`: the committed tree stands for itself, and no update has been broken off halfway.
  `Reachable.invariant` says that every reachable store has it.
* `Reachable.committed`: it is an object, valid, and the configuration that is read from its text.
* `Reachable.valid`: it is valid, whatever the names of the schema are.

Each operation that changes the committed tree puts in its place what `rederive` has read, so the
invariant rests on a single fact about payloads: what both checks have accepted is in its held form.
-/

namespace ConfigTree

open Schema (Node)

namespace Schema

variable {s : Schema} {r : Json.Reader} {w c : Json}

/-! ### Reading configurations -/

@[simp] theorem nodeAt_nil : s.nodeAt [] = .ok (s.root, s.root.home) := rfl

/-- A configuration is read from a text in three steps: the text is parsed, what it says is brought
into its held form, and that form is checked. -/
theorem readConfig_eq_ok_iff {text : ByteArray} {d : Subtree} :
    Store.readConfig s r text = .ok d ↔ ∃ raw c, Json.parseBytes? r text = some raw ∧
      s.root.conform (Path.textOf []) false raw = .ok c ∧
      s.root.validate (Path.textOf []) false c = .ok () ∧ d = Subtree.root c := by
  unfold Store.readConfig
  rw [bind_eq_ok_iff]
  constructor
  · rintro ⟨⟨location, c⟩, hread, hvalid⟩
    obtain ⟨found, raw, hnode, hparse, hconform, rfl⟩ := unmarshal_eq_ok_iff.1 hread
    -- the document is read at the root, which every schema has
    obtain rfl := Except.ok.inj hnode
    obtain ⟨_, hcheck, hvalid⟩ := bind_eq_ok_iff.1 hvalid
    exact ⟨raw, c, hparse, hconform, hcheck, (Except.ok.inj hvalid).symm⟩
  · rintro ⟨raw, c, hparse, hconform, hcheck, rfl⟩
    refine ⟨Subtree.root c, ?_, bind_eq_ok_iff.2 ⟨(), hcheck, rfl⟩⟩
    exact unmarshal_eq_ok_iff.2 ⟨_, raw, nodeAt_nil, hparse, hconform, rfl⟩

/-- What is read as a configuration stands for itself. -/
theorem stands_of_readConfig (hfree : s.ColonFree) {text : ByteArray} {d : Subtree}
    (h : Store.readConfig s r text = .ok d) : s.root.Stands false d.data d.data := by
  obtain ⟨raw, c, -, hconform, hcheck, rfl⟩ := readConfig_eq_ok_iff.1 h
  exact Node.stands_of_conform hfree hconform hcheck

/-- What is read as a configuration is valid. -/
theorem valid_of_readConfig {text : ByteArray} {d : Subtree}
    (h : Store.readConfig s r text = .ok d) : s.root.Valid false d.data := by
  obtain ⟨raw, c, -, hconform, hcheck, rfl⟩ := readConfig_eq_ok_iff.1 h
  exact Node.valid_of_validate (Node.normal_of_conform hconform) hcheck

/-- **A tree is read as the document that it stands for**, by a reader that reads back its numbers.
It is asked of the tree and not of the reader, because a tree without floats is read back by every
reader. -/
theorem rederive_of_readBy (hs : s.Loaded) (hfree : s.ColonFree) (hr : w.ReadBy r)
    (h : s.root.Stands false w c) : Store.rederive s r w = .ok (Subtree.root c) := by
  have hdepth : w.depth ≤ Json.Term.maxDepth := by
    have := h.depth_le
    rw [Node.reachOf_false] at this
    exact Nat.le_trans this hs.reach_le
  -- a document in normal form is read back, and what stands for it is in that form
  have hparse : Json.parseBytes? r w.bytes = some w := by
    rw [hr.parseBytes?_bytes, Json.normalize_of_normal h.normal]
    exact ⟨hdepth, rfl⟩
  rw [Store.rederive, mapError_eq_ok_iff, readConfig_eq_ok_iff]
  exact ⟨w, c, hparse, h.conform hfree _, h.validate _, rfl⟩

theorem rederive_of_stands (hs : s.Loaded) (hfree : s.ColonFree) (hr : r.ReadsBack)
    (h : s.root.Stands false w c) : Store.rederive s r w = .ok (Subtree.root c) :=
  rederive_of_readBy hs hfree (hr.readBy w) h

/-- The configuration of a tree stands for itself, and has the place of the root. -/
theorem stands_of_rederive (hfree : s.ColonFree) {d : Subtree}
    (h : Store.rederive s r w = .ok d) : s.root.Stands false d.data d.data := by
  rw [Store.rederive, mapError_eq_ok_iff] at h
  exact stands_of_readConfig hfree h

/-- The document that a tree in normal form is held as is what its text is read as. So the detour
through the text, which a transaction takes, makes no difference to what it holds. -/
theorem conform_of_rederive (hr : r.ReadsBack) (hw : w.Normal) {d : Subtree}
    (h : Store.rederive s r w = .ok d) :
    s.root.conform (Path.textOf []) false w = .ok d.data ∧
      s.root.validate (Path.textOf []) false d.data = .ok () ∧ d = Subtree.root d.data := by
  rw [Store.rederive, mapError_eq_ok_iff, readConfig_eq_ok_iff] at h
  obtain ⟨raw, c, hparse, hconform, hcheck, rfl⟩ := h
  obtain ⟨-, rfl⟩ := (Json.parseBytes?_bytes hr w raw).1 hparse
  rw [Json.normalize_of_normal hw] at hconform
  exact ⟨hconform, hcheck, rfl⟩

/-- A tree with its members in order stands for the configuration that is read from it. Nothing is
asked of its values: that they can be read is what `rederive` has found. -/
theorem stands_of_tidy (hfree : s.ColonFree) (hr : r.ReadsBack) (hw : s.root.Tidy w) {d : Subtree}
    (h : Store.rederive s r w = .ok d) :
    s.root.Stands false w d.data ∧ d = Subtree.root d.data := by
  obtain ⟨hconform, hcheck, hd⟩ := conform_of_rederive hr hw.normal h
  exact ⟨hw.stands_of_conform hfree hconform hcheck, hd⟩

/-- The root of a loaded schema holds members. -/
theorem Loaded.hasMembers (hs : s.Loaded) : ∃ children, s.root.HasMembers false children := by
  obtain ⟨home, children, hroot⟩ := hs.root
  exact ⟨children, hroot ▸ .container⟩

end Schema

namespace Store

variable {st : Store}

/-! ### Reachable stores -/

/-- The stores that come about from an initial configuration, or none, by operations that succeed or
fail, whatever the device answers. The store that a failed operation leaves counts too, and a
function that modifies the tree may be any function. -/
inductive Reachable : Store → Prop
  | new {schema : Schema} {reader : Json.Reader} {device : Option Device}
      {initial : Option ByteArray} {st : Store} {shown : List Subtree} (loaded : schema.Loaded)
      (h : Store.new schema reader device initial = (.ok st, shown)) : Reachable st
  | set {st : Store} (h : Reachable st) (now : Int64) (q : SetRequest) : Reachable (st.set now q).2
  | updateState {st : Store} (h : Reachable st) (p : Path) (value : TypedValue) :
      Reachable (st.updateState p value).2
  | modify {st : Store} (h : Reachable st) (f : Json → Json) : Reachable (st.modify f).2

/-- What an operation leaves of a store: its schema, its reader and its device, and a tree that is
the one before or has been read as a configuration. This is all that the invariant needs to know of
an operation, so a new operation would add one lemma of this form. -/
structure Follows (st st' : Store) : Prop where
  schema : st'.schema = st.schema
  reader : st'.reader = st.reader
  device : st'.device = st.device
  poisoned : st'.poisoned = st.poisoned
  tree : st'.tree = st.tree ∨
    ∃ tree d, rederive st.schema st.reader tree = .ok d ∧ st'.tree = d.data

theorem Follows.refl (st : Store) : Follows st st := ⟨rfl, rfl, rfl, rfl, .inl rfl⟩

/-- What is committed has been read as a configuration. -/
theorem follows_commit (st : Store) (tree : Json) : Follows st (st.commit tree).2 := by
  unfold commit
  split
  · exact .refl st
  · next d hd => exact ⟨rfl, rfl, rfl, rfl, .inr ⟨tree, d, hd, rfl⟩⟩

theorem follows_set (st : Store) (now : Int64) (q : SetRequest) : Follows st (st.set now q).2 := by
  unfold set
  split
  · exact .refl st
  · split
    · exact ⟨rfl, rfl, rfl, rfl, .inl rfl⟩
    · next working shown _ =>
      -- what the device has been shown does not matter to what is committed
      have hcommit := follows_commit { st with shown } (.obj working)
      have hset : Follows st ({ st with shown }.commit (.obj working)).2 :=
        ⟨hcommit.schema, hcommit.reader, hcommit.device, hcommit.poisoned, hcommit.tree⟩
      split
      · next heq => rwa [heq] at hset
      · next heq => rwa [heq] at hset

theorem follows_updateState (st : Store) (p : Path) (value : TypedValue) :
    Follows st (st.updateState p value).2 := by
  unfold updateState
  split
  · exact .refl st
  · split
    · exact .refl st
    · exact follows_commit st _

theorem follows_modify (st : Store) (f : Json → Json) : Follows st (st.modify f).2 := by
  unfold modify
  split
  · exact .refl st
  · split
    · exact follows_commit st _
    · exact .refl st

/-! ### The invariant -/

/-- What holds of every reachable store. The last part takes names without colons, since a name with
one is looked up under another name than it is held by. -/
structure Invariant (st : Store) : Prop where
  loaded : st.schema.Loaded
  poisoned : st.poisoned = false
  /-- The committed tree stands for itself. -/
  stands : st.schema.ColonFree → st.schema.root.Stands false st.tree st.tree

theorem Invariant.follows {st' : Store} (hinv : Invariant st) (h : Follows st st') :
    Invariant st' := by
  refine ⟨h.schema ▸ hinv.loaded, h.poisoned.trans hinv.poisoned, fun hfree => ?_⟩
  rw [h.schema] at hfree ⊢
  rcases h.tree with htree | ⟨tree, d, hd, htree⟩
  · exact htree ▸ hinv.stands hfree
  · exact htree ▸ Schema.stands_of_rederive hfree hd

/-- A tree without members stands for itself. -/
theorem stands_empty {s : Schema} (hs : s.Loaded) : s.root.Stands false (.obj []) (.obj []) := by
  obtain ⟨children, hchildren⟩ := hs.hasMembers
  exact (Node.stands_object_iff hchildren).2 .nil

/-- What a new store is: its tree is empty, or has been read as a configuration. That a device has
accepted the tree says nothing more about it. -/
structure Starts (s : Schema) (r : Json.Reader) (st : Store) : Prop where
  schema : st.schema = s
  reader : st.reader = r
  poisoned : st.poisoned = false
  tree : st.tree = .obj [] ∨ ∃ text d, readConfig s r text = .ok d ∧ st.tree = d.data

theorem starts_of_new {schema : Schema} {reader : Json.Reader} {device : Option Device}
    {initial : Option ByteArray} {shown : List Subtree}
    (h : Store.new schema reader device initial = (.ok st, shown)) : Starts schema reader st := by
  unfold Store.new at h
  split at h
  · obtain ⟨hst, -⟩ := Prod.mk.inj h
    obtain rfl := Except.ok.inj hst
    exact ⟨rfl, rfl, rfl, .inl rfl⟩
  · next text =>
    split at h
    · cases (Prod.mk.inj h).1
    -- without a device the initial configuration is committed as it is
    · next c hc =>
      obtain ⟨hst, -⟩ := Prod.mk.inj h
      obtain rfl := Except.ok.inj hst
      exact ⟨rfl, rfl, rfl, .inr ⟨text, c, hc, rfl⟩⟩
    -- a device may refuse the initial configuration, and then there is no store
    · next c d hc =>
      split at h
      · cases (Prod.mk.inj h).1
      · obtain ⟨hst, -⟩ := Prod.mk.inj h
        obtain rfl := Except.ok.inj hst
        exact ⟨rfl, rfl, rfl, .inr ⟨text, c, hc, rfl⟩⟩

theorem Starts.invariant {schema : Schema} {reader : Json.Reader} (loaded : schema.Loaded)
    (h : Starts schema reader st) : Invariant st := by
  obtain ⟨rfl, rfl, hpoisoned, htree⟩ := h
  refine ⟨loaded, hpoisoned, fun hfree => ?_⟩
  rcases htree with htree | ⟨text, d, hd, htree⟩
  · rw [htree]
    exact stands_empty loaded
  · rw [htree]
    exact Schema.stands_of_readConfig hfree hd

/-- **Every reachable store has the invariant.** The induction is on how the store has come about: a
new one starts with it, and each operation leaves a store that follows the one before. -/
theorem Reachable.invariant (h : Reachable st) : Invariant st := by
  induction h with
  | new loaded h => exact (starts_of_new h).invariant loaded
  | set _ now q ih => exact ih.follows (follows_set _ now q)
  | updateState _ p value ih => exact ih.follows (follows_updateState _ p value)
  | modify _ f ih => exact ih.follows (follows_modify _ f)

/-- What an operation leaves of a store with a valid tree has a valid tree. -/
theorem Follows.valid {st' : Store} (h : Follows st st')
    (hvalid : st.schema.root.Valid false st.tree) : st'.schema.root.Valid false st'.tree := by
  rw [h.schema]
  rcases h.tree with htree | ⟨tree, d, hd, htree⟩
  · rw [htree]
    exact hvalid
  · rw [htree]
    exact Schema.valid_of_readConfig (mapError_eq_ok_iff.1 hd)

/-- **The committed tree of a reachable store is valid.** For this names may have colons: what has
been checked need not be in the form that it would be held in when read once more. -/
theorem Reachable.valid (h : Reachable st) : st.schema.root.Valid false st.tree := by
  induction h with
  | new loaded h =>
    obtain ⟨rfl, rfl, -, htree⟩ := starts_of_new h
    -- the tree of a new store is empty, or was read from the configuration and checked
    rcases htree with htree | ⟨text, d, hd, htree⟩
    · obtain ⟨children, hchildren⟩ := loaded.hasMembers
      rw [htree]
      exact .object hchildren Members.sorted_nil (fun _ _ hw => by cases hw)
        fun _ _ _ _ hw => by cases hw
    · rw [htree]
      exact Schema.valid_of_readConfig hd
  | set _ now q ih => exact (follows_set _ now q).valid ih
  | updateState _ p value ih => exact (follows_updateState _ p value).valid ih
  | modify _ f ih => exact (follows_modify _ f).valid ih

/-- The committed tree of a reachable store is an object. -/
theorem Reachable.tree_eq (h : Reachable st) (hfree : st.schema.ColonFree) :
    st.tree = .obj st.members := by
  obtain ⟨children, hchildren⟩ := h.invariant.loaded.hasMembers
  obtain ⟨ms, cs, htree, -⟩ := (h.invariant.stands hfree).eq_obj hchildren
  unfold members
  rw [htree]
  rfl

/-- **The committed tree of a reachable store is valid, and is the configuration that is read from
it.** So it is one that a transaction without edits accepts and does not alter. An update that is
broken off halfway, which poisons the store, does not change it either. -/
theorem Reachable.committed (h : Reachable st) (hfree : st.schema.ColonFree)
    (hr : st.reader.ReadsBack) : st.tree.isObject = true ∧
      st.schema.validate (Subtree.root st.tree) = .ok () ∧
      rederive st.schema st.reader st.tree = .ok (Subtree.root st.tree) ∧
      st.poison.2.tree = st.tree := by
  have hinv := h.invariant
  have hstands := hinv.stands hfree
  -- all four follow from the tree standing for itself: it is an object, it is checked, and reading
  -- it back gives it again
  refine ⟨?_, ?_, Schema.rederive_of_stands hinv.loaded hfree hr hstands, ?_⟩
  · rw [h.tree_eq hfree]
    rfl
  · unfold Schema.validate Subtree.root
    rw [Schema.nodeAt_nil]
    exact hstands.validate _
  · unfold poison
    split <;> rfl

/-! ### A store of servers -/

/-- A host, and the servers that listen on its ports. -/
def serverSchema : Schema where
  models := []
  root := .container none [
    ("host", .leaf none .string),
    ("server", .list none ["port"] [
      ("enabled", .leaf none .bool),
      ("port", .leaf none (.uint 16))])]

/-- A host with one server. -/
def serverTree : Json :=
  .obj [
    ("host", .str "alpha"),
    ("server", .arr [.obj [("enabled", .bool true), ("port", .num (.ofUInt64 80))]])]

/-- A store of that host. -/
def serverStore (device : Option Device) (shown : List Subtree) : Store :=
  ⟨serverSchema, .nearest, device, serverTree, shown, false⟩

theorem loaded_serverSchema : serverSchema.Loaded := by
  refine ⟨.nearest, serverSchema.toJson.render, ?_⟩
  rw [Schema.load, Json.Term.parse?_render]
  rfl

theorem colonFree_serverSchema : serverSchema.ColonFree := by decide

theorem stands_serverTree : serverSchema.root.Stands false serverTree serverTree := by
  have hconform : serverSchema.root.conform "/" false serverTree = .ok serverTree := rfl
  have hvalid : serverSchema.root.validate "/" false serverTree = .ok () := rfl
  exact Node.stands_of_conform colonFree_serverSchema hconform hvalid

theorem readConfig_serverTree :
    readConfig serverSchema .nearest serverTree.bytes = .ok (Subtree.root serverTree) :=
  mapError_eq_ok_iff.1 (Schema.rederive_of_stands loaded_serverSchema colonFree_serverSchema
    Json.Reader.readsBack_nearest stands_serverTree)

/-- The store comes about from the text of its tree as the initial configuration. -/
theorem reachable_serverStore : Reachable (serverStore none []) := by
  have hnew : Store.new serverSchema .nearest none (some serverTree.bytes)
      = (.ok (serverStore none []), []) := by
    simp only [Store.new, readConfig_serverTree]
    rfl
  exact .new loaded_serverSchema hnew

end Store

end ConfigTree
