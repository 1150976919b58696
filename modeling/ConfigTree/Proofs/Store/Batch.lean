import ConfigTree.Proofs.Store.Edit
import ConfigTree.Proofs.Store.Shown

/-!
# Requests with several edits

The edits of a request work on one copy of the committed tree, which is brought into its held form
only at the end. A store that is sent the edits one by one commits after each of them. Both come to
the same tree: after every edit the working copy is alike to the tree that the single requests have
committed.

* `settle`: the tree that edits come to, without a device.
* `settle_write_iff`: what a single write comes to.
* `settle_alike`: it is the same from trees that are alike.
* `settle_cons`: bringing the tree into its held form after the first edit changes nothing.
* `set_eq_setEach`: a request has the effect of its edits one by one.

The keys that a path gives have to be in stored form. Otherwise an entry that one edit has created
could be found by the text of the path before the commit but not after it.
-/

namespace ConfigTree

open ConfigTree.Tree (Object Addresses EachKey Full)
open Schema (Node)
open Schema.Node (Alike Stands)

/-- The requests of the single edits of a request, in the order in which they are applied. -/
def SetRequest.singles (q : SetRequest) : List SetRequest :=
  q.deletes.map (fun p => ⟨q.base, [p], [], []⟩)
    ++ q.replaces.map (fun u => ⟨q.base, [], [u], []⟩)
    ++ q.updates.map (fun u => ⟨q.base, [], [], [u]⟩)

/-- The paths of a request have nodes in the schema, and the texts of their keys are in stored form.
This is the condition on the request alone; which entries there are does not matter. -/
def SetRequest.Addressed (q : SetRequest) (s : Schema) : Prop :=
  ∀ edit ∈ q.edits, (s.resolve? edit.path.elems).isSome ∧
    Tree.StoredKeys s.root edit.path.elems

/-- Each single request has one edit, those of the request in turn. -/
theorem SetRequest.edits_singles (q : SetRequest) :
    List.Forall₂ (fun single edit => SetRequest.edits single = [edit]) q.singles q.edits := by
  have hmap : ∀ {α : Type} (f : α → SetRequest) (g : α → Edit) (xs : List α),
      (∀ x, (f x).edits = [g x]) →
        List.Forall₂ (fun single edit => SetRequest.edits single = [edit]) (xs.map f)
          (xs.map g) := by
    intro α f g xs hfg
    rw [List.forall₂_map_left_iff, List.forall₂_map_right_iff]
    exact List.forall₂_same.2 fun x _ => hfg x
  exact List.rel_append (List.rel_append (hmap _ _ _ fun _ => rfl) (hmap _ _ _ fun _ => rfl))
    (hmap _ _ _ fun _ => rfl)

theorem SetRequest.Addressed.addresses {q : SetRequest} {s : Schema} (hs : s.Loaded)
    (hfree : s.ColonFree) (h : q.Addressed s) : ∀ edit ∈ q.edits,
      Addresses s.root edit.path.elems := by
  intro edit hedit
  obtain ⟨hresolve, hstored⟩ := h edit hedit
  obtain ⟨n, hn⟩ := Option.isSome_iff_exists.1 hresolve
  obtain ⟨found, hfound, -⟩ := Option.map_eq_some_iff.1 hn
  exact Tree.addresses_of_walk? hs.keyed hfree hfound hstored

namespace Store

variable {st st' : Store} {s : Schema} {r : Json.Reader} {ms vs : Object} {w v : Json}

/-- Sends requests one by one, as long as they succeed. What the ones before have committed stays,
so it gives a store only if all of them succeed. -/
def setEach (st : Store) (now : Int64) : List SetRequest → Except StoreError Store
  | [] => .ok st
  | q :: rest =>
    match st.set now q with
    | (.error e, _) => .error e
    | (.ok _, st) => setEach st now rest

/-! ### What edits come to -/

/-- The tree that edits come to, each of them checked by reading the tree back. Nothing but the
working copy goes from one edit to the next, so the run of a request can be compared with a run of
requests on the trees alone. -/
def settle (s : Schema) (r : Json.Reader) : List Edit → Object → Except StoreError Json
  | [], working => (rederive s r (.obj working)).map Subtree.data
  | edit :: rest, working => do
    let (flag, working) ← edit.apply s r working
    if flag then
      let _ ← rederive s r (.obj working)
      settle s r rest working
    else settle s r rest working

section

variable {edit : Edit} {rest : List Edit} {flag : Bool} {e : StoreError} {c : Subtree}

theorem settle_nil (hc : rederive s r (.obj ms) = .ok c) : settle s r [] ms = .ok c.data := by
  rw [settle, hc]
  rfl

theorem settle_of_apply_error (happly : edit.apply s r ms = .error e) :
    settle s r (edit :: rest) ms = .error e := by
  rw [settle, happly]
  rfl

/-- A tree that can be read is the one to go on with, whether the device has to see it or not. -/
theorem settle_of_read (happly : edit.apply s r ms = .ok (flag, vs))
    (hc : rederive s r (.obj vs) = .ok c) :
    settle s r (edit :: rest) ms = settle s r rest vs := by
  rw [settle, happly]
  cases flag with
  | false => rfl
  | true => simp only [bind, Except.bind, if_true, hc]

theorem settle_of_rederive_error (happly : edit.apply s r ms = .ok (true, vs))
    (hc : rederive s r (.obj vs) = .error e) : settle s r (edit :: rest) ms = .error e := by
  rw [settle, happly]
  simp only [bind, Except.bind, if_true, hc]

end

/-- What a single write comes to: the data of the value is put in place, and the tree is read
back. -/
theorem settle_write_iff {mode : WriteMode} {p : Path} {value : TypedValue} {tree : Json} :
    settle s r [.write mode p value] ms = .ok tree ↔ (p.isRoot && mode == .update) = false ∧
      ∃ d ms' c, Edit.dataAt s r p value = .ok d ∧ Edit.putAt s mode p d ms = .ok ms' ∧
        rederive s r (.obj ms') = .ok c ∧ tree = c.data := by
  constructor
  · intro h
    obtain ⟨⟨flag, working⟩, happly, h⟩ := bind_eq_ok_iff.1 h
    obtain ⟨ms', hwrite, heq⟩ := map_eq_ok_iff.1 happly
    obtain ⟨rfl, rfl⟩ := Prod.mk.inj heq
    obtain ⟨_, -, h⟩ := bind_eq_ok_iff.1 h
    obtain ⟨c, hc, rfl⟩ := map_eq_ok_iff.1 h
    obtain ⟨hroot, d, hd, hput⟩ := Edit.writeAt_eq_ok_iff.1 hwrite
    exact ⟨hroot, d, ms', c, hd, hput, hc, rfl⟩
  · -- a write that goes through always leaves something to read back, so the flag of `apply` is
    -- `true` and the read runs
    rintro ⟨hroot, d, ms', c, hd, hput, hc, rfl⟩
    have happly : (Edit.write mode p value).apply s r ms = .ok (true, ms') := by
      rw [Edit.apply, Edit.writeAt_eq_ok_iff.2 ⟨hroot, d, hd, hput⟩]
      rfl
    rw [settle_of_read happly hc, settle_nil hc]

/-- What edits come to is an object that stands for itself. -/
theorem stands_of_settle (hs : s.Loaded) (hfree : s.ColonFree) {edits : List Edit} {tree : Json}
    (h : settle s r edits ms = .ok tree) :
    ∃ vs, tree = .obj vs ∧ s.root.Stands false (.obj vs) (.obj vs) := by
  -- on the edits, for any copy: what it has been before the last reading back makes no difference
  induction edits generalizing ms with
  | nil =>
    -- the last tree has been read as a configuration
    obtain ⟨c, hc, rfl⟩ := map_eq_ok_iff.1 h
    have hstands := Schema.stands_of_rederive hfree hc
    obtain ⟨children, hchildren⟩ := hs.hasMembers
    obtain ⟨_, vs, -, hvs⟩ := hstands.eq_obj hchildren
    rw [hvs] at hstands ⊢
    exact ⟨vs, rfl, hstands⟩
  | cons edit rest ih =>
    obtain ⟨⟨flag, working⟩, -, h⟩ := bind_eq_ok_iff.1 h
    cases flag with
    | false => exact ih h
    | true =>
      obtain ⟨_, -, h⟩ := bind_eq_ok_iff.1 h
      exact ih h

/-- What is read from a tree of this shape is what it stands for, and is read from any tree that is
alike to it. Alike are the working copy and its held form, which differ in the spelling of values
only. -/
theorem rederive_of_alike (hs : s.Loaded) (hfree : s.ColonFree) (hr : r.ReadsBack)
    (h : Alike s.root w v) {c : Subtree} (hw : rederive s r w = .ok c) :
    s.root.Stands false w c.data ∧ rederive s r v = .ok c := by
  obtain ⟨hstands, hc⟩ := Schema.stands_of_tidy hfree hr h.tidy hw
  refine ⟨hstands, ?_⟩
  rw [Schema.rederive_of_stands hs hfree hr (h.symm.stands hfree hstands).1, ← hc]

/-- **Trees that are alike are read as the same document.** -/
theorem rederive_alike (hs : s.Loaded) (hfree : s.ColonFree) (hr : r.ReadsBack)
    (h : Alike s.root w v) : Together Eq (rederive s r w) (rederive s r v) := by
  -- the two may be exchanged
  cases hw : rederive s r w with
  | ok c =>
    rw [(rederive_of_alike hs hfree hr h hw).2]
    exact .ok rfl
  | error e =>
    cases hv : rederive s r v with
    | ok c =>
      cases hw.symm.trans (rederive_of_alike hs hfree hr h.symm hv).2
    | error e' => exact .error e e'

/-- **Edits of trees that are alike come to the same tree.** The induction is on the edits. Each of
them leaves trees that are alike again, or fails on both, and at the end both are read as the same
document. -/
theorem settle_alike (hs : s.Loaded) (hfree : s.ColonFree) (hr : r.ReadsBack)
    {edits : List Edit} (hpaths : ∀ edit ∈ edits, Addresses s.root edit.path.elems)
    (h : Alike s.root (.obj ms) (.obj vs)) :
    Together Eq (settle s r edits ms) (settle s r edits vs) := by
  -- both objects move at every edit, so the induction is on the requests for every pair that is
  -- alike
  induction edits generalizing ms vs with
  | nil => exact (rederive_alike hs hfree hr h).map fun _ _ hcd => congrArg _ hcd
  | cons edit rest ih =>
    obtain ⟨hpath, hrest⟩ := List.forall_mem_cons.1 hpaths
    refine (Edit.apply_alike hfree h hpath).bind fun a b hab => ?_
    obtain ⟨flag, ms'⟩ := a
    obtain ⟨flag', vs'⟩ := b
    obtain ⟨rfl, hab⟩ := hab
    cases flag with
    -- nothing changed here, and then on the other side neither: both go on unread
    | false => exact ih hrest hab
    -- the results of the two reads are equal, and are dropped: the run goes on from the working
    -- objects
    | true => exact (rederive_alike hs hfree hr hab).bind fun _ _ _ => ih hrest hab

theorem runEdits_eq_settle (hd : st.device = none) (edits : List Edit) (working : Object)
    (shown : List Subtree) : ∃ out, st.runEdits edits working shown = (out, shown) ∧
      settle st.schema st.reader edits working =
        out >>= fun w => (rederive st.schema st.reader (.obj w)).map Subtree.data := by
  -- on the edits, for any copy: the run keeps the copy as it is after each edit, and so does
  -- `settle`
  induction edits generalizing working with
  | nil => exact ⟨.ok working, rfl, rfl⟩
  | cons edit rest ih =>
    rw [runEdits]
    cases happly : edit.apply st.schema st.reader working with
    | error e => exact ⟨.error e, rfl, settle_of_apply_error happly⟩
    | ok changed =>
      obtain ⟨flag, changed⟩ := changed
      cases flag with
      | false =>
        rw [settle, happly]
        exact ih changed
      | true =>
        -- without a device the candidate is only read
        cases hc : rederive st.schema st.reader (.obj changed) with
        | error e =>
          exact ⟨.error e, by simp only [offer_of_error hc], settle_of_rederive_error happly hc⟩
        | ok c =>
          obtain ⟨out, hrun, hsettle⟩ := ih changed
          refine ⟨out, by simp only [offer_of_none hd hc, hrun], ?_⟩
          rw [settle_of_read happly hc, hsettle]

/-- **What a request does without a device** is what its edits come to. -/
theorem set_eq_ok_iff (hd : st.device = none) (hp : st.poisoned = false) {now : Int64}
    {q : SetRequest} : (∃ resp, st.set now q = (.ok resp, st')) ↔
      ∃ tree, settle st.schema st.reader q.edits st.members = .ok tree ∧
        st' = { st with tree := tree } := by
  obtain ⟨out, hrun, hsettle⟩ := runEdits_eq_settle hd q.edits st.members st.shown
  rw [hsettle]
  unfold set
  rw [hp, hrun]
  -- without a device only an edit can stop the run; if none does, the read at the commit decides
  cases out with
  | error e => exact ⟨fun ⟨_, h⟩ => (nomatch h), fun ⟨_, h, _⟩ => (nomatch h)⟩
  | ok w =>
    simp only [Bool.false_eq_true, if_false, commit]
    cases hc : rederive st.schema st.reader (.obj w) with
    | error e =>
      simp [hc, bind, Except.bind, Except.map]
    | ok c =>
      simp [hc, bind, Except.bind, Except.map, eq_comm]

/-! ### One edit after another -/

/-- **Committing after the first edit changes nothing**: what edits come to is what the first one
and then the rest come to. The first one alone comes to the held form of the tree that it leaves,
and the rest comes to the same from either of these. -/
theorem settle_cons (hs : s.Loaded) (hfree : s.ColonFree) (hr : r.ReadsBack) {edit : Edit}
    {rest : List Edit} (hpaths : ∀ e ∈ edit :: rest, Addresses s.root e.path.elems)
    (h : s.root.Stands false (.obj ms) (.obj ms)) {tree : Json} :
    settle s r (edit :: rest) ms = .ok tree ↔ ∃ vs, settle s r [edit] ms = .ok (.obj vs) ∧
      s.root.Stands false (.obj vs) (.obj vs) ∧ settle s r rest vs = .ok tree := by
  obtain ⟨hpath, hrest⟩ := List.forall_mem_cons.1 hpaths
  have hself := Alike.of_stands hfree h
  have hedit : Together (fun a b : Bool × Object => a.1 = b.1 ∧
      Alike s.root (.obj a.2) (.obj b.2)) (edit.apply s r ms) (edit.apply s r ms) :=
    Edit.apply_alike hfree hself hpath
  cases happly : edit.apply s r ms with
  | error e =>
    rw [settle_of_apply_error happly, settle_of_apply_error happly]
    exact ⟨fun h => (nomatch h), fun ⟨_, h, _⟩ => (nomatch h)⟩
  | ok changed =>
    obtain ⟨flag, ws⟩ := changed
    rw [happly] at hedit
    have hws : Alike s.root (.obj ws) (.obj ws) := by
      cases hedit with
      | ok hab => exact hab.2
    cases hc : rederive s r (.obj ws) with
    | error e =>
      cases flag with
      | false =>
        -- a tree that has not changed can be read
        obtain rfl := Edit.eq_of_apply_false happly
        cases hc.symm.trans (Schema.rederive_of_stands hs hfree hr h)
      | true =>
        rw [settle_of_rederive_error happly hc, settle_of_rederive_error happly hc]
        exact ⟨fun h => (nomatch h), fun ⟨_, h, _⟩ => (nomatch h)⟩
    | ok c =>
      have hstands := (rederive_of_alike hs hfree hr hws hc).1
      obtain ⟨children, hchildren⟩ := hs.hasMembers
      obtain ⟨_, vs, -, hvs⟩ := hstands.eq_obj hchildren
      -- the first edit alone comes to the held form of its tree
      have hfirst : settle s r [edit] ms = .ok (.obj vs) := by
        rw [settle_of_read happly hc, settle_nil hc, hvs]
      have hall : settle s r (edit :: rest) ms = settle s r rest ws := settle_of_read happly hc
      have hheld := hstands.held hfree
      -- that form is alike to the tree itself, so the rest comes to the same from either
      have hrest := settle_alike hs hfree hr hrest (hvs ▸ (hws.stands hfree hstands).2)
      rw [hall, hrest.eq_ok_iff]
      rw [hvs] at hheld
      constructor
      · exact fun htree => ⟨vs, hfirst, hheld, htree⟩
      · rintro ⟨vs', hfirst', -, htree⟩
        obtain rfl := Json.obj.inj (Except.ok.inj (hfirst.symm.trans hfirst'))
        exact htree

theorem setEach_cons {now : Int64} {q : SetRequest} {rest : List SetRequest} :
    st.setEach now (q :: rest) = .ok st' ↔
      ∃ st₁, (∃ resp, st.set now q = (.ok resp, st₁)) ∧ st₁.setEach now rest = .ok st' := by
  rw [setEach]
  generalize st.set now q = out
  obtain ⟨result, st₁⟩ := out
  -- the requests stop at the first that fails, so the head has succeeded if the whole run has
  cases result with
  | error e => exact ⟨fun h => (nomatch h), fun ⟨_, ⟨_, h⟩, _⟩ => (nomatch h)⟩
  | ok resp =>
    constructor
    · exact fun h => ⟨st₁, ⟨resp, rfl⟩, h⟩
    · rintro ⟨st₂, ⟨_, heq⟩, h⟩
      obtain ⟨-, rfl⟩ := Prod.mk.inj heq
      exact h

/-- **Requests of one edit each** come to what their edits come to. The induction is on the
requests, for any store whose tree is in its held form: the store that a request leaves is one of
these again. -/
theorem setEach_eq_ok_iff (hs : st.schema.Loaded) (hfree : st.schema.ColonFree)
    (hr : st.reader.ReadsBack) (hd : st.device = none) (hp : st.poisoned = false) {now : Int64}
    {qs : List SetRequest} {edits : List Edit}
    (hqs : List.Forall₂ (fun q edit => SetRequest.edits q = [edit]) qs edits)
    (hpaths : ∀ edit ∈ edits, Addresses st.schema.root edit.path.elems)
    (htree : st.tree = .obj ms) (hstands : st.schema.root.Stands false (.obj ms) (.obj ms)) :
    st.setEach now qs = .ok st' ↔ ∃ tree, settle st.schema st.reader edits ms = .ok tree ∧
      st' = { st with tree := tree } := by
  induction hqs generalizing st ms with
  | nil =>
    rw [settle, Schema.rederive_of_stands hs hfree hr hstands]
    -- no requests leave the committed tree, which is the one that is read from it
    obtain ⟨schema, reader, device, tree, shown, poisoned⟩ := st
    dsimp only at htree
    subst htree
    simp [setEach, Except.map, Subtree.root, eq_comm]
  | @cons q edit qs edits hq _ ih =>
    have hmembers : st.members = ms := by
      rw [members, htree]
      rfl
    rw [setEach_cons]
    simp only [settle_cons hs hfree hr hpaths hstands]
    -- the store that the first request leaves is reached in the same way
    have hnext := fun vs hvs => @ih { st with tree := .obj vs } vs hs hfree hr hd hp
      (List.forall_mem_cons.1 hpaths).2 rfl hvs
    constructor
    · rintro ⟨st₁, hset, heach⟩
      rw [set_eq_ok_iff hd hp, hq, hmembers] at hset
      obtain ⟨tree₁, hfirst, rfl⟩ := hset
      obtain ⟨vs, rfl, hvs⟩ := stands_of_settle hs hfree hfirst
      obtain ⟨tree, hsettle, rfl⟩ := (hnext vs hvs).1 heach
      exact ⟨tree, ⟨vs, hfirst, hvs, hsettle⟩, rfl⟩
    · rintro ⟨tree, ⟨vs, hfirst, hvs, hsettle⟩, rfl⟩
      refine ⟨{ st with tree := .obj vs }, ?_, ?_⟩
      · rw [set_eq_ok_iff hd hp, hq, hmembers]
        exact ⟨_, hfirst, rfl⟩
      · exact (hnext vs hvs).2 ⟨tree, hsettle, rfl⟩

/-- **A request has the effect of its edits one by one.** In a reachable store without a device, a
request whose paths are in the schema, with keys in stored form, succeeds just if the requests of
its single edits all succeed one after another, and leaves the store that they leave. With a device
the answers would count, which may depend on all that it has been shown. -/
theorem set_eq_setEach (h : Reachable st) (hfree : st.schema.ColonFree)
    (hr : st.reader.ReadsBack) (hd : st.device = none) {q : SetRequest}
    (hq : q.Addressed st.schema) (now : Int64) :
    (∃ resp, st.set now q = (.ok resp, st')) ↔ st.setEach now q.singles = .ok st' := by
  have hinv := h.invariant
  have htree := h.tree_eq hfree
  have hstands := hinv.stands hfree
  rw [htree] at hstands
  rw [set_eq_ok_iff hd hinv.poisoned, setEach_eq_ok_iff hinv.loaded hfree hr hd hinv.poisoned
    q.edits_singles (hq.addresses hinv.loaded hfree) htree hstands]

/-! ### A request with two edits -/

/-- Deletes the host's name and its server. -/
def clearRequest : SetRequest where
  base := none
  deletes := [
    Path.ofElems [Path.Elem.plain "host"],
    Path.ofElems [Path.Elem.ofKeys "server" [("port", "80")]]]
  replaces := []
  updates := []

theorem isStored_port : IsStored "80" (.uint 16) := by
  intro path c hc
  have hheld : canonicalScalar path (.uint 16) (keyValue "80" (some (.uint 16)))
      = .ok (.num (.ofUInt64 80)) := rfl
  rw [← Except.ok.inj (hheld.symm.trans hc)]
  decide

/-- The list of servers. -/
def serverList : Node :=
  .list none ["port"] [("enabled", .leaf none .bool), ("port", .leaf none (.uint 16))]

/-- The only key on a path through a server is its port. -/
theorem eachKey_server {P : String → ScalarKind → Prop} {text : String} {rest : List Path.Elem}
    (htext : P text (.uint 16)) (hrest : EachKey P serverList rest) :
    EachKey P serverSchema.root (Path.Elem.ofKeys "server" [("port", text)] :: rest) := by
  intro child hchild
  change serverSchema.root.child? "server" = some child at hchild
  obtain rfl := Option.some.inj hchild
  refine ⟨fun key hkey leaf kind hleaf hkind => ?_, hrest⟩
  obtain rfl := List.mem_singleton.1 hkey
  change serverList.child? "port" = some leaf at hleaf
  obtain rfl := Option.some.inj hleaf
  obtain rfl := Option.some.inj hkind
  exact htext

/-- The port is all keys of a server. -/
theorem full_server (text : String) :
    Full serverList (Path.Elem.ofKeys "server" [("port", text)]) := by
  intro keys hkeys key hkey
  obtain rfl := Option.some.inj hkeys
  obtain rfl := List.mem_singleton.1 hkey
  rfl

theorem addressed_clearRequest : clearRequest.Addressed serverSchema := by
  intro edit hedit
  have hedits : edit = .delete (Path.ofElems [Path.Elem.plain "host"]) ∨
      edit = .delete (Path.ofElems [Path.Elem.ofKeys "server" [("port", "80")]]) := by
    simpa [clearRequest, SetRequest.edits, Path.under, Path.ofElems] using hedit
  rcases hedits with rfl | rfl
  · exact ⟨rfl, fun child hchild => ⟨fun key hkey => (nomatch hkey), trivial⟩⟩
  · exact ⟨rfl, eachKey_server isStored_port trivial⟩

theorem settle_clearRequest : settle serverSchema .nearest clearRequest.edits
    (serverStore none []).members = .ok (.obj []) := by
  have hedits : clearRequest.edits = [.delete (Path.ofElems [Path.Elem.plain "host"]),
      .delete (Path.ofElems [Path.Elem.ofKeys "server" [("port", "80")]])] := rfl
  have hfirst : (Edit.delete (Path.ofElems [Path.Elem.plain "host"])).apply serverSchema .nearest
      (serverStore none []).members = .ok (true, namelessTree.obj?.getD []) := rfl
  have hsecond : (Edit.delete (Path.ofElems [Path.Elem.ofKeys "server" [("port", "80")]])).apply
      serverSchema .nearest (namelessTree.obj?.getD []) = .ok (true, []) := rfl
  have hempty : rederive serverSchema .nearest (.obj []) = .ok (Subtree.root (.obj [])) :=
    Schema.rederive_of_stands loaded_serverSchema colonFree_serverSchema
      Json.Reader.readsBack_nearest (stands_empty loaded_serverSchema)
  have hnameless : rederive serverSchema .nearest (.obj (namelessTree.obj?.getD []))
      = .ok (Subtree.root namelessTree) := rederive_namelessTree
  rw [hedits, settle_of_read hfirst hnameless, settle_of_read hsecond hempty, settle_nil hempty,
    Subtree.root]

/-- Both edits at once and one after the other leave the empty tree. -/
theorem clear_eq_clearEach : ∃ st', (∃ resp, (serverStore none []).set 0 clearRequest
    = (.ok resp, st')) ∧ (serverStore none []).setEach 0 clearRequest.singles = .ok st' ∧
      st'.tree = .obj [] := by
  have hset : ∃ resp, (serverStore none []).set 0 clearRequest
      = (.ok resp, { serverStore none [] with tree := .obj [] }) :=
    (set_eq_ok_iff rfl rfl).2 ⟨.obj [], settle_clearRequest, rfl⟩
  refine ⟨_, hset, ?_, rfl⟩
  exact (set_eq_setEach reachable_serverStore colonFree_serverSchema
    Json.Reader.readsBack_nearest rfl addressed_clearRequest 0).1 hset

end Store

end ConfigTree
