import ConfigTree.Proofs.Store.Form

/-!
# How a request fails

A request that fails in a store without a device mostly does so because of what it asks for. There
are two other ways. A deletion may give keys to a node that is no list. And an edit may leave a tree
that is not read as a configuration: one that changes or deletes a key, adds an entry without all
its keys or with texts that no valid keys have, or goes on from a list without keys that is missing.

* `apply_fails`: how an edit fails in a tree where lists are arrays.
* `Edit.Proper`: what edits are free of all this.
* `Safe`, `runEdits_safe`: what holds of an error of each edit holds of an error of a run.
* `set_error_code`: the codes of the errors that a request fails with.

Both halves of the last statement are the same induction over the edits, with different invariants
of the working copy: that its lists are arrays for the one, that all of it can be read for the
other. The invariant tells with what errors an edit may fail, and with what errors the copy may fail
to be read.
-/

namespace ConfigTree

open ConfigTree.Path (Elem)
open ConfigTree.Tree (Object SelectsEntries EachKey EndsInKey childSchema found? lookup)
open Members (get? Sorted)
open Schema (Node)
open Schema.Node (Form Formed Stands)

theorem StoreError.blamesRequest_iff {e : StoreError} : e.blamesRequest = true ↔
    e.code ∈ [Code.invalidArgument, .notFound, .unimplemented] := by
  unfold blamesRequest
  cases e.code <;> simp

/-- A path ends with keys at a node of the schema that is no list. Whether the tree has something
there does not matter, so it can be told from the request. -/
def Tree.MisplacedKeys (n : Node) (elems : List Elem) : Prop :=
  ∃ last target, elems.getLast? = some last ∧ last.isKeyed = true ∧
    n.below? elems = some target ∧ target.isList = false

namespace Edit

variable {s : Schema} {r : Json.Reader} {n list : Node} {entry : Bool} {e last : Elem}
  {parent : List Elem} {mode : WriteMode} {place : String} {ms ms' : Object} {d : Json} {p : Path}
  {home : Option String} {found : Node × Option String} {err : StoreError}

/-! ### Errors of writes -/

theorem putEntry_fails (h : Formed .shaped n entry (.obj ms)) (hschema : childSchema n e = .ok list)
    (he : e.isKeyed = true) (hput : putEntry mode list e place d ms = .error err) :
    err.blamesRequest = true := by
  obtain ⟨c, old, hentry, hvalue⟩ := Tree.exists_entry h trivial hschema he
  unfold putEntry at hput
  rw [hentry] at hput
  simp only [hvalue] at hput
  cases d with
  | obj new => exact entryMembers_error (map_eq_error_iff.1 hput)
  | _ =>
    obtain rfl := Except.error.inj hput
    rfl

theorem putInside_fails (h : Formed .shaped n entry (.obj ms))
    (hschema : childSchema n e = .ok list)
    (hput : (putInside mode e place d ms n).1 = .error err) :
    err.blamesRequest = true := by
  unfold putInside at hput
  split at hput
  · cases hput
  · next hput' =>
    obtain rfl := Except.error.inj hput
    unfold putChild at hput'
    -- only an entry has keys that a put can contradict, and a put of a plain member never fails
    cases he : e.isKeyed with
    | true =>
      rw [he, if_pos rfl, Tree.child?_of_childSchema hschema] at hput'
      exact putEntry_fails h hschema he hput'
    | false =>
      rw [he, if_neg Bool.false_ne_true] at hput'
      cases hput'

/-- Putting data at a path that the schema knows fails because of the path or the data. The tree has
lists where the schema has them, so it is never the tree that is in the way. -/
theorem putAt_fails (hs : s.Loaded) (hfree : s.ColonFree)
    (h : Formed .shaped s.root false (.obj ms)) (hwalk : s.root.walk? home p.elems = some found)
    (hput : putAt s mode p d ms = .error err) :
    err.blamesRequest = true := by
  cases hsplit : p.splitLast? with
  | none =>
    unfold putAt at hput
    rw [hsplit] at hput
    cases d with
    | obj members => cases hput
    | _ =>
      obtain rfl := Except.error.inj hput
      rfl
  | some split =>
    obtain ⟨parent, last⟩ := split
    rw [splitLast?_eq_some hsplit] at hwalk
    rw [putAt_eq hsplit] at hput
    rcases Tree.modifyAt_create (g := putInside mode last p.text d) hs.keyed hfree h hwalk with
      ⟨e, xs, hmodify⟩ | ⟨ms', inner, m, entry, hmodify, hm, hinner⟩
    · -- the path goes on from a list that it names without keys
      rw [hmodify] at hput
      obtain rfl := Except.error.inj hput
      rfl
    · obtain ⟨m', home', hm', hlast⟩ := Node.walk?_append hwalk
      obtain rfl := Option.some.inj (hm.symm.trans hm')
      obtain ⟨target, hchild, howns, -⟩ := Node.walk?_cons hlast
      have hschema := Tree.childSchema_of_ownsKeys hchild howns
      rw [hmodify] at hput
      -- everything above has been found or added, so what is left is the write at the end
      cases hout : (putInside mode last p.text d inner m).1 with
      | error e =>
        rw [hout] at hput
        exact Except.error.inj hput ▸ putInside_fails hinner hschema hout
      | ok u =>
        rw [hout] at hput
        cases hput

/-! ### Errors of edits -/

/-- How a deletion fails that gives keys to a node which is no list. The error is one of the
navigation, whose code is that of an internal error, and so it is set apart from those that blame
the request. -/
def RefusesKeys (s : Schema) (edit : Edit) (err : StoreError) : Prop :=
  ∃ p last, edit = .delete p ∧ p.elems.getLast? = some last ∧
    Tree.MisplacedKeys s.root p.elems ∧
      err = .navigation p.text (.wrongNode last.text .notKeyedList)

theorem removeInside_fails {cause : TreeError} (h : Formed .shaped n entry (.obj ms))
    (hremove : (removeInside e ms n).1 = .error cause) : cause = .wrongNode e.text .notKeyedList ∧
      e.isKeyed = true ∧ ∃ target, n.child? e.name = some target ∧ target.isList = false := by
  unfold removeInside at hremove
  cases hfound : found? ms e with
  | some v =>
    rw [removeChild_of_found hfound] at hremove
    cases hremove
  | none =>
    rcases removeChild_of_missing hfound with ⟨⟨rest, heq⟩, -⟩ | ⟨heq, he, w, hw, hother⟩
    · rw [heq] at hremove
      cases hremove
    · rw [heq] at hremove
      -- the member has the shape its schema gives, so one that is no array is no list there either
      obtain ⟨target, hchild, hformed⟩ := h.exists_child hw
      refine ⟨(Except.error.inj hremove).symm, he, target, hchild,
        Bool.eq_false_iff.2 fun hlist => ?_⟩
      obtain ⟨xs, rfl⟩ := hformed.eq_arr trivial hlist
      cases hother

/-- **A deletion fails** where the schema does not know its path, or since its keys are not those of
a list. The first can only come from the pruning, for what leads nowhere counts as deleted. -/
theorem deleteAt_fails (hs : s.Loaded) (h : Formed .shaped s.root false (.obj ms))
    (hdelete : deleteAt s p ms = .error err) :
    err.blamesRequest = true ∨ RefusesKeys s (.delete p) err := by
  cases hsplit : p.splitLast? with
  | none =>
    unfold deleteAt at hdelete
    rw [hsplit] at hdelete
    cases hdelete
  | some split =>
    obtain ⟨parent, last⟩ := split
    have helems := splitLast?_eq_some hsplit
    rw [deleteAt_eq hsplit] at hdelete
    split at hdelete
    · cases hdelete
    · next cause changed hmodify =>
      -- the last step is refused, and the node above is there
      obtain rfl := Except.error.inj hdelete
      obtain ⟨inner, m, hlookup, hremove⟩ := (Tree.exists_modifyAt_iff h trivial).1 ⟨_, hmodify⟩
      obtain ⟨_, hinner⟩ := Tree.exists_formed_of_lookup h hlookup
      obtain ⟨rfl, he, target, hchild, hlist⟩ := removeInside_fails hinner hremove
      have hlast : p.elems.getLast? = some last := by rw [helems, List.getLast?_concat]
      refine .inr ⟨p, last, rfl, hlast, ⟨last, target, hlast, he, ?_, hlist⟩, rfl⟩
      rw [helems, Node.below?_append, Tree.below?_of_lookup hlookup, Option.bind_some,
        Node.below?_cons hchild]
      rfl
    · cases hdelete
    · next changed hmodify =>
      split at hdelete
      · next cause hprune =>
        -- what is left has lists where the schema has them, so it can be pruned
        obtain ⟨hchanged, -⟩ := Tree.formed_drop drops_removeInside hs.keyed h
          (fun hkeys => hkeys.elim) hmodify
        obtain ⟨place, rfl⟩ := Tree.prune_error hchanged trivial hprune
        obtain rfl := Except.error.inj hdelete
        exact .inl rfl
      · cases hdelete

/-- **How an edit fails** in a tree where lists are arrays. In another tree an edit might also fail
because of what stands in the place of a list. -/
theorem apply_fails {edit : Edit} (hs : s.Loaded) (hfree : s.ColonFree)
    (h : Formed .shaped s.root false (.obj ms)) (happly : edit.apply s r ms = .error err) :
    err.blamesRequest = true ∨ edit.RefusesKeys s err := by
  cases edit with
  | delete p => exact deleteAt_fails hs h happly
  | write mode p value =>
    have hwrite : writeAt s r mode p value ms = .error err := map_eq_error_iff.1 happly
    unfold writeAt at hwrite
    split at hwrite
    · obtain rfl := Except.error.inj hwrite
      exact .inl rfl
    · rcases bind_eq_error_iff.1 hwrite with hdata | ⟨d, hdata, hput⟩
      · exact .inl (dataAt_error hdata)
      · -- the payload has been read for a node of the schema, so the path leads to one and only the
        -- put itself can fail
        obtain ⟨target, home, hnode, -⟩ := stands_of_dataAt hfree hdata
        exact .inl (putAt_fails hs hfree h (walk?_of_nodeAt hnode) hput)

/-! ### Edits that leave a configuration -/

/-- An edit that leaves a configuration. A write gives all keys of the lists that its path goes
through, with texts that valid keys have, and neither a write nor a deletion ends in a key. A
deletion may be at any path otherwise, if it does not end with keys at a node that is no list. All
this can be told from the schema and the request. -/
def Proper (s : Schema) : Edit → Prop
  | .delete p => ¬ EndsInKey s.root p.elems ∧ ¬ Tree.MisplacedKeys s.root p.elems
  | .write _ p _ => SelectsEntries s.root p.elems ∧ EachKey IsKeyText s.root p.elems ∧
      ¬ EndsInKey s.root p.elems

/-- What stands for a text that a valid key has is read as that key. -/
theorem keyText_legible {text : String} {kind : ScalarKind} (h : IsKeyText text kind) :
    Form.legible.KeyText text kind := by
  intro home
  obtain ⟨c, hheld, hfits, htext⟩ := id h
  have hc := canonicalScalar_eq_ok_iff.1 hheld
  refine ⟨c, hc, checkScalar_eq_ok_iff.1 hfits, ?_⟩
  rw [htext, (keyString_keyValue h.isStored hc).1]

theorem Proper.fits {edit : Edit} (h : edit.Proper s) : edit.Fits .legible s := by
  cases edit with
  | delete p => exact fun _ => h.1
  | write mode p value =>
    obtain ⟨hselects, htexts, hkey⟩ := h
    exact ⟨htexts.imp fun _ _ => keyText_legible, fun _ => hselects,
      fun _ => htexts.imp fun _ _ => IsKeyText.isStored, fun _ => hkey⟩

theorem Proper.not_refusesKeys {edit : Edit} (h : edit.Proper s) : ¬ edit.RefusesKeys s err := by
  rintro ⟨p, last, rfl, -, hkeys, -⟩
  exact h.2 hkeys

end Edit

namespace Store

variable {st st' : Store} {q : SetRequest} {e : StoreError} {Inv : Object → Prop}
  {Fails : StoreError → Prop} {edits : List Edit} {working : Object} {shown : List Subtree}

/-! ### Runs -/

/-- A copy that is not read as a configuration ends a run. -/
theorem runEdits_of_rederive_error {edit : Edit} {changed : Object}
    (happly : edit.apply st.schema st.reader working = .ok (true, changed))
    (hc : rederive st.schema st.reader (.obj changed) = .error e) :
    st.runEdits (edit :: edits) working shown = (.error e, shown) := by
  simp only [runEdits, happly, offer_of_error hc]

/-- An edit of copies of which `Inv` holds leaves such a copy, if that is read as a configuration.
Of the error `Fails` holds if the edit fails or the copy is not read. The reading is part of it
because a run goes on only from a copy that has been read, so `Inv` need not be kept otherwise. -/
structure Safe (st : Store) (Inv : Object → Prop) (Fails : StoreError → Prop) (edit : Edit) :
    Prop where
  apply : ∀ ms e, Inv ms → edit.apply st.schema st.reader ms = .error e → Fails e
  read : ∀ ms ms' e, Inv ms → edit.apply st.schema st.reader ms = .ok (true, ms') →
    rederive st.schema st.reader (.obj ms') = .error e → Fails e
  keeps : ∀ ms ms' c, Inv ms → edit.apply st.schema st.reader ms = .ok (true, ms') →
    rederive st.schema st.reader (.obj ms') = .ok c → Inv ms'

theorem Safe.imp {edit : Edit} {Fails' : StoreError → Prop} (h : st.Safe Inv Fails edit)
    (himp : ∀ e, Fails e → Fails' e) : st.Safe Inv Fails' edit where
  apply ms e hms happly := himp e (h.apply ms e hms happly)
  read ms ms' e hms happly hc := himp e (h.read ms ms' e hms happly hc)
  keeps := h.keeps

/-- **A run of safe edits is safe.** The induction is on the edits, for any copy with the invariant.
It is made once for both invariants below. -/
theorem runEdits_safe (hd : st.device = none) (hsafe : ∀ edit ∈ edits, st.Safe Inv Fails edit)
    (h : Inv working) {out : Except StoreError Object} {shown' : List Subtree}
    (hrun : st.runEdits edits working shown = (out, shown')) :
    (∀ ms, out = .ok ms → Inv ms) ∧ ∀ e, out = .error e → Fails e := by
  induction edits generalizing working shown with
  | nil =>
    obtain ⟨rfl, -⟩ := Prod.mk.inj hrun
    exact ⟨fun ms heq => Except.ok.inj heq ▸ h, fun e heq => (by cases heq)⟩
  | cons edit rest ih =>
    obtain ⟨hedit, hrest⟩ := List.forall_mem_cons.1 hsafe
    -- an error ends the run
    have hstop : ∀ {e : StoreError}, Fails e → .error e = out →
        (∀ ms, out = .ok ms → Inv ms) ∧ ∀ e, out = .error e → Fails e := by
      rintro e he rfl
      exact ⟨fun ms heq => (by cases heq), fun e' heq => Except.error.inj heq ▸ he⟩
    cases happly : edit.apply st.schema st.reader working with
    | error e =>
      simp only [runEdits, happly] at hrun
      exact hstop (hedit.apply working e h happly) (Prod.mk.inj hrun).1
    | ok changed =>
      obtain ⟨flag, changed⟩ := changed
      cases flag with
      | false =>
        simp only [runEdits, happly] at hrun
        obtain rfl := Edit.eq_of_apply_false happly
        exact ih hrest h hrun
      | true =>
        cases hc : rederive st.schema st.reader (.obj changed) with
        | error e =>
          rw [runEdits_of_rederive_error happly hc] at hrun
          exact hstop (hedit.read working changed e h happly hc) (Prod.mk.inj hrun).1
        | ok c =>
          simp only [runEdits, happly, offer_of_none hd hc] at hrun
          exact ih hrest (hedit.keeps working changed c h happly hc) hrun

/-- A request of safe edits is safe, if `Fails` also holds of the errors that copies give which are
not read in the end. -/
theorem set_safe {now : Int64} (hp : st.poisoned = false) (hd : st.device = none)
    (hsafe : ∀ edit ∈ q.edits, st.Safe Inv Fails edit) (h : Inv st.members)
    (hread : ∀ ms e, Inv ms → rederive st.schema st.reader (.obj ms) = .error e → Fails e)
    (hset : st.set now q = (.error e, st')) : Fails e := by
  obtain ⟨out, shown', hrun⟩ :
      ∃ out shown', st.runEdits q.edits st.members st.shown = (out, shown') := ⟨_, _, rfl⟩
  -- the invariant is carried to the working object, where the read at the commit is one more step
  -- like those before
  obtain ⟨hok, hfails⟩ := runEdits_safe hd hsafe h hrun
  cases out with
  | error e' =>
    rw [set_of_runEdits_error hp hrun] at hset
    exact hfails e (congrArg _ (Except.error.inj (Prod.mk.inj hset).1))
  | ok working =>
    cases hc : rederive st.schema st.reader (.obj working) with
    | error e' =>
      rw [set_of_rederive_error hp hrun hc] at hset
      exact Except.error.inj (Prod.mk.inj hset).1 ▸ hread working e' (hok working rfl) hc
    | ok c =>
      rw [set_of_rederive hp hrun hc] at hset
      cases (Prod.mk.inj hset).1

/-! ### Copies -/

/-- A copy in which lists are arrays, if it is read as a configuration. -/
theorem shaped_of_rederive {s : Schema} {r : Json.Reader} {c : Subtree} (hfree : s.ColonFree)
    (h : Formed .loose s.root false (.obj working)) (hc : rederive s r (.obj working) = .ok c) :
    Formed .shaped s.root false (.obj working) := by
  rw [rederive, mapError_eq_ok_iff, Schema.readConfig_eq_ok_iff] at hc
  obtain ⟨raw, data, hparse, hconform, -, -⟩ := hc
  exact h.shaped hfree (Json.readAs_of_parseBytes? hparse) hconform

/-- A copy that is legible is read as a configuration. -/
theorem exists_rederive_of_legible {s : Schema} {r : Json.Reader} (hs : s.Loaded)
    (hfree : s.ColonFree) (hr : r.ReadsBack) (h : Formed .legible s.root false (.obj working)) :
    ∃ c, rederive s r (.obj working) = .ok c := by
  obtain ⟨c, hstands, -⟩ := h.exists_stands hs.keyed hfree
  exact ⟨_, Schema.rederive_of_stands hs hfree hr hstands⟩

/-- Any edit keeps lists arrays, or leaves a copy that is not read: a write that goes on from a
missing list without keys puts an object in its place. -/
theorem safe_shaped (hs : st.schema.Loaded) (hfree : st.schema.ColonFree) {edit : Edit} :
    st.Safe (fun ms => Formed .shaped st.schema.root false (.obj ms))
      (fun e => (e.blamesRequest = true ∨ ∃ cause, e = .invalidTree cause) ∨
        edit.RefusesKeys st.schema e) edit where
  apply ms e h happly := (Edit.apply_fails hs hfree h happly).imp_left .inl
  read ms ms' e h happly hc := by
    obtain ⟨cause, -, rfl⟩ := mapError_eq_error_iff.1 hc
    exact .inl (.inr ⟨cause, rfl⟩)
  keeps ms ms' c h happly hc := by
    -- an element without keys takes a list for a container, so the edit by itself leaves only the
    -- loose form; what it leaves is shaped because it was read back
    have hloose : Formed .loose st.schema.root false (.obj ms) :=
      h.imp hfree (fun _ _ _ _ => trivial) (fun hkeys => hkeys.elim) fun hlists => hlists.elim
    have hkept : Formed .loose st.schema.root false (.obj ms') :=
      Edit.formed_apply hs hfree (fun _ _ _ _ => trivial) (fun hlists => hlists)
        (edit.fits_of_not_keys not_false fun _ _ _ => trivial) hloose happly
    exact shaped_of_rederive hfree hkept hc

/-- **A proper edit leaves a configuration**, or fails because of what it asks for. -/
theorem safe_legible (hs : st.schema.Loaded) (hfree : st.schema.ColonFree)
    (hr : st.reader.ReadsBack) {edit : Edit} (hproper : edit.Proper st.schema) :
    st.Safe (fun ms => Formed .legible st.schema.root false (.obj ms))
      (fun e => e.blamesRequest = true) edit := by
  have hkept : ∀ {ms ms'}, Formed .legible st.schema.root false (.obj ms) →
      edit.apply st.schema st.reader ms = .ok (true, ms') →
      Formed .legible st.schema.root false (.obj ms') := fun h happly =>
    Edit.formed_apply hs hfree (fun _ _ => Schema.Node.readsAsValue_of_isValue) (fun _ => trivial)
      hproper.fits h happly
  refine ⟨fun ms e h happly => ?_, fun ms ms' e h happly hc => ?_, fun ms ms' c h happly _ =>
    hkept h happly⟩
  · have hshaped : Formed .shaped st.schema.root false (.obj ms) :=
      h.imp hfree (fun _ _ _ _ => trivial) (fun hkeys => hkeys.elim) fun _ => trivial
    exact (Edit.apply_fails hs hfree hshaped happly).resolve_right hproper.not_refusesKeys
  · -- a legible object is always read back, so no failure comes from there
    obtain ⟨c, hc'⟩ := exists_rederive_of_legible hs hfree hr (hkept h happly)
    cases hc.symm.trans hc'

/-! ### Requests -/

/-- **How a request fails** in a reachable store without a device. Its error has a code that blames
the request, or a copy is not read as a configuration, or a deletion gives keys to a node that is no
list. If all its edits are proper, then the error has such a code. -/
theorem set_error_code (h : Reachable st) (hfree : st.schema.ColonFree) (hd : st.device = none)
    {now : Int64} (hset : st.set now q = (.error e, st')) :
    (e.code ∈ [Code.invalidArgument, .notFound, .unimplemented] ∨
      (∃ cause, e = .invalidTree cause) ∨ ∃ edit ∈ q.edits, edit.RefusesKeys st.schema e) ∧
    (st.reader.ReadsBack → (∀ edit ∈ q.edits, edit.Proper st.schema) →
      e.code ∈ [Code.invalidArgument, .notFound, .unimplemented]) := by
  have hinv := h.invariant
  have hs := hinv.loaded
  have hvalid := h.formed_members hfree
  rw [← StoreError.blamesRequest_iff]
  constructor
  · -- lists stay arrays in every copy that is read
    have hsafe : ∀ edit ∈ q.edits, st.Safe
        (fun ms => Formed .shaped st.schema.root false (.obj ms))
        (fun e => (e.blamesRequest = true ∨ ∃ cause, e = .invalidTree cause) ∨
          ∃ edit ∈ q.edits, edit.RefusesKeys st.schema e) edit := fun edit hedit =>
      (safe_shaped hs hfree).imp fun e he => he.imp_right fun hrefuses => ⟨edit, hedit, hrefuses⟩
    rw [← or_assoc]
    refine set_safe hinv.poisoned hd hsafe (hvalid.of_valid (fun _ _ _ _ => trivial) hfree)
      (fun ms e _ hc => ?_) hset
    obtain ⟨cause, -, rfl⟩ := mapError_eq_error_iff.1 hc
    exact .inl (.inr ⟨cause, rfl⟩)
  · -- every copy stays legible, so all of them are read
    intro hr hproper
    refine set_safe hinv.poisoned hd
      (fun edit hedit => safe_legible hs hfree hr (hproper edit hedit))
      (hvalid.of_valid (fun _ _ => Schema.Node.readsAsValue_of_isValue) hfree)
      (fun ms e hms hc => ?_) hset
    obtain ⟨c, hc'⟩ := exists_rederive_of_legible hs hfree hr hms
    cases hc.symm.trans hc'

/-! ### Requests that fail for the store -/

/-- The flag of a server whose port is no port. -/
def badFlag : Path :=
  Path.ofElems [Elem.ofKeys "server" [("port", "99999")], Elem.plain "enabled"]

/-- The tree with that server. -/
def badTree : Json :=
  .obj [
    ("host", .str "alpha"),
    ("server", .arr [
      .obj [("enabled", .bool true), ("port", .num (.ofUInt64 80))],
      .obj [("enabled", .bool true), ("port", .num (.ofUInt64 99999))]])]

theorem dataAt_badFlag :
    Edit.dataAt serverSchema .nearest badFlag (.bool true) = .ok (.bool true) := by
  have hparse : Json.parseBytes? .nearest (Json.bool true).bytes = some (.bool true) := by
    rw [Json.parseBytes?_bytes Json.Reader.readsBack_nearest]
    decide
  have hnode : serverSchema.nodeAt badFlag.elems = .ok (.leaf none .bool, none) := rfl
  exact Edit.dataAt_of_payload hnode rfl hparse rfl rfl

theorem rederive_badTree : rederive serverSchema .nearest badTree = .error (.invalidTree
    (.invalidData "/server[99999]/port" (.notOfKind (.num (.ofUInt64 99999)) (.uint 16)))) := by
  have hparse : Json.parseBytes? .nearest badTree.bytes = some badTree := by
    rw [Json.parseBytes?_bytes Json.Reader.readsBack_nearest]
    decide
  unfold rederive readConfig Schema.unmarshal
  simp only [hparse]
  rfl

/-- The server is added, and then found not to be valid. -/
theorem set_badFlag : (serverStore none []).set 0 (.single .replace none ⟨badFlag, .bool true⟩) =
    (.error (.invalidTree (.invalidData "/server[99999]/port"
      (.notOfKind (.num (.ofUInt64 99999)) (.uint 16)))), serverStore none []) := by
  obtain ⟨ms', hms'⟩ : ∃ ms', badTree = .obj ms' := ⟨_, rfl⟩
  have hput : Edit.putAt serverSchema .replace badFlag (.bool true) (serverStore none []).members
      = .ok ms' := by
    obtain rfl := Json.obj.inj hms'
    rfl
  have happly : (Edit.write .replace badFlag (.bool true)).apply serverSchema .nearest
      (serverStore none []).members = .ok (true, ms') :=
    map_eq_ok_iff.2 ⟨ms', Edit.writeAt_eq_ok_iff.2 ⟨rfl, _, dataAt_badFlag, hput⟩, rfl⟩
  have hread := rederive_badTree
  rw [hms'] at hread
  refine set_of_runEdits_error rfl ?_
  rw [SetRequest.edits_single]
  exact runEdits_of_rederive_error happly hread

/-- The path of the host's name, with keys that only a server has, is refused. -/
theorem set_keyedHost : (serverStore none []).set 0 (.deletion none keyedHost) =
    (.error (.navigation "/host[port=80]" (.wrongNode "host[port=80]" .notKeyedList)),
      serverStore none []) := rfl

/-- A document is no value of a flag. -/
theorem set_documentFlag :
    (serverStore none []).set 0 (.single .replace none ⟨newFlag, .json ⟨#[]⟩⟩) =
      (.error (.invalidValue "/server[port=8080]/enabled"
        (.invalidValue "/server[port=8080]/enabled" .document)), serverStore none []) := rfl

theorem proper_documentFlag (value : TypedValue) :
    (Edit.write .replace newFlag value).Proper serverSchema := by
  refine ⟨selectsEntries_server "8080" "enabled", fun child hchild => ?_,
    not_endsInKey_flag "8080"⟩
  obtain rfl := Option.some.inj hchild
  refine ⟨fun key hkey leaf kind hleaf hkind => ?_,
    fun child hchild => ⟨fun key hkey => ?_, trivial⟩⟩
  · obtain rfl := List.mem_singleton.1 hkey
    obtain rfl := Option.some.inj hleaf
    obtain rfl := Option.some.inj hkind
    exact isKeyText_8080
  · cases hkey

/-- A write of something else than a flag is proper, and fails because of its value. The store is at
fault when a server is added with a port that is none, and when the host's name is deleted as if it
were one of several. -/
theorem set_error_code_server :
    (∃ e st', (serverStore none []).set 0 (.single .replace none ⟨newFlag, .json ⟨#[]⟩⟩)
      = (.error e, st') ∧ e.code ∈ [Code.invalidArgument, .notFound, .unimplemented]) ∧
    (∃ e st', (serverStore none []).set 0 (.single .replace none ⟨badFlag, .bool true⟩)
      = (.error e, st') ∧ e.code = .internal) ∧
    ∃ e st', (serverStore none []).set 0 (.deletion none keyedHost) = (.error e, st') ∧
      e.code = .internal := by
  refine ⟨⟨_, _, set_documentFlag, ?_⟩, ⟨_, _, set_badFlag, rfl⟩, ⟨_, _, set_keyedHost, rfl⟩⟩
  refine (set_error_code reachable_serverStore colonFree_serverSchema rfl set_documentFlag).2
    Json.Reader.readsBack_nearest fun edit hedit => ?_
  rw [SetRequest.edits_single] at hedit
  obtain rfl := List.mem_singleton.1 hedit
  exact proper_documentFlag _

end Store

end ConfigTree
