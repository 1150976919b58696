import ConfigTree.Proofs.Store.Reachable

/-!
# What a device has been shown

A transaction shows the device a candidate after each edit. If the device refuses one, it is shown
the committed tree again. If the transaction fails for any other reason, nothing more is shown, so
that the device stays at the last candidate that it has taken.

* `taken`: the candidates that the device takes in the course of a transaction.
* `shown_of_set_error`: all that a transaction that fails has shown the device, and when it is left
  at the committed tree.
* `device_left_ahead`: a transaction that fails and leaves the device at another tree.
-/

namespace ConfigTree

open ConfigTree.Tree (Object)

/-- Errors that come from what a device has answered. The others come from the request or from the
tree, and nothing is shown after them. -/
def StoreError.isRefusal : StoreError → Bool
  | .refused _ | .notRestored _ _ => true
  | _ => false

/-- Errors that tell a client that its request is at fault. -/
def StoreError.blamesRequest (e : StoreError) : Bool :=
  match e.code with
  | .invalidArgument | .notFound | .unimplemented => true
  | _ => false

theorem StoreError.isRefusal_of_blamesRequest {e : StoreError} (h : e.blamesRequest = true) :
    e.isRefusal = false := by
  cases e with
  | refused cause => cases h
  | notRestored refusal cause => cases h
  | _ => rfl

/-- What a change below a path gives comes from the function that makes the change. So an error in
it is one of that function, and the way there adds none of its own kind. -/
theorem Tree.exists_of_modifyAt {β : Type} {create : Bool} {f : Object → Schema.Node → β × Object}
    {elems : List Path.Elem} {members changed : Object} {n : Schema.Node} {out : β}
    (h : modifyAt create f elems members n = .ok (out, changed)) :
    ∃ members n, (f members n).1 = out := by
  induction elems generalizing members n changed with
  | nil => exact ⟨members, n, congrArg Prod.fst (Except.ok.inj h)⟩
  | cons e elems ih =>
    rw [modifyAt] at h
    split at h
    · cases h
    · cases h
    · split at h
      -- the result comes from below, and only the members change on the way up
      · obtain ⟨⟨out, inner⟩, hinner, heq⟩ := map_eq_ok_iff.1 h
        obtain ⟨rfl, -⟩ := Prod.mk.inj heq
        exact ih hinner
      · cases h

/-! ### Errors of edits -/

namespace Edit

variable {s : Schema} {r : Json.Reader} {tree : Object} {p : Path} {err : StoreError}

theorem deleteAt_error (h : deleteAt s p tree = .error err) : err.isRefusal = false := by
  unfold deleteAt at h
  split at h
  · cases h
  · dsimp only at h
    split at h
    · cases h
    · exact Except.error.inj h ▸ rfl
    · cases h
    · split at h
      · exact Except.error.inj h ▸ rfl
      · cases h

theorem payload_error {n : Schema.Node} {place : String} {value : TypedValue}
    (h : payload n place value = .error err) : err.blamesRequest = true := by
  unfold payload at h
  split at h
  · split at h
    · cases h
    · exact Except.error.inj h ▸ rfl
  · split at h
    · cases h
    · exact Except.error.inj h ▸ rfl

theorem dataAt_error {value : TypedValue} (h : dataAt s r p value = .error err) :
    err.blamesRequest = true := by
  unfold dataAt at h
  split at h
  · exact Except.error.inj h ▸ rfl
  · next n _ =>
    -- the value is written as text, read and checked, and each of these may fail
    rcases bind_eq_error_iff.1 h with htext | ⟨text, -, h⟩
    · exact payload_error htext
    rcases bind_eq_error_iff.1 h with hread | ⟨c, -, h⟩
    · obtain ⟨cause, -, rfl⟩ := mapError_eq_error_iff.1 hread
      rfl
    rcases bind_eq_error_iff.1 h with hvalid | ⟨_, -, h⟩
    · obtain ⟨cause, -, rfl⟩ := mapError_eq_error_iff.1 hvalid
      rfl
    · cases h

theorem entryMembers_error {mode : WriteMode} {list : Schema.Node} {e : Path.Elem} {place : String}
    {old new : Object} (h : entryMembers mode list e place old new = .error err) :
    err.blamesRequest = true := by
  unfold entryMembers at h
  split at h
  · exact Except.error.inj h ▸ rfl
  · cases h

theorem putEntry_error {mode : WriteMode} {list : Schema.Node} {e : Path.Elem} {place : String}
    {data : Json} {members : Object}
    (h : putEntry mode list e place data members = .error err) : err.isRefusal = false := by
  unfold putEntry at h
  split at h
  · exact Except.error.inj h ▸ rfl
  · exact Except.error.inj h ▸ rfl
  · split at h
    · exact StoreError.isRefusal_of_blamesRequest (entryMembers_error (map_eq_error_iff.1 h))
    · exact Except.error.inj h ▸ rfl
    · exact Except.error.inj h ▸ rfl

theorem putChild_error {mode : WriteMode} {e : Path.Elem} {place : String} {data : Json}
    {members : Object} {n : Schema.Node} (h : putChild mode e place data members n = .error err) :
    err.isRefusal = false := by
  unfold putChild at h
  split at h
  · split at h
    · exact Except.error.inj h ▸ rfl
    · exact putEntry_error h
  · cases h

theorem obstacleError_isRefusal (place : String) (o : Tree.Obstacle) :
    (obstacleError place o).isRefusal = false := by
  unfold obstacleError
  split <;> rfl

theorem putAt_error {mode : WriteMode} {data : Json}
    (h : putAt s mode p data tree = .error err) : err.isRefusal = false := by
  unfold putAt at h
  split at h
  · split at h
    · cases h
    · exact Except.error.inj h ▸ rfl
  · dsimp only at h
    split at h
    -- the path is blocked, or the change at its end has failed
    · exact Except.error.inj h ▸ obstacleError_isRefusal _ _
    · next e changed hmodify =>
      obtain ⟨members, n, hput⟩ := Tree.exists_of_modifyAt hmodify
      split at hput
      · cases hput
      · next herr =>
        obtain rfl := Except.error.inj hput
        exact Except.error.inj h ▸ putChild_error herr
    · cases h

/-- **No edit fails with an error that only a device gives.** An edit never asks the device. So the
kind of the error tells at which point a transaction has stopped. -/
theorem apply_error {e : Edit} (h : e.apply s r tree = .error err) : err.isRefusal = false := by
  cases e with
  | delete p => exact deleteAt_error h
  | write mode p value =>
    have hwrite : writeAt s r mode p value tree = .error err := map_eq_error_iff.1 h
    unfold writeAt at hwrite
    split at hwrite
    · exact Except.error.inj hwrite ▸ rfl
    · rcases bind_eq_error_iff.1 hwrite with hdata | ⟨data, -, hput⟩
      · exact StoreError.isRefusal_of_blamesRequest (dataAt_error hdata)
      · exact putAt_error hput

end Edit

namespace Store

variable {st st' : Store} {e : StoreError}

/-! ### One candidate -/

theorem isRefusal_of_rederive {s : Schema} {r : Json.Reader} {tree : Json}
    (h : rederive s r tree = .error e) : e.isRefusal = false := by
  obtain ⟨cause, -, rfl⟩ := mapError_eq_error_iff.1 h
  rfl

variable {d : Device} {candidate : Object} {shown : List Subtree} {c : Subtree}

theorem offer_of_error (hc : rederive st.schema st.reader (.obj candidate) = .error e) :
    st.offer candidate shown = (.error e, shown) := by
  simp only [offer, hc]

theorem offer_of_none (hd : st.device = none)
    (hc : rederive st.schema st.reader (.obj candidate) = .ok c) :
    st.offer candidate shown = (.ok (), shown) := by
  simp only [offer, hc, hd]

theorem offer_of_answer (hd : st.device = some d)
    (hc : rederive st.schema st.reader (.obj candidate) = .ok c) (ha : d.answer shown c = .ok ()) :
    st.offer candidate shown = (.ok (), shown ++ [c]) := by
  simp only [offer, hc, hd, Device.offer, ha]

/-- A device that refuses a candidate is shown the committed tree again. -/
theorem offer_of_refusal {refusal : DeviceError} (hd : st.device = some d)
    (hc : rederive st.schema st.reader (.obj candidate) = .ok c)
    (ha : d.answer shown c = .error refusal) : ∃ e, e.isRefusal = true ∧
      st.offer candidate shown = (.error e, shown ++ [c] ++ [Subtree.root st.tree]) := by
  simp only [offer, hc, hd, Device.offer, ha]
  cases d.answer (shown ++ [c]) (Subtree.root st.tree) with
  | ok u => exact ⟨.refused refusal, rfl, rfl⟩
  | error cause => exact ⟨.notRestored refusal cause, rfl, rfl⟩

/-! ### The end of a request -/

section

variable {now : Int64} {q : SetRequest} {w : Object} {shown' : List Subtree}

theorem set_of_runEdits_error (hp : st.poisoned = false)
    (hrun : st.runEdits q.edits st.members st.shown = (.error e, shown')) :
    st.set now q = (.error e, { st with shown := shown' }) := by
  simp only [set, hp, Bool.false_eq_true, if_false, hrun]

theorem set_of_rederive_error (hp : st.poisoned = false)
    (hrun : st.runEdits q.edits st.members st.shown = (.ok w, shown'))
    (hc : rederive st.schema st.reader (.obj w) = .error e) :
    st.set now q = (.error e, { st with shown := shown' }) := by
  simp only [set, hp, Bool.false_eq_true, if_false, hrun, commit, hc]

/-- A request whose edits have succeeded commits what is read from the working copy. -/
theorem set_of_rederive (hp : st.poisoned = false)
    (hrun : st.runEdits q.edits st.members st.shown = (.ok w, shown'))
    (hc : rederive st.schema st.reader (.obj w) = .ok c) :
    st.set now q =
      (.ok ⟨q.base, q.results, now⟩, { st with shown := shown', tree := c.data }) := by
  simp only [set, hp, Bool.false_eq_true, if_false, hrun, commit, hc]

end

/-! ### Candidates that are taken -/

/-- The candidates that the device takes while edits are applied in turn, up to the first one that
is refused or cannot be made. It follows the run of the edits but knows nothing of rollback, which
is what the results below add to it. -/
def takenFrom (st : Store) : List Edit → Object → List Subtree → List Subtree
  | [], _, _ => []
  | e :: rest, working, shown =>
    match e.apply st.schema st.reader working with
    | .error _ => []
    | .ok (false, working) => takenFrom st rest working shown
    | .ok (true, working) =>
      match rederive st.schema st.reader (.obj working), st.device with
      | .error _, _ => []
      | .ok _, none => takenFrom st rest working shown
      | .ok c, some d =>
        match d.answer shown c with
        | .ok () => c :: takenFrom st rest working (shown ++ [c])
        | .error _ => []

/-- The candidates that the device takes in the course of a request. -/
def taken (st : Store) (q : SetRequest) : List Subtree :=
  if st.poisoned then [] else st.takenFrom q.edits st.members st.shown

/-- What has been shown at the end of some edits, given what the device has taken and how they
ended: after a refusal, also the candidate that was refused and the committed tree. After any other
error there is nothing to take the device back. -/
def ShownAfter (st : Store) (shown taken shown' : List Subtree) (out : Except StoreError Object) :
    Prop :=
  (∀ e, out = .error e → e.isRefusal = false) ∧ shown' = shown ++ taken ∨
    (∃ e, out = .error e ∧ e.isRefusal = true) ∧
      ∃ c, shown' = shown ++ taken ++ [c, Subtree.root st.tree]

theorem shownAfter_cons {shown taken shown' : List Subtree} {out : Except StoreError Object}
    (c : Subtree) (h : st.ShownAfter (shown ++ [c]) taken shown' out) :
    st.ShownAfter shown (c :: taken) shown' out := by
  rcases h with ⟨hout, hshown⟩ | ⟨hout, c', hshown⟩
  · exact .inl ⟨hout, by rw [hshown, List.append_assoc, List.singleton_append]⟩
  · exact .inr ⟨hout, c', by rw [hshown, List.append_assoc shown, List.singleton_append]⟩

/-- **What edits show a device**: the candidates that it takes, and after a refusal the committed
tree. -/
theorem shownAfter_runEdits (edits : List Edit) (working : Object) (shown : List Subtree) :
    st.ShownAfter shown (st.takenFrom edits working shown)
      (st.runEdits edits working shown).2 (st.runEdits edits working shown).1 := by
  -- on the edits, for any working copy and anything that has been shown before: each edit that is
  -- taken adds to both
  induction edits generalizing working shown with
  | nil => exact .inl ⟨fun _ h => (nomatch h), (List.append_nil _).symm⟩
  | cons edit rest ih =>
    -- an error that is no refusal stops the run, and nothing more is shown
    have hstop : ∀ {e : StoreError}, e.isRefusal = false →
        st.ShownAfter shown [] shown (.error e) := fun he =>
      .inl ⟨fun _ h => Except.error.inj h ▸ he, (List.append_nil _).symm⟩
    rw [runEdits, takenFrom]
    cases happly : edit.apply st.schema st.reader working with
    | error e => exact hstop (Edit.apply_error happly)
    | ok changed =>
      obtain ⟨flag, changed⟩ := changed
      cases flag with
      | false => exact ih changed shown
      | true =>
        cases hc : rederive st.schema st.reader (.obj changed) with
        | error e =>
          simp only [hc, offer_of_error hc]
          exact hstop (isRefusal_of_rederive hc)
        | ok c =>
          cases hd : st.device with
          | none =>
            -- without a device nothing is shown
            simp only [hc, offer_of_none hd hc]
            exact ih changed shown
          | some d =>
            cases hanswer : d.answer shown c with
            | ok u =>
              simp only [hc, hanswer, offer_of_answer hd hc hanswer]
              exact shownAfter_cons c (ih changed (shown ++ [c]))
            | error refusal =>
              obtain ⟨e, he, hoffer⟩ := offer_of_refusal hd hc hanswer
              simp only [hc, hanswer, hoffer]
              exact .inr ⟨⟨e, rfl, he⟩, c, by simp⟩

/-- A request that fails leaves the store as the last candidate has left it. The commit at the end
may fail too, and that is no refusal: the device is not asked then. -/
theorem shownAfter_set {now : Int64} {q : SetRequest} (h : st.set now q = (.error e, st')) :
    st.ShownAfter st.shown (st.taken q) st'.shown (.error e) := by
  unfold set at h
  split at h
  · next hp =>
    obtain ⟨he, rfl⟩ := Prod.mk.inj h
    rw [taken, if_pos hp, ← Except.error.inj he]
    exact .inl ⟨fun _ h => Except.error.inj h ▸ rfl, (List.append_nil _).symm⟩
  · next hp =>
    -- the edits fail, or they succeed and then the commit fails
    have hrun := st.shownAfter_runEdits q.edits st.members st.shown
    rw [taken, if_neg hp]
    split at h
    · next e' shown' heq =>
      obtain ⟨he, rfl⟩ := Prod.mk.inj h
      rw [heq, Except.error.inj he] at hrun
      exact hrun
    · next working shown' heq =>
      rw [heq] at hrun
      rcases hrun with ⟨-, hshown⟩ | ⟨⟨_, hout, -⟩, -⟩
      · split at h
        · next e' st'' hcommit =>
          obtain ⟨he, rfl⟩ := Prod.mk.inj h
          unfold commit at hcommit
          split at hcommit
          · next herror =>
            obtain ⟨he', rfl⟩ := Prod.mk.inj hcommit
            refine .inl ⟨fun _ h => ?_, hshown⟩
            rw [← Except.error.inj h, ← Except.error.inj he, ← Except.error.inj he']
            exact isRefusal_of_rederive herror
          · cases (Prod.mk.inj hcommit).1
        · cases (Prod.mk.inj h).1
      · cases hout

/-- **When a failed request leaves the device at the committed tree.** What it has shown the device
are the candidates that were taken and, only if a refusal is what made it fail, the candidate that
was refused and then the committed tree. So it ends with the committed tree, or is nothing, just if
it failed by a refusal, if no candidate was taken, or if the last one that was taken is the
committed tree itself. -/
theorem shown_of_set_error {now : Int64} {q : SetRequest} (h : st.set now q = (.error e, st')) :
    ∃ log, st'.shown = st.shown ++ log ∧
      (e.isRefusal = false → log = st.taken q) ∧
      (e.isRefusal = true → ∃ c, log = st.taken q ++ [c, Subtree.root st.tree]) ∧
      ((log = [] ∨ log.getLast? = some (Subtree.root st.tree)) ↔
        e.isRefusal = true ∨ st.taken q = [] ∨
          (st.taken q).getLast? = some (Subtree.root st.tree)) := by
  rcases shownAfter_set h with ⟨he, hshown⟩ | ⟨⟨e', heq, he⟩, c, hshown⟩
  · refine ⟨st.taken q, hshown, fun _ => rfl, ?_, ?_⟩
    · intro hrefusal
      cases hrefusal.symm.trans (he e rfl)
    · simp [he e rfl]
  -- after a refusal the committed tree has been shown last
  · obtain rfl := Except.error.inj heq
    refine ⟨st.taken q ++ [c, Subtree.root st.tree], ?_, ?_, fun _ => ⟨c, rfl⟩, ?_⟩
    · rw [hshown, List.append_assoc]
    · intro hrefusal
      cases he.symm.trans hrefusal
    · simp [he]

/-! ### A device that is left ahead -/

/-- Deletes the host's name and then writes a node that the schema does not have. -/
def brokenRequest : SetRequest where
  base := none
  deletes := [Path.ofElems [Path.Elem.plain "host"]]
  replaces := [⟨Path.ofElems [Path.Elem.plain "port"], .uint 80⟩]
  updates := []

/-- The tree without the host's name. -/
def namelessTree : Json :=
  .obj [("server", .arr [.obj [("enabled", .bool true), ("port", .num (.ofUInt64 80))]])]

/-- A store of the host whose device takes every configuration. -/
def deviceStore : Store := serverStore (some .accepting) [Subtree.root serverTree]

theorem reachable_deviceStore : Reachable deviceStore := by
  have hnew : Store.new serverSchema .nearest (some .accepting) (some serverTree.bytes)
      = (.ok deviceStore, [Subtree.root serverTree]) := by
    simp only [Store.new, readConfig_serverTree]
    rfl
  exact .new loaded_serverSchema hnew

theorem rederive_namelessTree :
    rederive serverSchema .nearest namelessTree = .ok (Subtree.root namelessTree) := by
  have hconform : serverSchema.root.conform "/" false namelessTree = .ok namelessTree := rfl
  have hvalid : serverSchema.root.validate "/" false namelessTree = .ok () := rfl
  exact Schema.rederive_of_stands loaded_serverSchema colonFree_serverSchema
    Json.Reader.readsBack_nearest
    (Schema.Node.stands_of_conform colonFree_serverSchema hconform hvalid)

theorem set_brokenRequest : deviceStore.set 0 brokenRequest = (.error (.noSchemaNode "/port"),
    { deviceStore with shown := [Subtree.root serverTree, Subtree.root namelessTree] }) := by
  have hedits : brokenRequest.edits = [.delete (Path.ofElems [Path.Elem.plain "host"]),
      .write .replace (Path.ofElems [Path.Elem.plain "port"]) (.uint 80)] := rfl
  have hdelete : (Edit.delete (Path.ofElems [Path.Elem.plain "host"])).apply deviceStore.schema
      deviceStore.reader deviceStore.members = .ok (true, namelessTree.obj?.getD []) := rfl
  have hwrite : (Edit.write .replace (Path.ofElems [Path.Elem.plain "port"]) (.uint 80)).apply
      deviceStore.schema deviceStore.reader (namelessTree.obj?.getD [])
        = .error (.noSchemaNode "/port") := rfl
  -- the first edit was accepted by the device before the second one failed, and nothing is shown
  -- after it
  have hoffer : deviceStore.offer (namelessTree.obj?.getD []) deviceStore.shown
      = (.ok (), [Subtree.root serverTree, Subtree.root namelessTree]) :=
    offer_of_answer rfl rederive_namelessTree rfl
  have hpoisoned : deviceStore.poisoned = false := rfl
  simp only [set, hpoisoned, Bool.false_eq_true, if_false, hedits, runEdits, hdelete, hoffer,
    hwrite]

/-- The request fails, though not by a refusal, and the device keeps the tree without the name. -/
theorem device_left_ahead : Reachable deviceStore ∧ ∃ st' log,
    deviceStore.set 0 brokenRequest = (.error (.noSchemaNode "/port"), st') ∧
      st'.shown = deviceStore.shown ++ log ∧ log = deviceStore.taken brokenRequest ∧
      ¬ (log = [] ∨ log.getLast? = some (Subtree.root deviceStore.tree)) := by
  obtain ⟨log, hshown, htaken, -, -⟩ := shown_of_set_error set_brokenRequest
  have hlog : log = [Subtree.root namelessTree] := (List.cons.inj hshown).2.symm
  refine ⟨reachable_deviceStore, _, log, set_brokenRequest, hshown, htaken rfl, ?_⟩
  have hne : Subtree.root namelessTree ≠ Subtree.root deviceStore.tree := fun heq =>
    absurd (congrArg Subtree.data heq) (by decide)
  simpa [hlog] using hne

end Store

end ConfigTree
