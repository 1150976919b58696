import ConfigTree.Proofs.Store.Shown
import ConfigTree.Proofs.Store.Edit

/-!
# What a device has seen last

Each candidate that a transaction shows the device is read from its own text as it is, and so is the
working copy that it is made from. So the commit at the end comes to the candidate that the device
has taken last. A deletion that is not shown has changed nothing, so if nothing has been shown the
committed tree is as before.

* `Configuration`: a document that is valid and is read as itself.
* `Refused`: how a log ends when the device refuses a candidate.
* `logged_runEdits`: what edits show the device, as it depends on how they end.
* `last_shown_of_set`: the same for a request, against the tree that it leaves.
-/

namespace ConfigTree

open ConfigTree.Tree (Object)

namespace Store

variable {st st' : Store} {d : Device} {c : Subtree} {working : Object}
  {shown log : List Subtree} {out : Except StoreError Object}

/-! ### Logs -/

/-- A document of the whole tree that is valid, and is what is read from its text. Its place is the
root: a device is always shown the whole tree. -/
structure Configuration (st : Store) (c : Subtree) : Prop where
  root : c = Subtree.root c.data
  valid : st.schema.validate c = .ok ()
  read : rederive st.schema st.reader c.data = .ok c

/-- A log ends with a candidate that the device refuses and then the committed tree. The error tells
whether the device has taken that one. What the device answers may depend on all that it has been
shown, hence the logs in its questions. -/
def Refused (st : Store) (d : Device) (shown log : List Subtree) (e : StoreError) : Prop :=
  ∃ front candidate refusal, log = front ++ [candidate, Subtree.root st.tree] ∧
    d.answer (shown ++ front) candidate = .error refusal ∧
    (d.answer (shown ++ front ++ [candidate]) (Subtree.root st.tree) = .ok () ∧
        e = .refused refusal ∨
      ∃ cause, d.answer (shown ++ front ++ [candidate]) (Subtree.root st.tree) = .error cause ∧
        e = .notRestored refusal cause)

/-- What a run of edits has shown the device, as it depends on the copy that it has begun with and
on how it has ended. -/
structure Logged (st : Store) (d : Device) (working : Object) (shown log : List Subtree)
    (out : Except StoreError Object) : Prop where
  configurations : ∀ c ∈ log, st.Configuration c
  /-- If nothing has been shown, nothing has changed. -/
  unchanged : log = [] → ∀ w, out = .ok w → w = working
  /-- The last one is what the copy at the end stands for. -/
  last : ∀ c, log.getLast? = some c → ∀ w, out = .ok w →
    rederive st.schema st.reader (.obj w) = .ok c
  refused : ∀ e, out = .error e → e.isRefusal = true → st.Refused d shown log e

/-- What is read from a tree is read again from itself. So a candidate can be shown, and committed
later, without being read once more in between. -/
theorem configuration_of_rederive (hs : st.schema.Loaded) (hfree : st.schema.ColonFree)
    (hr : st.reader.ReadsBack) {tree : Json} (h : rederive st.schema st.reader tree = .ok c) :
    st.Configuration c := by
  have hstands := Schema.stands_of_rederive hfree h
  have hroot : c = Subtree.root c.data := by
    obtain ⟨_, _, -, -, -, rfl⟩ := Schema.readConfig_eq_ok_iff.1 (mapError_eq_ok_iff.1 h)
    rfl
  refine ⟨hroot, ?_, ?_⟩
  · rw [hroot]
    exact hstands.validate _
  · rw [Schema.rederive_of_stands hs hfree hr hstands, ← hroot]

/-- The committed tree is one that the device may be shown. -/
theorem Reachable.configuration (h : Reachable st) (hfree : st.schema.ColonFree)
    (hr : st.reader.ReadsBack) : st.Configuration (Subtree.root st.tree) := by
  have hinv := h.invariant
  have hstands := hinv.stands hfree
  exact ⟨rfl, hstands.validate _, Schema.rederive_of_stands hinv.loaded hfree hr hstands⟩

/-- So a transaction that has changed nothing commits the tree that there was. -/
theorem Reachable.rederive_members (h : Reachable st) (hfree : st.schema.ColonFree)
    (hr : st.reader.ReadsBack) :
    rederive st.schema st.reader (.obj st.members) = .ok (Subtree.root st.tree) := by
  rw [← h.tree_eq hfree]
  exact (h.configuration hfree hr).read

theorem Refused.cons {e : StoreError} (h : st.Refused d (shown ++ [c]) log e) :
    st.Refused d shown (c :: log) e := by
  obtain ⟨front, candidate, refusal, rfl, hanswer, hend⟩ := h
  rw [List.append_assoc shown, List.singleton_append] at hanswer hend
  exact ⟨c :: front, candidate, refusal, rfl, hanswer, hend⟩

/-! ### Runs of edits -/

/-- A run that shows nothing leaves the copy as it is, or fails without a refusal. -/
theorem logged_nil (hsame : ∀ w, out = .ok w → w = working)
    (herror : ∀ e, out = .error e → e.isRefusal = false) : st.Logged d working shown [] out where
  configurations c hc := absurd hc List.not_mem_nil
  unchanged _ := hsame
  last c hlast := by cases hlast
  refused e he hrefusal := absurd ((herror e he).symm.trans hrefusal) Bool.false_ne_true

theorem logged_of_error {e : StoreError} (h : e.isRefusal = false) :
    st.Logged d working shown [] (.error e) :=
  logged_nil (fun w hw => by cases hw) fun _ he => Except.error.inj he ▸ h

/-- An edit that the device has taken comes before what is shown after it. If nothing is shown after
it, then nothing has changed after it either, and so the candidate is still what the copy stands
for. -/
theorem Logged.cons {changed : Object} (hc : st.Configuration c)
    (hread : rederive st.schema st.reader (.obj changed) = .ok c)
    (h : st.Logged d changed (shown ++ [c]) log out) :
    st.Logged d working shown (c :: log) out where
  configurations := List.forall_mem_cons.2 ⟨hc, h.configurations⟩
  unchanged hnil := by cases hnil
  last c' hlast w hw := by
    cases log with
    | nil =>
      -- nothing has been shown after it, so the copy is still the one that it has made
      rw [h.unchanged rfl w hw, hread]
      exact congrArg _ (Option.some.inj hlast)
    | cons c'' log => exact h.last c' hlast w hw
  refused e he hrefusal := (h.refused e he hrefusal).cons

/-- A candidate that is refused ends the run, with the committed tree shown last. Nothing is said of
the copy then, because the request will fail. -/
theorem logged_of_refusal {refusal : DeviceError} (hd : st.device = some d)
    (hc : rederive st.schema st.reader (.obj working) = .ok c) (hconfig : st.Configuration c)
    (hcommitted : st.Configuration (Subtree.root st.tree))
    (ha : d.answer shown c = .error refusal) : ∃ e,
      st.offer working shown = (.error e, shown ++ [c, Subtree.root st.tree]) ∧
      ∀ working, st.Logged d working shown [c, Subtree.root st.tree] (.error e) := by
  have hrefused : ∀ e, st.Refused d shown [c, Subtree.root st.tree] e → ∀ working,
      st.Logged d working shown [c, Subtree.root st.tree] (.error e) := fun e he working =>
    { configurations := by simp [hconfig, hcommitted]
      unchanged := fun hnil => by cases hnil
      last := fun _ _ w hw => by cases hw
      refused := fun e' he' _ => Except.error.inj he' ▸ he }
  simp only [offer, hc, hd, Device.offer, ha]
  -- the device is shown the committed tree, and may refuse that one too
  cases hanswer : d.answer (shown ++ [c]) (Subtree.root st.tree) with
  | ok u =>
    refine ⟨.refused refusal, by simp, hrefused _ ⟨[], c, refusal, rfl, ?_, .inl ⟨?_, rfl⟩⟩⟩
    · rw [List.append_nil, ha]
    · rw [List.append_nil, hanswer]
  | error cause =>
    refine ⟨.notRestored refusal cause, by simp,
      hrefused _ ⟨[], c, refusal, rfl, ?_, .inr ⟨cause, ?_, rfl⟩⟩⟩
    · rw [List.append_nil, ha]
    · rw [List.append_nil, hanswer]

/-- **What a run of edits shows the device**, as it depends on how the run ends. -/
theorem logged_runEdits (hs : st.schema.Loaded) (hfree : st.schema.ColonFree)
    (hr : st.reader.ReadsBack) (hd : st.device = some d)
    (hcommitted : st.Configuration (Subtree.root st.tree)) (edits : List Edit) (working : Object)
    (shown : List Subtree) : ∃ log, (st.runEdits edits working shown).2 = shown ++ log ∧
      st.Logged d working shown log (st.runEdits edits working shown).1 := by
  -- on the edits, for any copy and anything that has been shown before
  induction edits generalizing working shown with
  | nil =>
    exact ⟨[], (List.append_nil _).symm,
      logged_nil (fun w hw => (Except.ok.inj hw).symm) fun e he => by cases he⟩
  | cons edit rest ih =>
    rw [runEdits]
    cases happly : edit.apply st.schema st.reader working with
    | error e =>
      -- an error that is no refusal stops the run before anything is shown
      exact ⟨[], (List.append_nil _).symm, logged_of_error (Edit.apply_error happly)⟩
    | ok changed =>
      obtain ⟨flag, changed⟩ := changed
      cases flag with
      | false =>
        -- what the device need not see has changed nothing
        obtain rfl := Edit.eq_of_apply_false happly
        exact ih changed shown
      | true =>
        cases hc : rederive st.schema st.reader (.obj changed) with
        | error e =>
          simp only [offer_of_error hc]
          exact ⟨[], (List.append_nil _).symm, logged_of_error (isRefusal_of_rederive hc)⟩
        | ok c =>
          have hconfig := configuration_of_rederive hs hfree hr hc
          cases hanswer : d.answer shown c with
          | ok u =>
            simp only [offer_of_answer hd hc hanswer]
            obtain ⟨log, hshown, hlog⟩ := ih changed (shown ++ [c])
            exact ⟨c :: log, by rw [hshown, List.append_assoc, List.singleton_append],
              hlog.cons hconfig hc⟩
          | error refusal =>
            obtain ⟨e, hoffer, hlog⟩ := logged_of_refusal hd hc hconfig hcommitted hanswer
            simp only [hoffer]
            exact ⟨_, rfl, hlog working⟩

/-! ### Requests -/

/-- **What the device has seen last is what the store holds.** In a reachable store with a device,
all that a request shows the device are valid documents that are read as themselves. If the request
succeeds, the last of them is the tree that is committed then; if there is none, the committed tree
is as before. If the request fails since the device refuses, the last two are the candidate that it
has refused and the tree that was committed before and still is. -/
theorem last_shown_of_set (h : Reachable st) (hfree : st.schema.ColonFree)
    (hr : st.reader.ReadsBack) (hd : st.device = some d) {now : Int64} {q : SetRequest}
    {result : Except StoreError SetResponse} (hset : st.set now q = (result, st')) :
    ∃ log, st'.shown = st.shown ++ log ∧ (∀ c ∈ log, st.Configuration c) ∧
      (∀ resp, result = .ok resp → (log = [] → st'.tree = st.tree) ∧
        (log ≠ [] → log.getLast? = some (Subtree.root st'.tree))) ∧
      ∀ e, result = .error e → e.isRefusal = true →
        st.Refused d st.shown log e ∧ st'.tree = st.tree := by
  have hinv := h.invariant
  have hcommitted := h.configuration hfree hr
  obtain ⟨log, hshown, hlog⟩ := logged_runEdits hinv.loaded hfree hr hd hcommitted q.edits
    st.members st.shown
  cases hrun : st.runEdits q.edits st.members st.shown with | mk out shown' =>
  rw [hrun] at hshown hlog
  dsimp only at hshown hlog
  cases out with
  | error e =>
    rw [set_of_runEdits_error hinv.poisoned hrun] at hset
    obtain ⟨rfl, rfl⟩ := Prod.mk.inj hset
    refine ⟨log, hshown, hlog.configurations, fun resp hresp => (by cases hresp), ?_⟩
    exact fun e' he' hrefusal => ⟨hlog.refused e' (congrArg _ (Except.error.inj he')) hrefusal, rfl⟩
  | ok w =>
    cases hc : rederive st.schema st.reader (.obj w) with
    | error e =>
      rw [set_of_rederive_error hinv.poisoned hrun hc] at hset
      obtain ⟨rfl, rfl⟩ := Prod.mk.inj hset
      refine ⟨log, hshown, hlog.configurations, fun resp hresp => (by cases hresp), ?_⟩
      -- a tree that is not read is no refusal
      intro e' he' hrefusal
      rw [← Except.error.inj he', isRefusal_of_rederive hc] at hrefusal
      cases hrefusal
    | ok c =>
      rw [set_of_rederive hinv.poisoned hrun hc] at hset
      obtain ⟨rfl, rfl⟩ := Prod.mk.inj hset
      refine ⟨log, hshown, hlog.configurations, fun _ _ => ⟨fun hnil => ?_, fun hne => ?_⟩,
        fun e he => by cases he⟩
      · rw [hlog.unchanged hnil w rfl, h.rederive_members hfree hr] at hc
        exact congrArg Subtree.data (Except.ok.inj hc).symm
      · -- the copy is read once more, as what the device has taken last
        obtain ⟨c', hlast⟩ := Option.isSome_iff_exists.1 (List.getLast?_isSome.2 hne)
        have hread := hlog.last c' hlast w rfl
        obtain rfl := Except.ok.inj (hc.symm.trans hread)
        have hroot := (hlog.configurations c (List.mem_of_getLast? hlast)).root
        rw [hlast]
        exact congrArg some hroot

/-! ### A name that is deleted -/

/-- Deletes the host's name. -/
def namelessRequest : SetRequest where
  base := none
  deletes := [Path.ofElems [Path.Elem.plain "host"]]
  replaces := []
  updates := []

theorem set_namelessRequest : ∃ resp, deviceStore.set 0 namelessRequest = (.ok resp,
    { deviceStore with
      shown := [Subtree.root serverTree, Subtree.root namelessTree], tree := namelessTree }) := by
  have hedits : namelessRequest.edits = [.delete (Path.ofElems [Path.Elem.plain "host"])] := rfl
  have hdelete : (Edit.delete (Path.ofElems [Path.Elem.plain "host"])).apply deviceStore.schema
      deviceStore.reader deviceStore.members = .ok (true, namelessTree.obj?.getD []) := rfl
  have hoffer : deviceStore.offer (namelessTree.obj?.getD []) deviceStore.shown
      = (.ok (), [Subtree.root serverTree, Subtree.root namelessTree]) :=
    offer_of_answer rfl rederive_namelessTree rfl
  have hrun : deviceStore.runEdits namelessRequest.edits deviceStore.members deviceStore.shown
      = (.ok (namelessTree.obj?.getD []),
        [Subtree.root serverTree, Subtree.root namelessTree]) := by
    simp only [hedits, runEdits, hdelete, hoffer]
  exact ⟨_, set_of_rederive rfl hrun rederive_namelessTree⟩

/-- The device sees the tree without the name last, and that one is committed. -/
theorem shown_namelessRequest : ∃ resp st', deviceStore.set 0 namelessRequest = (.ok resp, st') ∧
    st'.shown.getLast? = some (Subtree.root st'.tree) ∧ st'.tree = namelessTree := by
  obtain ⟨resp, hset⟩ := set_namelessRequest
  obtain ⟨log, hshown, -, hok, -⟩ := last_shown_of_set reachable_deviceStore
    colonFree_serverSchema Json.Reader.readsBack_nearest rfl hset
  obtain ⟨-, hlast⟩ := hok resp rfl
  refine ⟨resp, _, hset, ?_, rfl⟩
  have hlog : log = [Subtree.root namelessTree] := (List.cons.inj hshown).2.symm
  rw [hshown, List.getLast?_append, hlast (hlog ▸ List.cons_ne_nil _ _)]
  rfl

end Store

end ConfigTree
