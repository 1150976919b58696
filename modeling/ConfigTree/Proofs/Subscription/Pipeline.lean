import ConfigTree.Subscription.Once

/-!
# Safety of the pipeline

What is true of a pipeline's state in whatever order the parties take their steps.

* `Pipeline.Step`: what a step can do, with `Pipeline.step_of_step?` from `Pipeline.step?`.
* `Pipeline.Room`, `Pipeline.Flow`, `Pipeline.Told`: the invariants. Every task has room for its
  report; what is delivered, held, queued and still to come is the job's responses; and the first
  report is the verdict, which is a success only after everything was delivered.
* `Pipeline.Reachable.safe`: what they say of a reachable state.
* `Pipeline.Step.ahead_lt`, `exists_next?`: every order of steps ends, and none ends without an
  outcome. So `Subscription.once` has an outcome of a reachable state (`exists_reachable_once`).

`Flow` needs that every report finds room, and `Told` needs both, so the three are proved together.
`step?` is opened once, for `step_of_step?`; each invariant is then shown of each step by its name.
-/

namespace ConfigTree.Subscription

/-- The tree has to be read, and cannot be. A job that leaves out the notification does not read it,
and so does not fail in this way. -/
def Job.Fails (j : Job) : Prop := j.updatesOnly = false ∧ ∃ e, j.snapshot = .error e

theorem Job.Fails.responses {j : Job} (h : j.Fails) : j.responses = [] := by
  obtain ⟨honly, e, hread⟩ := h
  simp [Job.responses, honly, hread]

/-- Unless the tree cannot be read, there is something to deliver: the marker at least. -/
theorem Job.fails_of_responses_nil {j : Job} (h : j.responses = []) : j.Fails := by
  unfold Job.responses at h
  split at h
  · cases h
  · next honly =>
    split at h
    · cases h
    · next e hread => exact ⟨Bool.eq_false_iff.mpr honly, e, hread⟩

namespace Pipeline

variable {j : Job} {st st' : State} {receiving : Bool}

/-! ### Steps -/

/-- What a step can do. Each constructor is one thing that some party does, with the guard under
which it does it, so what is kept by the steps is shown by cases on these and the definition of
`step?` is opened only once. -/
inductive Step (j : Job) (st : State) : State → Prop where
  | queued {n : Notification} : st.producer = .reads → j.snapshot = .ok n →
      st.consumer.isOpen = true →
      Step j st { st with queue := st.queue ++ [.update n], producer := .marks }
  | failed {e : SubscriptionError} : st.producer = .reads → j.snapshot = .error e →
      Step j st { st.report (.error e) with producer := .closes }
  | marked : st.producer = .marks → st.consumer.isOpen = true →
      Step j st { st with queue := st.queue ++ [.sync true], producer := .closes }
  /-- The producer finds the consumer gone. -/
  | left : (st.producer = .reads → ∃ n, j.snapshot = .ok n) →
      st.producer = .reads ∨ st.producer = .marks → st.consumer.isOpen = false →
      Step j st { st with producer := .closes }
  | closed : st.producer = .closes → Step j st { st with producer := .done }
  | took {response : SubscribeResponse} {rest : List SubscribeResponse} : st.consumer = .takes →
      st.queue = response :: rest → Step j st { st with queue := rest, consumer := .sends response }
  | drained : st.consumer = .takes → st.queue = [] → st.producer = .done →
      Step j st { st with consumer := .reports (.ok ()) }
  | sent {response : SubscribeResponse} : st.consumer = .sends response → st.receiving = true →
      Step j st { st with delivered := st.delivered ++ [response], consumer := .takes }
  /-- The consumer finds the caller gone, in sending or before it. -/
  | unheard : st.consumer.isOpen = true → st.receiving = false →
      Step j st { st with consumer := .reports (.error .cancelled) }
  | reported {outcome : Outcome} : st.consumer = .reports outcome →
      Step j st { st.report outcome with consumer := .done }
  | expired : st.watching = true →
      Step j st { st.report (.error (.timeout j.timeout)) with watching := false }
  | retired : st.watching = true → st.consumer = .done → Step j st { st with watching := false }
  | settled {outcome : Outcome} {rest : List Outcome} : st.outcome = none →
      st.reports = outcome :: rest →
      Step j st { st with reports := rest, outcome := some outcome }
  /-- All tasks are gone without a report. -/
  | ended : st.outcome = none → st.reports = [] → st.consumer = .done →
      Step j st { st with outcome := some (.ok ()) }
  | stoppedConsumer : st.outcome.isSome = true → st.consumer = .takes →
      Step j st { st with consumer := .done }
  | stoppedWatchdog : st.outcome.isSome = true → st.watching = true →
      Step j st { st with watching := false }
  | hungUp : st.receiving = true → Step j st { st with receiving := false }

theorem Consumer.isOpen_of_isWaiting {c : Consumer} (h : c.isWaiting = true) : c.isOpen = true := by
  cases c <;> first | rfl | cases h

theorem Consumer.eq_takes {c : Consumer} (h : c.isWaiting = true) : c = .takes := by
  cases c <;> first | rfl | cases h

theorem Consumer.eq_done {c : Consumer} (h : c.isDone = true) : c = .done := by
  cases c <;> first | rfl | cases h

theorem step_of_produce? (h : produce? j st = some st') : Step j st st' := by
  unfold produce? at h
  split at h
  · next hreads =>
    split at h
    · next n hread =>
      obtain rfl := Option.some.inj h
      -- a closed channel takes nothing: the sender gives up then, whichever message it had
      unfold State.enqueue
      split
      · next hopen => exact .queued hreads hread hopen
      · next hopen => exact .left (fun _ => ⟨n, hread⟩) (.inl hreads) (Bool.eq_false_iff.mpr hopen)
    · next e hread =>
      obtain rfl := Option.some.inj h
      exact .failed hreads hread
  · next hmarks =>
    obtain rfl := Option.some.inj h
    unfold State.enqueue
    split
    · next hopen => exact .marked hmarks hopen
    · next hopen =>
      have hnot : st.producer = .reads → ∃ n, j.snapshot = .ok n := fun hreads => by
        rw [hmarks] at hreads; cases hreads
      exact .left hnot (.inr hmarks) (Bool.eq_false_iff.mpr hopen)
  · next hcloses =>
    obtain rfl := Option.some.inj h
    exact .closed hcloses
  · cases h

theorem step_of_consume? (h : consume? st = some st') : Step j st st' := by
  unfold consume? at h
  split at h
  · next htakes =>
    split at h
    · -- an empty queue ends the consumer only once every sender has gone; before that it waits, and
      -- waiting is no step
      next response rest hqueue =>
      obtain rfl := Option.some.inj h
      exact .took htakes hqueue
    · next hqueue =>
      split at h
      · next hdone =>
        obtain rfl := Option.some.inj h
        exact .drained htakes hqueue hdone
      · cases h
  · next response hsends =>
    split at h
    · next hreceiving =>
      obtain rfl := Option.some.inj h
      exact .sent hsends hreceiving
    · next hreceiving =>
      obtain rfl := Option.some.inj h
      exact .unheard (by rw [hsends]; rfl) (Bool.eq_false_iff.mpr hreceiving)
  · next outcome hreports =>
    obtain rfl := Option.some.inj h
    exact .reported hreports
  · cases h

theorem step_of_settle? (h : settle? st = some st') : Step j st st' := by
  unfold settle? at h
  split at h
  · cases h
  · next outcome rest hnone hreports =>
    obtain rfl := Option.some.inj h
    exact .settled hnone hreports
  · next hnone hreports =>
    split at h
    · next hgone =>
      obtain rfl := Option.some.inj h
      simp only [Bool.and_eq_true] at hgone
      exact .ended hnone hreports (Consumer.eq_done hgone.1.2)
    · cases h

theorem step_of_step? {e : Event} (h : step? j st e = some st') : Step j st st' := by
  -- each event is guarded, and its guard is what the constructor of the relation asks for
  cases e with
  | produce => exact step_of_produce? h
  | consume => exact step_of_consume? h
  | settle => exact step_of_settle? h
  | notice =>
    obtain ⟨hguard, heq⟩ := Option.ite_none_right_eq_some.mp h
    obtain rfl := Option.some.inj heq
    simp only [Bool.and_eq_true, Bool.not_eq_true'] at hguard
    exact .unheard (Consumer.isOpen_of_isWaiting hguard.1) hguard.2
  | expire =>
    obtain ⟨hwatching, heq⟩ := Option.ite_none_right_eq_some.mp h
    obtain rfl := Option.some.inj heq
    exact .expired hwatching
  | retire =>
    obtain ⟨hguard, heq⟩ := Option.ite_none_right_eq_some.mp h
    obtain rfl := Option.some.inj heq
    rw [Bool.and_eq_true] at hguard
    exact .retired hguard.1 (Consumer.eq_done hguard.2)
  | stopConsumer =>
    obtain ⟨hguard, heq⟩ := Option.ite_none_right_eq_some.mp h
    obtain rfl := Option.some.inj heq
    rw [Bool.and_eq_true] at hguard
    exact .stoppedConsumer hguard.1 (Consumer.eq_takes hguard.2)
  | stopWatchdog =>
    obtain ⟨hguard, heq⟩ := Option.ite_none_right_eq_some.mp h
    obtain rfl := Option.some.inj heq
    rw [Bool.and_eq_true] at hguard
    exact .stoppedWatchdog hguard.1 hguard.2
  | hangUp =>
    obtain ⟨hreceiving, heq⟩ := Option.ite_none_right_eq_some.mp h
    obtain rfl := Option.some.inj heq
    exact .hungUp hreceiving

/-- What holds at the start and is kept by the steps holds of every reachable state. The three
invariants are shown by this one induction over runs. -/
theorem Reachable.of_step (Inv : State → Prop) (hstart : Inv (Pipeline.start j receiving))
    (hstep : ∀ {st st'}, Inv st → Step j st st' → Inv st') (h : Reachable j receiving st) :
    Inv st := by
  induction h with
  | start => exact hstart
  | step e _ he ih => exact hstep ih (step_of_step? he)

/-! ### Room for the reports -/

/-- How many reports the producer may still make. It reports only when the tree cannot be read. -/
def Producer.owed : Producer → Nat
  | .reads => 1
  | .marks | .closes | .done => 0

/-- How many reports the consumer still makes. It reports once, whether the queue is drained or the
caller is gone. -/
def Consumer.owed : Consumer → Nat
  | .takes | .sends _ | .reports _ => 1
  | .done => 0

theorem Consumer.owed_of_isOpen {c : Consumer} (h : c.isOpen = true) : c.owed = 1 := by
  cases c with
  | takes | sends | reports => rfl
  | done => cases h

/-- How many reports may still come. Together with those in the channel they are never more than it
has room for, which is why none is lost. -/
def State.owed (st : State) : Nat := st.producer.owed + st.consumer.owed + st.watching.toNat

/-- The reports that may still come find room in the channel, and those before them did. A party
that sends never waits for room, so what does not find any is lost, and with it perhaps the
verdict. -/
structure Room (st : State) : Prop where
  owed : st.reports.length + st.owed ≤ capacity
  lost : st.lost = 0

theorem Room.start : Room (start j receiving) where
  owed := by
    unfold Pipeline.start State.owed
    cases j.updatesOnly with
    | false => exact Nat.le_refl 3
    | true => exact Nat.le_succ 2
  lost := rfl

/-- With room in the channel, a report is the last of those in it. The lemmas on room below show
that every report meets this case. -/
theorem report_eq {outcome : Outcome} (h : st.reports.length < capacity) :
    st.report outcome = { st with reports := st.reports ++ [outcome] } :=
  if_pos h

namespace Room

/-- A producer that still reads has room for its report. -/
theorem lt_of_reads (h : Room st) (hreads : st.producer = .reads) :
    st.reports.length < capacity := by
  have howed := h.owed
  simp only [State.owed, hreads, Producer.owed] at howed
  omega

/-- A consumer that has not reported yet has room for its report. -/
theorem lt_of_reports (h : Room st) {outcome : Outcome}
    (hreports : st.consumer = .reports outcome) : st.reports.length < capacity := by
  have howed := h.owed
  simp only [State.owed, hreports, Consumer.owed] at howed
  omega

/-- A watchdog that still watches has room for its report. -/
theorem lt_of_watching (h : Room st) (hwatching : st.watching = true) :
    st.reports.length < capacity := by
  have howed := h.owed
  simp only [State.owed, hwatching, Bool.toNat_true] at howed
  omega

/-- A report takes the room that was kept for it; no other step takes room. Those who may still
report are counted in advance, so nothing depends on who is first. -/
theorem step (h : Room st) (hstep : Step j st st') : Room st' := by
  have howed := h.owed
  unfold State.owed at howed
  -- by the kind of the step: what is owed and what is in the channel are the same in sum, or less
  cases hstep with
  | queued hp _ _ | marked hp _ | closed hp =>
    refine ⟨?_, h.lost⟩
    simp only [State.owed, hp, Producer.owed] at howed ⊢
    omega
  | left =>
    refine ⟨?_, h.lost⟩
    simp only [State.owed, Producer.owed]
    omega
  | failed hp _ =>
    rw [report_eq (h.lt_of_reads hp)]
    refine ⟨?_, h.lost⟩
    simp only [State.owed, hp, Producer.owed, List.length_append, List.length_singleton] at howed ⊢
    omega
  | took hc _ | drained hc _ _ | sent hc _ | stoppedConsumer _ hc =>
    refine ⟨?_, h.lost⟩
    simp only [State.owed, hc, Consumer.owed] at howed ⊢
    omega
  | unheard hopen _ =>
    refine ⟨?_, h.lost⟩
    have hc : st.consumer.owed = 1 := Consumer.owed_of_isOpen hopen
    have hsaid : (Consumer.reports (.error .cancelled)).owed = 1 := rfl
    simp only [State.owed, hc, hsaid] at howed ⊢
    omega
  | reported hc =>
    rw [report_eq (h.lt_of_reports hc)]
    refine ⟨?_, h.lost⟩
    simp only [State.owed, hc, Consumer.owed, List.length_append, List.length_singleton] at howed ⊢
    omega
  | expired hw =>
    rw [report_eq (h.lt_of_watching hw)]
    refine ⟨?_, h.lost⟩
    simp only [State.owed, hw, Bool.toNat_true, Bool.toNat_false, List.length_append,
      List.length_singleton] at howed ⊢
    omega
  | retired hw _ | stoppedWatchdog _ hw =>
    refine ⟨?_, h.lost⟩
    simp only [State.owed, hw, Bool.toNat_true, Bool.toNat_false] at howed ⊢
    omega
  | settled _ hreports =>
    refine ⟨?_, h.lost⟩
    simp only [State.owed, hreports, List.length_cons] at howed ⊢
    omega
  | ended | hungUp => exact ⟨h.owed, h.lost⟩

end Room

/-! ### The way of the responses -/

/-- What the producer has still to queue. -/
def Producer.toCome (j : Job) : Producer → List SubscribeResponse
  | .reads => j.responses
  | .marks => [.sync true]
  | .closes | .done => []

/-- What the consumer has taken from the queue and not yet handed on. -/
def Consumer.held : Consumer → List SubscribeResponse
  | .sends response => [response]
  | .takes | .reports _ | .done => []

/-- The responses keep their order on the way to the caller, and get lost only with the consumer. As
long as the consumer is open, each of them is in one of four stages, and read in the order of these
they are the job's responses. -/
structure Flow (j : Job) (st : State) : Prop where
  reads : st.producer = .reads → j.updatesOnly = false
  onTheWay : st.consumer.isOpen = true →
    st.delivered ++ (st.consumer.held ++ (st.queue ++ st.producer.toCome j)) = j.responses
  delivered : st.delivered <+: j.responses

theorem Flow.start : Flow j (start j receiving) where
  reads := by
    unfold Pipeline.start
    cases j.updatesOnly with
    | false => exact fun _ => rfl
    | true => exact fun h => by cases h
  onTheWay := by
    intro _
    unfold Pipeline.start Job.responses
    cases honly : j.updatesOnly with
    | false => simp [Consumer.held, Producer.toCome, Job.responses, honly]
    | true => rfl
  delivered := List.nil_prefix

theorem Flow.step (h : Flow j st) (hroom : Room st) (hstep : Step j st st') : Flow j st' := by
  -- by the kind of the step: a response goes on by one stage, or the consumer closes
  cases hstep with
  | @queued n hp hread hopen =>
    refine ⟨fun hreads => (by cases hreads), fun _ => ?_, h.delivered⟩
    have honTheWay := h.onTheWay hopen
    have hresponses : j.responses = [.update n, .sync true] := by
      rw [Job.responses, h.reads hp, hread]; rfl
    rw [hp, Producer.toCome, hresponses] at honTheWay
    rw [Producer.toCome, List.append_assoc, hresponses]
    exact honTheWay
  | failed hp hread =>
    -- there was nothing to come, and there still is not
    have hnil := Job.Fails.responses ⟨h.reads hp, _, hread⟩
    rw [report_eq (hroom.lt_of_reads hp)]
    refine ⟨fun hreads => (by cases hreads), fun hopen => ?_, h.delivered⟩
    have honTheWay := h.onTheWay hopen
    rw [hp, Producer.toCome, hnil] at honTheWay
    rw [Producer.toCome, hnil]
    exact honTheWay
  | marked hp hopen =>
    refine ⟨fun hreads => (by cases hreads), fun _ => ?_, h.delivered⟩
    have honTheWay := h.onTheWay hopen
    rw [hp, Producer.toCome] at honTheWay
    rw [Producer.toCome, List.append_nil]
    exact honTheWay
  | left _ _ hgone =>
    refine ⟨fun hreads => (by cases hreads), fun hopen => ?_, h.delivered⟩
    rw [hgone] at hopen
    cases hopen
  | closed hp =>
    refine ⟨fun hreads => (by cases hreads), fun hopen => ?_, h.delivered⟩
    have honTheWay := h.onTheWay hopen
    rw [hp] at honTheWay
    exact honTheWay
  | took hc hq =>
    refine ⟨h.reads, fun _ => ?_, h.delivered⟩
    have honTheWay := h.onTheWay (by rw [hc]; rfl)
    rw [hc, hq] at honTheWay
    exact honTheWay
  | sent hc _ =>
    have honTheWay := h.onTheWay (by rw [hc]; rfl)
    rw [hc, Consumer.held, ← List.append_assoc] at honTheWay
    exact ⟨h.reads, fun _ => honTheWay, ⟨_, honTheWay⟩⟩
  | drained | unheard | stoppedConsumer =>
    exact ⟨h.reads, fun hopen => (by cases hopen), h.delivered⟩
  | reported hc =>
    rw [report_eq (hroom.lt_of_reports hc)]
    exact ⟨h.reads, fun hopen => (by cases hopen), h.delivered⟩
  | expired hw =>
    rw [report_eq (hroom.lt_of_watching hw)]
    exact ⟨h.reads, h.onTheWay, h.delivered⟩
  | retired | settled | ended | stoppedWatchdog | hungUp => exact ⟨h.reads, h.onTheWay, h.delivered⟩

/-! ### The verdict -/

/-- The first report: the outcome, or what will be the outcome. Reports that come after it are never
looked at. -/
def State.verdict (st : State) : Option Outcome := st.outcome.or st.reports.head?

/-- What some party says of how the pipeline ends, if only in a report to come. -/
def State.Says (st : State) (outcome : Outcome) : Prop :=
  st.consumer = .reports outcome ∨ outcome ∈ st.reports ∨ st.outcome = some outcome

/-- A report is the verdict only if there was none before it. Later reports stay behind in the
channel. -/
theorem verdict_report {outcome : Outcome} (h : st.reports.length < capacity) :
    (st.report outcome).verdict = st.verdict.or (some outcome) := by
  rw [report_eq h, State.verdict, State.verdict, List.head?_append, Option.or_assoc]
  rfl

theorem isSome_verdict_report {outcome : Outcome} (h : st.reports.length < capacity) :
    (st.report outcome).verdict.isSome = true := by
  rw [verdict_report h, Option.isSome_or]
  exact Bool.or_true _

/-- The verdict is final. A later report stands behind it, and when a report is taken as the outcome
it is the first one. -/
theorem Step.verdict (hstep : Step j st st') (hroom : Room st) {outcome : Outcome}
    (h : st.verdict = some outcome) : st'.verdict = some outcome := by
  -- only three steps report, and a report is put behind what has been reported; the verdict is the
  -- first
  cases hstep with
  | failed hp _ =>
    exact (verdict_report (hroom.lt_of_reads hp)).trans (by rw [h, Option.some_or])
  | reported hc =>
    exact (verdict_report (hroom.lt_of_reports hc)).trans (by rw [h, Option.some_or])
  | expired hw =>
    exact (verdict_report (hroom.lt_of_watching hw)).trans (by rw [h, Option.some_or])
  | settled hnone hreports =>
    rw [State.verdict, hnone, hreports] at h
    exact h
  | ended hnone hreports _ =>
    rw [State.verdict, hnone, hreports] at h
    cases h
  | _ => exact h

/-- What the reports say is so. It holds also of reports that are never heard, so that whichever
comes first can be relied on. -/
structure Told (j : Job) (st : State) : Prop where
  /-- No task but the producer goes without a report, or before there is one. -/
  gone : st.consumer = .done ∨ st.watching = false → st.verdict.isSome = true
  /-- A success is reported only after everything was delivered. -/
  complete : st.Says (.ok ()) →
    st.producer = .done ∧ st.consumer.isOpen = false ∧ st.delivered = j.responses
  /-- A failure is reported before the consumer can see the queue close. -/
  failed : j.Fails → st.producer ≠ .reads → ∃ e, st.verdict = some (.error e)

theorem Told.start : Told j (start j receiving) where
  gone := fun h => by rcases h with h | h <;> cases h
  complete := fun h => by rcases h with h | h | h <;> cases h
  failed := by
    intro hfails hreads
    refine absurd ?_ hreads
    unfold Pipeline.start
    rw [hfails.1]
    rfl

/-- With a verdict that is not a success, none is told when the producer fails. -/
theorem exists_error_of_verdict {o : Option Outcome} {e : SubscriptionError}
    (hne : o ≠ some (.ok ())) : ∃ e', o.or (some (.error e)) = some (.error e') := by
  cases o with
  | none => exact ⟨e, rfl⟩
  | some outcome =>
    cases outcome with
    | error e' => exact ⟨e', rfl⟩
    | ok u => exact absurd rfl hne

/-- The verdict is something that was said. -/
theorem says_of_verdict {outcome : Outcome} (h : st.verdict = some outcome) : st.Says outcome := by
  unfold State.verdict at h
  cases hout : st.outcome with
  | some r =>
    rw [hout] at h
    exact .inr (.inr (hout.trans h))
  | none =>
    rw [hout, Option.none_or] at h
    exact .inr (.inl (List.mem_of_head? h))

theorem mem_of_mem_append_error {reports : List Outcome} {e : SubscriptionError}
    (h : .ok () ∈ reports ++ [.error e]) : .ok () ∈ reports := by
  rcases List.mem_append.mp h with h | h
  · exact h
  · cases List.mem_singleton.mp h

/-- A success that is told was told before, or is the consumer's finding that the queue is
drained. -/
theorem Step.says (hstep : Step j st st') (hroom : Room st) (htold : Told j st)
    (h : st'.Says (.ok ())) :
    st.Says (.ok ()) ∨ st.consumer = .takes ∧ st.queue = [] ∧ st.producer = .done ∧
      st' = { st with consumer := .reports (.ok ()) } := by
  cases hstep with
  | drained hc hq hp => exact .inr ⟨hc, hq, hp, rfl⟩
  | failed hp _ =>
    rw [report_eq (hroom.lt_of_reads hp)] at h
    refine .inl (h.imp_right (Or.imp_left fun hmem => ?_))
    exact mem_of_mem_append_error hmem
  | expired hw =>
    rw [report_eq (hroom.lt_of_watching hw)] at h
    refine .inl (h.imp_right (Or.imp_left fun hmem => ?_))
    exact mem_of_mem_append_error hmem
  | reported hc =>
    rw [report_eq (hroom.lt_of_reports hc)] at h
    rcases h with h | h | h
    · cases h
    · rcases List.mem_append.mp h with h | h
      · exact .inl (.inr (.inl h))
      · obtain rfl := List.mem_singleton.mp h
        exact .inl (.inl hc)
    · exact .inl (.inr (.inr h))
  | settled _ hreports =>
    rcases h with h | h | h
    · exact .inl (.inl h)
    · exact .inl (.inr (.inl (hreports ▸ List.mem_cons_of_mem _ h)))
    · obtain rfl := Option.some.inj h
      exact .inl (.inr (.inl (hreports ▸ List.mem_cons_self)))
  -- all tasks gone without a report is ruled out, so no success is made up at the end
  | ended hnone hreports hdone =>
    have hsome := htold.gone (.inl hdone)
    rw [State.verdict, hnone, hreports] at hsome
    cases hsome
  | took | sent | unheard | stoppedConsumer =>
    exact .inl (.inr (h.resolve_left fun hc => by cases hc))
  | _ => exact .inl h

/-- Once the producer and the consumer are through, nothing more is delivered. -/
theorem Step.through (hstep : Step j st st') (hroom : Room st) (hp : st.producer = .done)
    (hc : st.consumer.isOpen = false) :
    st'.producer = .done ∧ st'.consumer.isOpen = false ∧ st'.delivered = st.delivered := by
  -- most steps need a producer or a consumer that is not through
  cases hstep with
  | queued hother | failed hother | marked hother | closed hother =>
    rw [hp] at hother; cases hother
  | left _ hother =>
    rw [hp] at hother; rcases hother with hother | hother <;> cases hother
  | took hother | drained hother | sent hother | stoppedConsumer _ hother =>
    rw [hother] at hc; cases hc
  | unheard hopen => rw [hc] at hopen; cases hopen
  | reported hother =>
    rw [report_eq (hroom.lt_of_reports hother)]
    exact ⟨hp, rfl, rfl⟩
  | expired hw =>
    rw [report_eq (hroom.lt_of_watching hw)]
    exact ⟨hp, hc, rfl⟩
  | retired | settled | ended | stoppedWatchdog | hungUp => exact ⟨hp, hc, rfl⟩

/-- A consumer that is done and a watchdog that is gone have a verdict behind them. -/
theorem Told.gone_step (h : Told j st) (hroom : Room st) (hstep : Step j st st')
    (hgone : st'.consumer = .done ∨ st'.watching = false) : st'.verdict.isSome = true := by
  -- a verdict that was there before is still there
  have hkept (hold : st.consumer = .done ∨ st.watching = false) : st'.verdict.isSome = true := by
    obtain ⟨outcome, hv⟩ := Option.isSome_iff_exists.mp (h.gone hold)
    rw [hstep.verdict hroom hv]
    rfl
  cases hstep with
  | failed hp _ =>
    rw [report_eq (hroom.lt_of_reads hp)] at hgone
    exact hkept hgone
  | reported hc =>
    exact isSome_verdict_report (hroom.lt_of_reports hc)
  | expired hw =>
    exact isSome_verdict_report (hroom.lt_of_watching hw)
  | retired _ hdone => exact hkept (.inl hdone)
  | stoppedConsumer hsome | stoppedWatchdog hsome =>
    exact Option.isSome_or.trans (by rw [hsome]; rfl)
  | took | drained | sent | unheard =>
    exact hkept (.inr (hgone.resolve_left fun hdone => by cases hdone))
  | _ => exact hkept hgone

/-- A producer that failed has told so, unless some other failure was told first. Either way the
verdict is no success. -/
theorem Told.failed_step (h : Told j st) (hroom : Room st) (hstep : Step j st st')
    (hfails : j.Fails) (hreads : st'.producer ≠ .reads) : ∃ e, st'.verdict = some (.error e) := by
  by_cases hold : st.producer = .reads
  · -- this step is the one by which the producer stops reading
    obtain ⟨e, hread⟩ := hfails.2
    cases hstep with
    | failed hp _ =>
      -- a success before it would mean that the producer is done
      have hne : st.verdict ≠ some (.ok ()) := by
        intro hok
        have hdone := (h.complete (says_of_verdict hok)).1
        rw [hold] at hdone
        cases hdone
      obtain ⟨e', he'⟩ := exists_error_of_verdict hne
      exact ⟨e', (verdict_report (hroom.lt_of_reads hp)).trans he'⟩
    | queued _ hok => rw [hread] at hok; cases hok
    | left hok =>
      obtain ⟨n, hok⟩ := hok hold
      rw [hread] at hok
      cases hok
    | marked hp | closed hp | drained _ _ hp => rw [hold] at hp; cases hp
    | reported hc =>
      rw [report_eq (hroom.lt_of_reports hc)] at hreads
      exact absurd hold hreads
    | expired hw =>
      rw [report_eq (hroom.lt_of_watching hw)] at hreads
      exact absurd hold hreads
    | _ => exact absurd hold hreads
  · obtain ⟨e, hv⟩ := h.failed hfails hold
    exact ⟨e, hstep.verdict hroom hv⟩

theorem Told.step (h : Told j st) (hroom : Room st) (hflow : Flow j st) (hstep : Step j st st') :
    Told j st' where
  gone := h.gone_step hroom hstep
  complete := by
    intro hsays
    rcases hstep.says hroom h hsays with hold | ⟨hc, hq, hp, rfl⟩
    · obtain ⟨hp, hc, hall⟩ := h.complete hold
      obtain ⟨hp', hc', hsame⟩ := hstep.through hroom hp hc
      exact ⟨hp', hc', hsame.trans hall⟩
    · -- the queue is drained and nothing is to come: all of it was delivered
      have honTheWay := hflow.onTheWay (by rw [hc]; rfl)
      rw [hc, hq, hp] at honTheWay
      exact ⟨hp, rfl, (List.append_nil _).symm.trans honTheWay⟩
  failed := h.failed_step hroom hstep

/-! ### Reachable states -/

theorem Reachable.invariants (h : Reachable j receiving st) : Room st ∧ Flow j st ∧ Told j st := by
  refine h.of_step (fun st => Room st ∧ Flow j st ∧ Told j st) ⟨.start, .start, .start⟩ ?_
  intro st st' hinv hstep
  obtain ⟨hroom, hflow, htold⟩ := hinv
  exact ⟨hroom.step hstep, hflow.step hroom hstep, htold.step hroom hflow hstep⟩

/-- A caller that is gone from the start receives nothing, for no step makes it receive again. -/
theorem Reachable.unheard (h : Reachable j false st) :
    st.receiving = false ∧ st.delivered = [] := by
  refine h.of_step (fun st => st.receiving = false ∧ st.delivered = []) ⟨rfl, rfl⟩ ?_
  intro st st' hinv hstep
  obtain ⟨hreceiving, hdelivered⟩ := hinv
  cases hstep with
  | failed | reported | expired =>
    unfold State.report
    split <;> exact ⟨hreceiving, hdelivered⟩
  | sent _ hother => rw [hreceiving] at hother; cases hother
  | hungUp => exact ⟨rfl, hdelivered⟩
  | _ => exact ⟨hreceiving, hdelivered⟩

theorem Reachable.complete (h : Reachable j receiving st) (hok : st.outcome = some (.ok ())) :
    st.producer = .done ∧ st.delivered = j.responses := by
  obtain ⟨-, -, htold⟩ := h.invariants
  obtain ⟨hp, -, hall⟩ := htold.complete (.inr (.inr hok))
  exact ⟨hp, hall⟩

theorem Reachable.ne_ok_of_fails (h : Reachable j receiving st) (hfails : j.Fails) :
    st.outcome ≠ some (.ok ()) := by
  intro hok
  obtain ⟨-, -, htold⟩ := h.invariants
  obtain ⟨e, hv⟩ := htold.failed hfails (by rw [(h.complete hok).1]; decide)
  rw [State.verdict, hok] at hv
  cases hv

/-- What the caller is handed is the beginning of the job's responses, and no report gets lost. Only
a pipeline that delivered all of them succeeds; one whose producer fails delivers nothing and does
not succeed, and neither does one that nobody receives from. The state may be any on the way, so a
caller that looks at what it has been handed so far is told the same. -/
theorem Reachable.safe (h : Reachable j receiving st) :
    st.delivered <+: j.responses ∧ st.lost = 0 ∧
    (st.outcome = some (.ok ()) → st.delivered = j.responses) ∧
    (j.Fails → st.delivered = [] ∧ st.outcome ≠ some (.ok ())) ∧
    (receiving = false → st.outcome ≠ some (.ok ())) := by
  obtain ⟨hroom, hflow, -⟩ := h.invariants
  refine ⟨hflow.delivered, hroom.lost, fun hok => (h.complete hok).2, fun hfails => ?_, ?_⟩
  · have hprefix := hflow.delivered
    rw [hfails.responses] at hprefix
    exact ⟨List.prefix_nil.mp hprefix, h.ne_ok_of_fails hfails⟩
  · rintro rfl hok
    -- nothing was delivered and yet all of it, so there was nothing to deliver
    have hnil : j.responses = [] := (h.complete hok).2.symm.trans h.unheard.2
    exact h.ne_ok_of_fails (Job.fails_of_responses_nil hnil) hok

/-- A tree with nothing to report, and a caller that wants to hear that. -/
def emptyJob : Job := ⟨false, .ok ⟨0, none, [], []⟩, defaultTimeout⟩

/-- The parties of `emptyJob` after they took their turns one after the other. -/
theorem Reachable.safe_emptyJob :
    ∃ st, Reachable emptyJob true st ∧ st.outcome = some (.ok ()) ∧ st.lost = 0 ∧
      st.delivered = [.update ⟨0, none, [], []⟩, .sync true] := by
  have hstart : Reachable emptyJob true (Pipeline.start emptyJob true) := .start
  have hqueued := ((hstart.step .produce rfl).step .produce rfl).step .produce rfl
  have htaken := (hqueued.step .consume rfl).step .consume rfl
  have hsent := (htaken.step .consume rfl).step .consume rfl
  have hreach := ((hsent.step .consume rfl).step .consume rfl).step .settle rfl
  have hsafe := hreach.safe
  exact ⟨_, hreach, rfl, hsafe.2.1, hsafe.2.2.1 rfl⟩

/-! ### Steps come to an end -/

/-- How many steps the producer still makes, and the consumer for what it queues. -/
def Producer.ahead : Producer → Nat
  | .reads => 7
  | .marks => 4
  | .closes => 1
  | .done => 0

/-- How many steps the consumer still makes with an empty queue. -/
def Consumer.ahead : Consumer → Nat
  | .sends _ => 3
  | .takes => 2
  | .reports _ => 1
  | .done => 0

/-- How many steps can still be taken, at most. A response costs the consumer two steps once it is
in the queue, which is why queueing one has to take more than that from the producer's count. -/
def State.ahead (st : State) : Nat :=
  st.producer.ahead + 2 * st.queue.length + st.consumer.ahead + st.watching.toNat
    + st.outcome.isNone.toNat + st.receiving.toNat

theorem Consumer.lt_ahead_of_isOpen {c : Consumer} (h : c.isOpen = true) : 1 < c.ahead := by
  cases c with
  | takes => exact Nat.lt_succ_self 1
  | sends => exact Nat.lt_succ_of_lt (Nat.lt_succ_self 1)
  | reports | done => cases h

theorem Step.ahead_lt (hstep : Step j st st') (hroom : Room st) : st'.ahead < st.ahead := by
  -- every step lowers one summand; where the producer queues a response the queue costs two more,
  -- and its own count drops by three
  cases hstep with
  | queued hp _ _ | marked hp _ =>
    simp only [State.ahead, hp, Producer.ahead, List.length_append, List.length_singleton]
    omega
  | failed hp _ =>
    rw [report_eq (hroom.lt_of_reads hp)]
    simp only [State.ahead, hp, Producer.ahead]
    omega
  | left _ hp _ =>
    rcases hp with hp | hp <;>
    · simp only [State.ahead, hp, Producer.ahead]
      omega
  | closed hp =>
    simp only [State.ahead, hp, Producer.ahead]
    omega
  | took hc hq =>
    simp only [State.ahead, hc, hq, Consumer.ahead, List.length_cons]
    omega
  | drained hc _ _ | sent hc _ | stoppedConsumer _ hc =>
    simp only [State.ahead, hc, Consumer.ahead]
    omega
  | unheard hopen _ =>
    have hc := Consumer.lt_ahead_of_isOpen hopen
    have hsaid : (Consumer.reports (.error .cancelled)).ahead = 1 := rfl
    simp only [State.ahead, hsaid]
    omega
  | reported hc =>
    rw [report_eq (hroom.lt_of_reports hc)]
    simp only [State.ahead, hc, Consumer.ahead]
    omega
  | expired hw =>
    rw [report_eq (hroom.lt_of_watching hw)]
    simp only [State.ahead, hw, Bool.toNat_true, Bool.toNat_false]
    omega
  | retired hw _ | stoppedWatchdog _ hw =>
    simp only [State.ahead, hw, Bool.toNat_true, Bool.toNat_false]
    omega
  | settled hnone _ | ended hnone _ _ =>
    simp only [State.ahead, hnone, Option.isNone_none, Option.isNone_some, Bool.toNat_true,
      Bool.toNat_false]
    omega
  | hungUp hreceiving =>
    simp only [State.ahead, hreceiving, Bool.toNat_true, Bool.toNat_false]
    omega

end Pipeline

/-! ### Serving once -/

open Pipeline (Reachable State step? step_of_step?)

variable {j : Job} {around : Surroundings} {p p' : State} {receiving : Bool}

theorem reachable_of_next? (h : Reachable j receiving p) (hnext : next? j around p = some p') :
    Reachable j receiving p' := by
  obtain ⟨e, -, he⟩ := List.exists_of_findSome?_eq_some hnext
  split at he
  · cases he
  · exact h.step e he

/-- As long as there is no outcome, some party has a turn: a report can be taken, or the watchdog is
still there to give up. -/
theorem exists_next? (h : Reachable j receiving p) (hnone : p.outcome = none) :
    ∃ p', next? j around p = some p' := by
  obtain ⟨-, -, htold⟩ := h.invariants
  have hturn : ∃ e ∈ turns, isBlocked around p e = false ∧ (step? j p e).isSome = true := by
    cases hreports : p.reports with
    | cons outcome rest =>
      refine ⟨.settle, by decide, rfl, ?_⟩
      simp only [step?, Pipeline.settle?, hnone, hreports, Option.isSome_some]
    | nil =>
      -- without the watchdog there would be a verdict, and with it an outcome or a report
      have hwatching : p.watching = true := by
        cases hgone : p.watching with
        | true => rfl
        | false =>
          have hsome := htold.gone (.inr hgone)
          rw [State.verdict, hnone, hreports] at hsome
          cases hsome
      refine ⟨.expire, by decide, rfl, ?_⟩
      simp only [step?, hwatching, if_true, Option.isSome_some]
  obtain ⟨e, hmem, hfree, hstep⟩ := hturn
  refine Option.isSome_iff_exists.mp (List.findSome?_isSome_iff.mpr ⟨e, hmem, ?_⟩)
  rw [hfree]
  exact hstep

/-- A run with as many steps as can be taken ends with an outcome. The bound goes down with each
step, and a state without an outcome has a next one. -/
theorem isSome_outcome_run (around : Surroundings) {fuel : Nat} (h : Reachable j receiving p)
    (hfuel : p.ahead ≤ fuel) :
    Reachable j receiving (run j around fuel p) ∧ (run j around fuel p).outcome.isSome = true := by
  -- on the steps that are left, for any reachable state: while there is no outcome some party has a
  -- turn, and each turn takes one off
  induction fuel generalizing p with
  | zero =>
    refine ⟨h, ?_⟩
    cases hout : p.outcome with
    | some outcome => rw [run, hout]; rfl
    | none =>
      have hone : p.outcome.isNone.toNat = 1 := by rw [hout]; rfl
      unfold State.ahead at hfuel
      omega
  | succ fuel ih =>
    cases hout : p.outcome with
    | some outcome =>
      rw [run, hout]
      exact ⟨h, by rw [if_pos Option.isSome_some, hout]; rfl⟩
    | none =>
      obtain ⟨p', hnext⟩ := exists_next? h hout
      have hlt : p'.ahead < p.ahead := by
        obtain ⟨e, -, he⟩ := List.exists_of_findSome?_eq_some hnext
        split at he
        · cases he
        · exact (step_of_step? he).ahead_lt h.invariants.1
      rw [run, hout, hnext]
      exact ih (reachable_of_next? h hnext) (by omega)

theorem ahead_start_le (j : Job) (receiving : Bool) :
    (Pipeline.start j receiving).ahead ≤ enoughSteps := by
  unfold Pipeline.start State.ahead
  cases j.updatesOnly <;> cases receiving <;> decide

/-- What a subscription ends with is the outcome of a reachable state. -/
theorem exists_reachable_once (j : Job) (around : Surroundings) :
    ∃ p, Reachable j around.receiving p ∧ p.outcome = some (once j around).1 ∧
      p.delivered = (once j around).2 := by
  obtain ⟨hreach, hsome⟩ :=
    isSome_outcome_run around .start (ahead_start_le j around.receiving)
  refine ⟨_, hreach, ?_, rfl⟩
  obtain ⟨outcome, hout⟩ := Option.isSome_iff_exists.mp hsome
  rw [once, hout]
  rfl

end ConfigTree.Subscription
