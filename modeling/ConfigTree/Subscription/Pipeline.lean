import ConfigTree.Subscription.Error

/-!
# The pipeline of a subscription

Three tasks serve a subscription. The producer reads the tree and queues one notification and then a
marker, or reports that it could not read. The consumer hands on what is queued until the queue is
drained, or until it sees that nobody receives any more, and reports which. The watchdog reports if
nothing has been handed on for too long. Reports go into a channel with room for one from each task,
and the first of them is the outcome.

`Pipeline.step?` is one step of one of the parties, and `Pipeline.Reachable` says which states some
order of steps leads to.
-/

namespace ConfigTree.Subscription

/-- How a subscription ends. -/
abbrev Outcome := Except SubscriptionError Unit

/-- What the pipeline has to do: whether it leaves out the notification, what reading the tree
gives, and after how many nanoseconds the watchdog gives up. The outcome of reading is part of it,
so that a step of the producer is a function of the state. -/
structure Job where
  updatesOnly : Bool
  snapshot : Except SubscriptionError Notification
  timeout : Nat

/-- What the caller is to receive, if the tree can be read. What it has received at any time is a
prefix of this. -/
def Job.responses (j : Job) : List SubscribeResponse :=
  if j.updatesOnly then [.sync true]
  else
    match j.snapshot with
    | .ok n => [.update n, .sync true]
    | .error _ => []

namespace Pipeline

/-- How many reports the channel has room for: one for each task. That none of them finds it full is
proved of the reachable states. -/
def capacity : Nat := 3

/-- What the producer does next. -/
inductive Producer where
  | reads
  | marks
  /-- Lets go of the queue. -/
  | closes
  | done
deriving DecidableEq, Repr

/-- What the consumer does next. -/
inductive Consumer where
  | takes
  | sends (response : SubscribeResponse)
  | reports (outcome : Outcome)
  | done

/-- Whether the consumer still has the queue. Once it has not, nothing that is queued would be
handed on. -/
def Consumer.isOpen : Consumer → Bool
  | .takes | .sends _ => true
  | .reports _ | .done => false

/-- The state of all parties together. The tasks share the queue and the channel of reports. -/
structure State where
  producer : Producer
  queue : List SubscribeResponse
  consumer : Consumer
  watching : Bool
  /-- The reports in the channel, the first one first. -/
  reports : List Outcome
  /-- How many reports the channel had no room for. -/
  lost : Nat
  /-- Whether the caller still receives. -/
  receiving : Bool
  delivered : List SubscribeResponse
  outcome : Option Outcome

/-- The state in which a job starts. -/
def start (j : Job) (receiving : Bool) : State where
  producer := if j.updatesOnly then .marks else .reads
  queue := []
  consumer := .takes
  watching := true
  reports := []
  lost := 0
  receiving := receiving
  delivered := []
  outcome := none

/-- Puts a report into the channel, if there is room. One that finds none is counted, so that it can
be said that this does not happen. -/
def State.report (st : State) (outcome : Outcome) : State :=
  if st.reports.length < capacity then { st with reports := st.reports ++ [outcome] }
  else { st with lost := st.lost + 1 }

/-- A step of one of the parties. -/
inductive Event where
  /-- The producer does what it does next. -/
  | produce
  /-- The consumer does what it does next. -/
  | consume
  /-- The consumer sees that nobody receives any more. -/
  | notice
  /-- The watchdog gives up. -/
  | expire
  /-- The watchdog ends, since the consumer is gone. -/
  | retire
  /-- The first report becomes the outcome. -/
  | settle
  /-- The consumer is stopped after the outcome is known. -/
  | stopConsumer
  /-- The watchdog is stopped after the outcome is known. -/
  | stopWatchdog
  /-- The caller stops receiving. -/
  | hangUp
deriving DecidableEq, Repr

/-- Queues a response. Without a consumer the producer has nothing more to do. -/
def State.enqueue (st : State) (response : SubscribeResponse) (next : Producer) : State :=
  if st.consumer.isOpen then { st with queue := st.queue ++ [response], producer := next }
  else { st with producer := .closes }

/-- What the producer does next. It reads the tree in one step, so what it queues is of one
moment. -/
def produce? (j : Job) (st : State) : Option State :=
  match st.producer with
  | .reads =>
    match j.snapshot with
    | .ok n => some (st.enqueue (.update n) .marks)
    | .error e => some { st.report (.error e) with producer := .closes }
  | .marks => some (st.enqueue (.sync true) .closes)
  | .closes => some { st with producer := .done }
  | .done => none

/-- What the consumer does next. It waits while the queue is empty, and ends when the producer has
let go of it. -/
def consume? (st : State) : Option State :=
  match st.consumer with
  | .takes =>
    match st.queue with
    | response :: rest => some { st with queue := rest, consumer := .sends response }
    | [] =>
      -- an empty queue is the end only if nothing can come any more
      if st.producer = .done then some { st with consumer := .reports (.ok ()) } else none
  | .sends response =>
    if st.receiving then
      some { st with delivered := st.delivered ++ [response], consumer := .takes }
    else some { st with consumer := .reports (.error .cancelled) }
  | .reports outcome => some { st.report outcome with consumer := .done }
  | .done => none

/-- Whether the consumer can be stopped, or see that nobody receives: while it waits for the
queue. -/
def Consumer.isWaiting : Consumer → Bool
  | .takes => true
  | _ => false

def Consumer.isDone : Consumer → Bool
  | .done => true
  | _ => false

/-- Takes the first report as the outcome. If all tasks are gone without a report, all is well.
There is one outcome: later reports are not taken any more. -/
def settle? (st : State) : Option State :=
  match st.outcome, st.reports with
  | some _, _ => none
  | none, r :: rest => some { st with reports := rest, outcome := some r }
  | none, [] =>
    if st.producer = .done && st.consumer.isDone && !st.watching then
      some { st with outcome := some (.ok ()) }
    else none

/-- The state after a step, if the step can be taken. -/
def step? (j : Job) (st : State) : Event → Option State
  | .produce => produce? j st
  | .consume => consume? st
  | .notice =>
    if st.consumer.isWaiting && !st.receiving then
      some { st with consumer := .reports (.error .cancelled) }
    else none
  -- the watchdog may give up at any time: how long it has waited is not part of the state
  | .expire =>
    if st.watching then some { st.report (.error (.timeout j.timeout)) with watching := false }
    else none
  | .retire =>
    if st.watching && st.consumer.isDone then some { st with watching := false } else none
  | .settle => settle? st
  | .stopConsumer =>
    if st.outcome.isSome && st.consumer.isWaiting then some { st with consumer := .done } else none
  | .stopWatchdog =>
    if st.outcome.isSome && st.watching then some { st with watching := false } else none
  | .hangUp => if st.receiving then some { st with receiving := false } else none

/-- The states that some order of steps leads to. Nothing is assumed of the order, so what holds of
these states holds however the tasks are scheduled. -/
inductive Reachable (j : Job) (receiving : Bool) : State → Prop where
  | start : Reachable j receiving (start j receiving)
  | step {st st' : State} (e : Event) : Reachable j receiving st → step? j st e = some st' →
      Reachable j receiving st'

end Pipeline

end ConfigTree.Subscription
