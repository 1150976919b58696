import ConfigTree.Store.Read
import ConfigTree.Subscription.Pipeline

/-!
# One-time subscriptions

A subscription is served once: its paths are read together, what they match is sent as one
notification, and a marker ends it. `Subscription.serve` is the whole of it, from the requests to
what the caller receives; the pipeline's tasks take their turns in a fixed order there.
-/

namespace ConfigTree.Subscription

/-- What the caller of a subscription and the others around it do. -/
structure Surroundings where
  /-- Whether the caller receives. -/
  receiving : Bool
  /-- Whether somebody else keeps the tree from being read. -/
  treeBusy : Bool
  /-- After how many nanoseconds without progress the watchdog gives up. -/
  timeout : Nat

/-- Five seconds. -/
def defaultTimeout : Nat := 5000000000

/-- A caller that receives, and nobody in the way. -/
def Surroundings.calm : Surroundings := ⟨true, false, defaultTimeout⟩

/-- Reads all subscribed paths at a time into one notification, in the order of the subscriptions. A
leaf that two of them match is in it twice. The first path that cannot be read fails all of it. -/
def snapshot (st : Store) (now : Int64) (l : SubscriptionList) :
    Except SubscriptionError Notification :=
  if st.poisoned then .error (.store .poisoned)
  else
    match l.subscriptions.mapM fun sub => st.leafUpdates (sub.path.under l.base) with
    | .ok updates => .ok ⟨now, none, updates.flatten, []⟩
    | .error e => .error (.store e)

/-- Refuses a subscription that is not served. All of this is asked before the tree is looked at,
and what is asked first is reported. -/
def check (st : Store) (l : SubscriptionList) : Except SubscriptionError Unit := do
  if l.allowAggregation then throw .aggregation
  if !l.models.isEmpty then throw .modelFilter
  (st.checkSupport l.encoding l.models).mapError .store
  if l.mode != .once then throw (.unsupportedMode l.mode)

/-- The order in which the parties take their turns. The watchdog comes last, so that it gives up
only where nobody else can go on. -/
def turns : List Pipeline.Event := [.settle, .notice, .consume, .produce, .expire]

/-- Whether the surroundings keep a party from taking its turn. -/
def isBlocked (around : Surroundings) (p : Pipeline.State) : Pipeline.Event → Bool
  | .produce => around.treeBusy && p.producer == .reads
  | _ => false

/-- The next step of a pipeline: that of the first party, in the order of the turns, that can take
one and is not kept from it. -/
def next? (j : Job) (around : Surroundings) (p : Pipeline.State) : Option Pipeline.State :=
  turns.findSome? fun e => if isBlocked around p e then none else Pipeline.step? j p e

/-- Takes steps until the outcome is known. -/
def run (j : Job) (around : Surroundings) : Nat → Pipeline.State → Pipeline.State
  | 0, p => p
  | fuel + 1, p =>
    if p.outcome.isSome then p
    else
      match next? j around p with
      | some p => run j around fuel p
      | none => p

/-- More steps than a pipeline takes: the producer has three, the consumer two for each response and
three at its end, the watchdog one, and one settles the outcome. -/
def enoughSteps : Nat := 12

/-- Serves a subscription: how it ends, and what the caller receives. The turns are in a fixed order
here; what holds in any order is said of `Pipeline.Reachable`. -/
def once (j : Job) (around : Surroundings) : Outcome × List SubscribeResponse :=
  let p := run j around enoughSteps (Pipeline.start j around.receiving)
  (p.outcome.getD (.ok ()), p.delivered)

/-- Serves the requests of a stream. The first of them has to be a subscription; if there is none,
there is nothing to do. -/
def serve (st : Store) (now : Int64) (around : Surroundings) :
    List SubscribeRequest → Outcome × List SubscribeResponse
  | [] => (.ok (), [])
  | .poll :: _ => (.error .notSubscription, [])
  | .subscribe l :: _ =>
    match check st l with
    | .error e => (.error e, [])
    | .ok () => once ⟨l.updatesOnly, snapshot st now l, around.timeout⟩ around

end ConfigTree.Subscription
