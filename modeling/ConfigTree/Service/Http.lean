import ConfigTree.Message.Codec
import ConfigTree.Service.MediaType
import ConfigTree.Service.Target
import ConfigTree.Store.Write
import ConfigTree.Subscription.Once

/-!
# The service

The operations of the store as requests and responses of HTTP. Each operation has a route; bodies
are documents, those of a subscription's response one in each line. A request that is no message of
its operation, or that fails, is answered by a status.
-/

namespace ConfigTree

/-- The number of the response that goes with a code. -/
def Code.http : Code → Nat
  | .ok => 200
  | .invalidArgument => 400
  | .notFound => 404
  | .aborted => 409
  | .cancelled => 499
  | .internal => 500
  | .unimplemented => 501
  | .unavailable => 503
  | .deadlineExceeded => 504

namespace Service

structure Request where
  method : String
  /-- The path, perhaps with an authority, a query and a fragment. -/
  target : String
  contentType : Option String
  body : ByteArray

structure Response where
  status : Nat
  contentType : Option String
  lines : List Json

inductive Route where
  | capabilities
  | get
  | set
  | subscribe
deriving DecidableEq, Repr

def Request.path (q : Request) : String := Target.path q.target

def Request.route? (q : Request) : Option Route :=
  match q.method, q.path with
  | "GET", "/capabilities" => some .capabilities
  | "POST", "/get" => some .get
  | "POST", "/set" => some .set
  | "POST", "/subscribe" => some .subscribe
  | _, _ => none

/-- Why a body is no message. -/
inductive BodyFault where
  | notJson
  | malformed
deriving DecidableEq, Repr

def BodyFault.message : BodyFault → String
  | .notJson => "Content type error"
  | .malformed => s!"Json deserialize error: {malformedText}"

/-- The message of a request. -/
def Request.read {α : Type} (q : Request) (message? : Nat → Json.Term → Option α) :
    Except BodyFault α :=
  if ((q.contentType.bind MediaType.parse?).map MediaType.isJson).getD false then
    match (Json.Term.parseBytes? q.body).bind (message? Json.Term.maxDepth) with
    | some m => .ok m
    | none => .error .malformed
  else .error .notJson

namespace Response

/-- There is no such route. -/
def notFound : Response := ⟨404, none, []⟩

def document (status : Nat) (j : Json) : Response := ⟨status, some "application/json", [j]⟩

def ofStatus (s : Status) : Response := document s.code.http s.toJson

def ofFault (f : BodyFault) : Response := ofStatus ⟨.invalidArgument, f.message⟩

/-- The response to an operation on the store. -/
def ofResult {α : Type} (toJson : α → Json) : Except StoreError α → Response
  | .ok a => document 200 (toJson a)
  | .error e => ofStatus e.status

/-- The response to a subscription: what was sent, and the error that ended it, if one did. -/
def ofSubscription : Subscription.Outcome × List SubscribeResponse → Response
  | (outcome, sent) =>
    let last := match outcome with
      | .ok () => []
      | .error e => [SubscribeResponse.error e.status]
    ⟨200, some "application/x-ndjson", (sent ++ last).map SubscribeResponse.toJson⟩

end Response

/-- Answers a request at a time, and gives the store after it. -/
def handle (st : Store) (now : Int64) (timeout : Nat) (q : Request) : Response × Store :=
  match q.route? with
  | none => (.notFound, st)
  | some .capabilities => (.document 200 st.capabilities.toJson, st)
  | some .get =>
    match q.read GetRequest.ofTerm? with
    | .error f => (.ofFault f, st)
    | .ok m => (.ofResult GetResponse.toJson (st.get now m), st)
  | some .set =>
    match q.read (SetRequest.ofTerm? st.reader) with
    | .error f => (.ofFault f, st)
    | .ok m =>
      let (result, st) := st.set now m
      (.ofResult SetResponse.toJson result, st)
  | some .subscribe =>
    match q.read SubscribeRequest.ofTerm? with
    | .error f => (.ofFault f, st)
    | .ok m =>
      let around := { Subscription.Surroundings.calm with timeout }
      (.ofSubscription (Subscription.serve st now around [m]), st)

end Service

end ConfigTree
