import ConfigTree.Path.Basic
import ConfigTree.Scalar.TypedValue
import ConfigTree.Schema.Basic

/-!
# Messages

The requests and responses of the four operations: capabilities, get, set and subscribe. The paths
of a message are relative to its `base`, where it has one.
-/

namespace ConfigTree

/-- The forms in which values can be asked for. -/
inductive Encoding where
  | json
  | bytes
  | proto
  | ascii
  | jsonIetf
deriving DecidableEq, Repr, Inhabited

namespace Encoding

def all : List Encoding := [.json, .bytes, .proto, .ascii, .jsonIetf]

def name : Encoding → String
  | .json => "JSON"
  | .bytes => "BYTES"
  | .proto => "PROTO"
  | .ascii => "ASCII"
  | .jsonIetf => "JSON_IETF"

/-- How error messages show an encoding. -/
def shown : Encoding → String
  | .json => "Json"
  | .bytes => "Bytes"
  | .proto => "Proto"
  | .ascii => "Ascii"
  | .jsonIetf => "JsonIetf"

def ofName? (s : String) : Option Encoding := all.find? (·.name == s)

end Encoding

/-- A new value for the node at a path, in a request, or the value that the node has, in an
answer. -/
structure Update where
  path : Path
  value : TypedValue
deriving BEq

/-- Data at one time, in nanoseconds since 1970. What has been read together is sent together, so
all of it is of that time. -/
structure Notification where
  timestamp : Int64
  base : Option Path
  updates : List Update
  deletes : List Path
deriving BEq

/-! ### Capabilities -/

structure Capabilities where
  models : List Model
  encodings : List Encoding
  protocolVersion : String
deriving DecidableEq, Repr

/-! ### Get -/

/-- Which kind of data is asked for. -/
inductive DataType where
  | all
  | config
  | state
  | operational
deriving DecidableEq, Repr, Inhabited

namespace DataType

def values : List DataType := [.all, .config, .state, .operational]

def name : DataType → String
  | .all => "ALL"
  | .config => "CONFIG"
  | .state => "STATE"
  | .operational => "OPERATIONAL"

/-- How error messages show a kind of data. -/
def shown : DataType → String
  | .all => "All"
  | .config => "Config"
  | .state => "State"
  | .operational => "Operational"

def ofName? (s : String) : Option DataType := values.find? (·.name == s)

end DataType

structure GetRequest where
  base : Option Path
  paths : List Path
  dataType : DataType
  encoding : Encoding
  models : List Model
deriving DecidableEq, Repr

structure GetResponse where
  notifications : List Notification
deriving BEq

/-! ### Set -/

structure SetRequest where
  base : Option Path
  deletes : List Path
  replaces : List Update
  updates : List Update
deriving BEq

/-- What has been done at a path. -/
inductive Operation where
  | delete
  | replace
  | update
deriving DecidableEq, Repr, Inhabited

namespace Operation

def all : List Operation := [.delete, .replace, .update]

def name : Operation → String
  | .delete => "DELETE"
  | .replace => "REPLACE"
  | .update => "UPDATE"

def ofName? (s : String) : Option Operation := all.find? (·.name == s)

end Operation

structure UpdateResult where
  path : Path
  operation : Operation
deriving DecidableEq, Repr

structure SetResponse where
  base : Option Path
  results : List UpdateResult
  timestamp : Int64
deriving DecidableEq

/-! ### Subscribe -/

/-- How long a subscription lasts. -/
inductive ListMode where
  | stream
  | once
  | poll
deriving DecidableEq, Repr, Inhabited

namespace ListMode

def all : List ListMode := [.stream, .once, .poll]

def name : ListMode → String
  | .stream => "STREAM"
  | .once => "ONCE"
  | .poll => "POLL"

/-- How error messages show a mode. -/
def shown : ListMode → String
  | .stream => "Stream"
  | .once => "Once"
  | .poll => "Poll"

def ofName? (s : String) : Option ListMode := all.find? (·.name == s)

end ListMode

/-- When a subscribed node is sent. -/
inductive SendMode where
  | targetDefined
  | onChange
  | sample
deriving DecidableEq, Repr, Inhabited

namespace SendMode

def all : List SendMode := [.targetDefined, .onChange, .sample]

def name : SendMode → String
  | .targetDefined => "TARGET_DEFINED"
  | .onChange => "ON_CHANGE"
  | .sample => "SAMPLE"

def ofName? (s : String) : Option SendMode := all.find? (·.name == s)

end SendMode

structure Subscription where
  path : Path
  mode : SendMode
  /-- Nanoseconds between samples. -/
  interval : UInt64
deriving DecidableEq, Repr

structure SubscriptionList where
  base : Option Path
  subscriptions : List Subscription
  mode : ListMode
  allowAggregation : Bool
  models : List Model
  encoding : Encoding
  updatesOnly : Bool
deriving DecidableEq, Repr

inductive SubscribeRequest where
  | subscribe (list : SubscriptionList)
  | poll
deriving DecidableEq, Repr

/-! ### Status -/

/-- The outcome of an operation. These are the codes of the protocol that are used here, and not all
that it has. -/
inductive Code where
  | ok
  | cancelled
  | invalidArgument
  | deadlineExceeded
  | notFound
  | aborted
  | unimplemented
  | internal
  | unavailable
deriving DecidableEq, Repr, Inhabited

namespace Code

def all : List Code := [.ok, .cancelled, .invalidArgument, .deadlineExceeded, .notFound, .aborted,
  .unimplemented, .internal, .unavailable]

def name : Code → String
  | .ok => "OK"
  | .cancelled => "CANCELLED"
  | .invalidArgument => "INVALID_ARGUMENT"
  | .deadlineExceeded => "DEADLINE_EXCEEDED"
  | .notFound => "NOT_FOUND"
  | .aborted => "ABORTED"
  | .unimplemented => "UNIMPLEMENTED"
  | .internal => "INTERNAL"
  | .unavailable => "UNAVAILABLE"

/-- How a code is shown in the text of a status. -/
def shown : Code → String
  | .ok => "OK"
  | .cancelled => "Canceled"
  | .invalidArgument => "InvalidArgument"
  | .deadlineExceeded => "DeadlineExceeded"
  | .notFound => "NotFound"
  | .aborted => "Aborted"
  | .unimplemented => "Unimplemented"
  | .internal => "Internal"
  | .unavailable => "Unavailable"

def ofName? (s : String) : Option Code := all.find? (·.name == s)

end Code

structure Status where
  code : Code
  message : String
deriving DecidableEq, Repr

/-- The text of a status. -/
def Status.text (s : Status) : String := s!"{s.code.shown}: {s.message}"

inductive SubscribeResponse where
  | update (notification : Notification)
  /-- The end of the first snapshot. -/
  | sync (done : Bool)
  /-- The error that ends a subscription, where there is no other way to send it. -/
  | error (status : Status)
deriving BEq

end ConfigTree
