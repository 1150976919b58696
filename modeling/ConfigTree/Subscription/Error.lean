import ConfigTree.Store.Error
import ConfigTree.Text.Duration

/-!
# Errors of subscriptions
-/

namespace ConfigTree

/-- How a subscription fails: by the tree, by what it asks for, or on the way to a caller that does
not receive. -/
inductive SubscriptionError where
  | store (e : StoreError)
  | notSubscription
  | aggregation
  | modelFilter
  | unsupportedMode (mode : ListMode)
  /-- Nothing has been handed on for that many nanoseconds. -/
  | timeout (nanoseconds : Nat)
  | cancelled

namespace SubscriptionError

def message : SubscriptionError → String
  | store e => e.message
  | notSubscription => "Request must contain a subscription"
  | aggregation => "Aggregation is not supported"
  | modelFilter => "Subscription using use_models is not supported"
  | unsupportedMode mode => s!"Mode {mode.shown} is not implemented"
  | timeout nanoseconds =>
    s!"Subscription timed out while sending, after {Text.duration nanoseconds}"
  | cancelled => "Subscription stream was cancelled"

def code : SubscriptionError → Code
  | store e => e.code
  | notSubscription => .invalidArgument
  | aggregation | modelFilter | unsupportedMode _ => .unimplemented
  | timeout _ => .deadlineExceeded
  | cancelled => .cancelled

/-- What a caller is told. -/
def status (e : SubscriptionError) : Status := ⟨e.code, e.message⟩

end SubscriptionError

end ConfigTree
