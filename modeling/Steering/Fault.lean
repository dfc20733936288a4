import Steering.Text.Span

/-!
# `Steering.Fault` — why a call could not be steered

Every operation that can fail names its cause, a `Fault`. A fault has a message for a reader, a
`Code` for programs, and through its code a `Category`, the advice whether trying again can help,
and the status that a remote caller is given. The four readings are functions of the cause alone.
-/

namespace Steering

inductive Fault where
  /-- The first discovery of a target took longer than the given nanoseconds. -/
  | discoveryTimeout (target : String) (nanos : Nat)
  | noAvailableNode
  | invalidEndpoint (endpoint reason : String)
  | invalidTarget (detail : String)
  | discovery (detail : String)
  | canceled
  | config (detail : String)
  deriving DecidableEq, Inhabited, Repr

/-- The kinds of failure that programs tell apart. -/
inductive Code where
  | discoveryTimeout
  | discoveryFailed
  | watchCanceled
  | invalidTarget
  | noAvailableNode
  | invalidEndpoint
  | configurationError
  deriving DecidableEq, Inhabited, Repr

/-- The part of the library that a kind of failure belongs to. -/
inductive Category where
  | discovery
  | balancer
  | endpoint
  | system
  deriving DecidableEq, Inhabited, Repr

/-- The status that a remote caller is given. -/
inductive RpcStatus where
  | cancelled
  | invalidArgument
  | deadlineExceeded
  | internal
  | unavailable
  deriving DecidableEq, Inhabited, Repr

namespace Category

def name : Category → String
  | discovery => "DISCOVERY"
  | balancer => "BALANCER"
  | endpoint => "ENDPOINT"
  | system => "SYSTEM"

/-- All categories, in the order in which messages list them. -/
def all : List Category := [discovery, balancer, endpoint, system]

theorem mem_all (c : Category) : c ∈ all := by cases c <;> decide

end Category

namespace RpcStatus

def number : RpcStatus → Nat
  | cancelled => 1
  | invalidArgument => 3
  | deadlineExceeded => 4
  | internal => 13
  | unavailable => 14

def name : RpcStatus → String
  | cancelled => "Cancelled"
  | invalidArgument => "InvalidArgument"
  | deadlineExceeded => "DeadlineExceeded"
  | internal => "Internal"
  | unavailable => "Unavailable"

end RpcStatus

namespace Code

def name : Code → String
  | discoveryTimeout => "DISCOVERY_TIMEOUT"
  | discoveryFailed => "DISCOVERY_FAILED"
  | watchCanceled => "WATCH_CANCELED"
  | invalidTarget => "INVALID_TARGET"
  | noAvailableNode => "NO_AVAILABLE_NODE"
  | invalidEndpoint => "INVALID_ENDPOINT"
  | configurationError => "CONFIGURATION_ERROR"

/-- The number of a code; each category has a range of one thousand. -/
def number : Code → Nat
  | discoveryTimeout => 1000
  | discoveryFailed => 1001
  | watchCanceled => 1002
  | invalidTarget => 1003
  | noAvailableNode => 2000
  | invalidEndpoint => 3000
  | configurationError => 6003

def category : Code → Category
  | discoveryTimeout | discoveryFailed | watchCanceled | invalidTarget => .discovery
  | noAvailableNode => .balancer
  | invalidEndpoint => .endpoint
  | configurationError => .system

/-- Whether trying again can help. An empty routing table counts: the first list of instances may
simply not have arrived yet. -/
def isRetryable : Code → Bool
  | discoveryTimeout | discoveryFailed | noAvailableNode => true
  | watchCanceled | invalidTarget | invalidEndpoint | configurationError => false

def status : Code → RpcStatus
  | noAvailableNode | discoveryFailed => .unavailable
  | discoveryTimeout => .deadlineExceeded
  | invalidTarget | invalidEndpoint => .invalidArgument
  | watchCanceled => .cancelled
  | configurationError => .internal

/-- All codes, in the order in which messages list them. -/
def all : List Code :=
  [discoveryTimeout, discoveryFailed, watchCanceled, invalidTarget, noAvailableNode,
    invalidEndpoint, configurationError]

theorem mem_all (c : Code) : c ∈ all := by cases c <;> decide

end Code

namespace Fault

def message : Fault → String
  | discoveryTimeout target nanos => s!"discovery of {target} timed out after " ++ Text.span nanos
  | noAvailableNode => "no available node"
  | invalidEndpoint endpoint reason => s!"invalid endpoint {endpoint}: {reason}"
  | invalidTarget detail => s!"invalid target: {detail}"
  | discovery detail => s!"discovery error: {detail}"
  | canceled => "resolver canceled"
  | config detail => s!"configuration error: {detail}"

def code : Fault → Code
  | discoveryTimeout .. => .discoveryTimeout
  | noAvailableNode => .noAvailableNode
  | invalidEndpoint .. => .invalidEndpoint
  | invalidTarget _ => .invalidTarget
  | discovery _ => .discoveryFailed
  | canceled => .watchCanceled
  | config _ => .configurationError

/-- Whether trying again can help. -/
def isRetryable (f : Fault) : Bool := f.code.isRetryable

end Fault

end Steering
