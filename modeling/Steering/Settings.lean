import Steering.Datum
import Steering.Fault
import Steering.Strategy

/-!
# `Steering.Settings` — what can be set, and what is refused

A settings record has ten fields with a default each, so any table of data is a settings record as
far as its known keys go: other keys are looked over and dropped. Fields are read in the order of
their keys, not in the order of the text, and the first field that cannot be read decides the
refusal. A list gives the fields by position instead, in the order of their declaration.

Reading and validating are separate: a record that was read can still ask for something impossible,
and then the first flaw in a fixed order is named.
-/

namespace Steering

structure Settings where
  strategy : Strategy := .weightedRoundRobin
  discoveryTimeoutMs : Nat := 10000
  retryIntervalMs : Nat := 1000
  insecure : Bool := true
  scheme : String := "grpc"
  subsetSize : Nat := 0
  subsetKey : Option String := none
  virtualNodes : Nat := 32
  defaultWeight : Int := 100
  debugLog : Bool := true
  deriving DecidableEq, Inhabited, Repr

namespace Settings

/-! ## Validation -/

inductive Flaw where
  | noDiscoveryTimeout
  | noRetryInterval
  | noVirtualNodes
  | negativeDefaultWeight
  | emptyScheme
  deriving DecidableEq, Inhabited, Repr

def Flaw.message : Flaw → String
  | noDiscoveryTimeout => "discovery_timeout_ms must be greater than 0"
  | noRetryInterval => "retry_interval_ms must be greater than 0"
  | noVirtualNodes => "virtual_nodes must be greater than 0"
  | negativeDefaultWeight => "default_weight must not be negative"
  | emptyScheme => "scheme must not be empty"

/-- The first flaw of a settings record. -/
def flaw? (s : Settings) : Option Flaw :=
  if s.discoveryTimeoutMs = 0 then some .noDiscoveryTimeout
  else if s.retryIntervalMs = 0 then some .noRetryInterval
  else if s.virtualNodes = 0 then some .noVirtualNodes
  else if s.defaultWeight < 0 then some .negativeDefaultWeight
  else if s.scheme = "" then some .emptyScheme
  else none

def validate (s : Settings) : Except Fault Unit :=
  match s.flaw? with
  | some flaw => .error (.config flaw.message)
  | none => .ok ()

/-! ## Reading -/

/-- The keys, in the order of declaration. -/
def keys : List String :=
  ["strategy", "discovery_timeout_ms", "retry_interval_ms", "insecure", "scheme", "subset_size",
    "subset_key", "virtual_nodes", "default_weight", "debug_log"]

/-- Sets the field of a key from a datum; an unknown key changes nothing. -/
def withField (format : Format) (s : Settings) (key : String) (d : Datum) :
    Except Mismatch Settings :=
  match key with
  | "strategy" =>
    (d.readName format Strategy.name Strategy.all).map fun v => { s with strategy := v }
  | "discovery_timeout_ms" =>
    (d.readUnsigned format "u64").map fun v => { s with discoveryTimeoutMs := v }
  | "retry_interval_ms" =>
    (d.readUnsigned format "u64").map fun v => { s with retryIntervalMs := v }
  | "insecure" => (d.readBool format).map fun v => { s with insecure := v }
  | "scheme" => (d.readText format).map fun v => { s with scheme := v }
  | "subset_size" => (d.readUnsigned format "usize").map fun v => { s with subsetSize := v }
  | "subset_key" => (d.readText? format).map fun v => { s with subsetKey := v }
  | "virtual_nodes" => (d.readUnsigned format "usize").map fun v => { s with virtualNodes := v }
  | "default_weight" => (d.readSigned format).map fun v => { s with defaultWeight := v }
  | "debug_log" => (d.readBool format).map fun v => { s with debugLog := v }
  | _ => d.skip.map fun _ => s

/-- Sets the fields of a list of entries, from the first to the last. -/
def withFields (format : Format) (s : Settings) : List (String × Datum) → Except Mismatch Settings
  | [] => .ok s
  | (key, d) :: rest => (s.withField format key d).bind fun t => t.withFields format rest

def ofDatum (format : Format) (d : Datum) : Except Mismatch Settings :=
  match d with
  | .table entries => withFields format {} (Datum.inKeyOrder entries)
  | .list elements => do
    let s ← withFields format {} (keys.zip elements)
    if keys.length < elements.length then
      throw (.invalidLength elements.length "fewer elements in array")
    return s
  | d => .error (d.refuse format "struct BalancerConfig")

end Settings

end Steering
