import Steering.Fault
import Steering.Uri
import Steering.Text.Split

/-!
# `Steering.Endpoint` — from an endpoint text to an address

The registry stores endpoint texts such as `grpc://10.0.0.1:9000?isSecure=false`. An endpoint is
usable if it is a URI, names exactly the expected scheme and has a host. Its *address*, `host:port`
or just the host, is what everything downstream is keyed by: duplicates, weights, ring positions and
channels.

Whether an instance wants an encrypted connection is a separate question, answered by the query
alone, so it can also be asked of an endpoint whose scheme is not the expected one.
-/

namespace Steering.Endpoint

/-- Why an endpoint text has no address. -/
inductive Refusal where
  | uri (cause : Uri.Refusal)
  | schemeMismatch (found expected : String)
  | missingScheme
  | missingHost
  deriving DecidableEq, Inhabited, Repr

def Refusal.reason : Refusal → String
  | uri cause => cause.reason
  | schemeMismatch found expected => s!"scheme {found} does not match {expected}"
  | missingScheme => "missing scheme"
  | missingHost => "missing host"

/-- The scheme of endpoints on a base protocol: the encrypted variant has an `s` behind it. -/
def schemeFor (base : String) (secure : Bool) : String := if secure then base ++ "s" else base

/-- The address that a host and a port form. -/
def addressOf (host : List Char) (port? : Option Nat) : String :=
  match port? with
  | some port => String.ofList host ++ ":" ++ toString port
  | none => String.ofList host

/-- The address of an endpoint text, if it is usable under a scheme. -/
def resolve (raw scheme : String) : Except Refusal String :=
  match Uri.parse raw with
  | .error e => .error (.uri e)
  | .ok uri =>
    match uri.scheme?, uri.authority? with
    | none, _ => .error .missingScheme
    | some found, authority? =>
      if String.ofList found ≠ scheme then .error (.schemeMismatch (String.ofList found) scheme)
      else
        match authority? with
        | none => .error .missingHost
        | some authority =>
          let host := Uri.hostOf authority
          if host.isEmpty then .error .missingHost
          else .ok (addressOf host (Uri.portOf? authority))

def parse (raw scheme : String) : Except Fault String :=
  (resolve raw scheme).mapError fun r => .invalidEndpoint raw r.reason

/-- Whether one pair of a query asks for encryption. -/
def asksForEncryption (pair : List Char) : Bool :=
  match Text.splitAt? ['='] pair with
  | some (key, value) => key = "isSecure".toList && value.map Char.toLower = "true".toList
  | none => false

/-- Whether an endpoint text asks for an encrypted connection. -/
def isSecure (raw : String) : Bool :=
  match Uri.parse raw with
  | .ok uri =>
    match uri.query? with
    | some query => (Text.pieces '&' query).any asksForEncryption
    | none => false
  | .error _ => false

/-- The URI under which an address is called: encrypted if every call is, or if the instance's own
endpoint text asks for it. -/
def channelUri (address endpoint : String) (secure : Bool) : String :=
  if secure || isSecure endpoint then "https://" ++ address else "http://" ++ address

end Steering.Endpoint
