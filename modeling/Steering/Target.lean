import Steering.Fault
import Steering.Text.Split

/-!
# `Steering.Target` — what to discover

A target text is `scheme://authority/service`: the scheme is everything before the first `://`, the
authority everything up to the next slash, and the service name the rest without the slashes around
it. Only the scheme and the service name must not be empty, and the service name may hold slashes of
its own.
-/

namespace Steering

structure Target where
  scheme : String
  authority : String
  endpoint : String
  deriving DecidableEq, Inhabited, Repr

inductive Target.Refusal where
  | missingScheme
  | emptyScheme
  | missingService
  deriving DecidableEq, Inhabited, Repr

namespace Target

namespace Refusal

def reason : Refusal → String
  | missingScheme => "missing scheme"
  | emptyScheme => "empty scheme"
  | missingService => "missing service name"

end Refusal

def ofChars (raw : List Char) : Except Refusal Target :=
  match Text.splitAt? [':', '/', '/'] raw with
  | none => .error .missingScheme
  | some (scheme, rest) =>
    if scheme.isEmpty then .error .emptyScheme
    else
      let (authority, path) := (Text.splitAt? ['/'] rest).getD (rest, [])
      let endpoint := Text.trimWhile (· = '/') path
      if endpoint.isEmpty then .error .missingService
      else .ok ⟨String.ofList scheme, String.ofList authority, String.ofList endpoint⟩

def parse (raw : String) : Except Fault Target :=
  (ofChars raw.toList).mapError fun r => .invalidTarget s!"{raw}: {r.reason}"

def text (t : Target) : String := t.scheme ++ "://" ++ t.authority ++ "/" ++ t.endpoint

end Target

end Steering
