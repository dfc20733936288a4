import Steering.Datum
import Steering.Service

/-!
# `Steering.Instance` — instances read from data

An instance is written as a table of its fields, or as a list of them in the order id, name,
version, endpoint, metadata. The version and the metadata may be left out; of the others the first
one missing is named.
-/

namespace Steering.Service

/-- What has been read of an instance so far. -/
structure Draft where
  id? : Option String := none
  name? : Option String := none
  version? : Option String := none
  endpoint? : Option String := none
  metadata? : Option Metadata := none

namespace Draft

def readMetadata : List (String × Datum) → Metadata → Except Mismatch Metadata
  | [], m => .ok m
  | (key, d) :: rest, m => (d.readText .json).bind fun v => readMetadata rest (m.insert key v)

/-- Sets the field of a key from a datum; an unknown key changes nothing. -/
def withField (s : Draft) (key : String) (d : Datum) : Except Mismatch Draft :=
  match key with
  | "id" => (d.readText .json).map fun v => { s with id? := some v }
  | "name" => (d.readText .json).map fun v => { s with name? := some v }
  | "version" => (d.readText .json).map fun v => { s with version? := some v }
  | "endpoint" => (d.readText .json).map fun v => { s with endpoint? := some v }
  | "metadata" =>
    match d with
    | .table entries =>
      (readMetadata (Datum.inKeyOrder entries) Table.empty).map fun v =>
        { s with metadata? := some v }
    | d => .error (d.refuse .json "a map")
  | _ => d.skip.map fun _ => s

/-- Sets the fields of a list of entries, from the first to the last. -/
def withFields (s : Draft) : List (String × Datum) → Except Mismatch Draft
  | [] => .ok s
  | (key, d) :: rest => (s.withField key d).bind fun t => t.withFields rest

/-- The instance, if nothing that it needs is missing; `missing` words the refusal from the field's
place and name. -/
def finish (s : Draft) (missing : Nat → String → Mismatch) : Except Mismatch Service :=
  match s.id?, s.name?, s.endpoint? with
  | none, _, _ => .error (missing 0 "id")
  | some _, none, _ => .error (missing 1 "name")
  | some _, some _, none => .error (missing 3 "endpoint")
  | some id, some name, some endpoint =>
    .ok
      { id
        name
        version := s.version?.getD ""
        endpoint
        metadata := s.metadata?.getD Table.empty }

end Draft

/-- The keys, in the order of declaration. -/
def keys : List String := ["id", "name", "version", "endpoint", "metadata"]

def ofDatum (d : Datum) : Except Mismatch Service :=
  match d with
  | .table entries => do
    let s ← Draft.withFields {} (Datum.inKeyOrder entries)
    s.finish fun _ name => .missingField name
  | .list elements => do
    let s ← Draft.withFields {} (keys.zip elements)
    let service ← s.finish fun place _ => .invalidLength place "struct Service with 5 elements"
    if keys.length < elements.length then
      throw (.invalidLength elements.length "fewer elements in array")
    return service
  | d => .error (d.refuse .json "struct Service")

end Steering.Service
