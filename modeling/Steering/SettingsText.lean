import Steering.FileTree
import Steering.Settings
import Steering.Toml.Document

/-!
# `Steering.SettingsText` — settings from a text or a file

Loading has four stages — the file, the document, its fields, the record as a whole — and each has
its own way to fail. A `Failure` says which stage failed and why; it becomes a configuration fault.
-/

namespace Steering.Settings

/-- The stage at which loading failed, and why. -/
inductive Failure where
  | file (path : String) (cause : ReadError)
  | document (cause : Toml.Refusal)
  | field (cause : Mismatch)
  | record (cause : Flaw)
  deriving DecidableEq, Inhabited, Repr

def Failure.fault : Failure → Fault
  | file path cause => .config s!"failed to read {path}: {cause.message}"
  | document cause => .config cause.message
  | field cause => .config cause.message
  | record cause => .config cause.message

/-- Reads a settings record from a datum and validates it. -/
def load (format : Format) (d : Datum) : Except Failure Settings :=
  match ofDatum format d with
  | .error e => .error (.field e)
  | .ok s =>
    match s.flaw? with
    | some flaw => .error (.record flaw)
    | none => .ok s

def ofText (text : String) : Except Failure Settings :=
  match Toml.parse text with
  | .error e => .error (.document e)
  | .ok d => load .toml d

/-- The text of a file's bytes. -/
def textOf (bytes : ByteArray) : Except ReadError String :=
  match String.fromUTF8? bytes with
  | some text => .ok text
  | none => .error .notUtf8

/-- Reads settings from a file, given what reading the file gave. -/
def ofFile (path : String) (content : Except ReadError ByteArray) : Except Failure Settings :=
  match content.bind textOf with
  | .error e => .error (.file path e)
  | .ok text => ofText text

end Steering.Settings
