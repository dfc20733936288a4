import Steering.Text.Split

/-!
# `Steering.FileTree` — what a path leads to

A path is followed name by name through a tree of directories and files. A double dot goes back to
the directory above, and the root is above itself; an empty name and a single dot stay, but like
every other name they need a directory to stay in. So a name behind a file is refused for the file,
before anybody looks at what the name is, and a name in a directory is refused for its length before
anybody looks for it.

`standard` holds the places that every system has by convention. Which other files there are is
unknown, so they are not in it: a path to one of them leads nowhere.
-/

namespace Steering

inductive ReadError where
  | notFound
  | notADirectory
  | isDirectory
  | nameTooLong
  | noDevice
  | nulInPath
  | notUtf8
  deriving DecidableEq, Inhabited, Repr

def ReadError.message : ReadError → String
  | notFound => "No such file or directory (os error 2)"
  | notADirectory => "Not a directory (os error 20)"
  | isDirectory => "Is a directory (os error 21)"
  | nameTooLong => "File name too long (os error 36)"
  | noDevice => "No such device or address (os error 6)"
  | nulInPath => "file name contained an unexpected NUL byte"
  | notUtf8 => "stream did not contain valid UTF-8"

inductive FileTree where
  | file (bytes : ByteArray)
  | directory (entries : List (String × FileTree))
  /-- A file that cannot be read. -/
  | sealed (cause : ReadError)
  deriving Inhabited

namespace FileTree

def maxNameSize : Nat := 255

def maxPathSize : Nat := 4095

/-- Follows names from a place, with the directories above it from the nearest to the root. -/
def follow (above : List FileTree) (place : FileTree) : List String → Except ReadError FileTree
  | [] => .ok place
  | name :: rest =>
    match place with
    | .file _ | .sealed _ => .error .notADirectory
    | .directory entries =>
      if name = "" ∨ name = "." then follow above place rest
      else if name = ".." then
        match above with
        | [] => follow [] place rest
        | parent :: above => follow above parent rest
      else if maxNameSize < name.utf8ByteSize then .error .nameTooLong
      else
        match entries.lookup name with
        | some next => follow (place :: above) next rest
        | none => .error .notFound

def bytes : FileTree → Except ReadError ByteArray
  | .file bytes => .ok bytes
  | .directory _ => .error .isDirectory
  | .sealed cause => .error cause

/-- What the file at a path holds. A path that does not start at the root starts in a directory of
which nothing is known but that it is empty and that the root is above it. -/
def read (root : FileTree) (path : String) : Except ReadError ByteArray :=
  if '\x00' ∈ path.toList then .error .nulInPath
  else if path.isEmpty then .error .notFound
  else if maxPathSize < path.utf8ByteSize then .error .nameTooLong
  else
    let names := (Text.pieces '/' path.toList).map String.ofList
    let place? :=
      if path.startsWith "/" then follow [] root names else follow [root] (.directory []) names
    place?.bind bytes

def ofNames (names : List String) : FileTree :=
  .directory (names.map fun name => (name, .directory []))

/-- The devices that can be read to an end, and the directories of devices. The null device is
empty, and behind the terminal there is nobody. -/
def devices : FileTree :=
  .directory
    [("null", .file ByteArray.empty), ("tty", .sealed .noDevice), ("fd", .directory []),
      ("pts", .directory []), ("shm", .directory [])]

/-- The tables of users, groups and hosts, with the line that each starts with. -/
def tables : FileTree :=
  .directory
    [("passwd", .file "root:x:0:0:root:/root:/bin/sh\n".toUTF8),
      ("group", .file "root:x:0:\n".toUTF8), ("hosts", .file "127.0.0.1\tlocalhost\n".toUTF8)]

/-- The names of directories of which nothing more is known. -/
def plainNames : List String :=
  ["bin", "boot", "home", "lib", "lib64", "media", "mnt", "opt", "proc", "root", "run", "sbin",
    "srv", "sys", "tmp"]

/-- The places that every system has by convention. -/
def standard : FileTree :=
  .directory
    ([("dev", devices), ("etc", tables),
      ("usr", ofNames ["bin", "include", "lib", "local", "sbin", "share", "src"]),
      ("var", ofNames ["cache", "lib", "local", "lock", "log", "mail", "opt", "run", "spool",
        "tmp"])]
      ++ plainNames.map fun name => (name, .directory []))

/-- A file is the end of its path: nothing can follow its name, not even a slash. -/
theorem follow_file (above : List FileTree) (bytes : ByteArray) (name : String)
    (rest : List String) : follow above (.file bytes) (name :: rest) = .error .notADirectory := rfl

/-- The root is above itself. -/
theorem follow_dots (entries : List (String × FileTree)) (rest : List String) :
    follow [] (.directory entries) (".." :: rest) = follow [] (.directory entries) rest := by
  rw [follow]
  simp

end FileTree

end Steering
