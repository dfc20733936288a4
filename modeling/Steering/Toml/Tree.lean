import Steering.Datum

/-!
# `Steering.Toml.Tree` — tables while they are being written

The lines of a document write into one tree of tables, and whether a line may write somewhere
depends on how the table there came about. A table is *stated* by its own header, *implied* by the
header of a table inside it, or *dotted* by a key with dots. Three rules decide every conflict:

* a header may state a table that is missing or only implied;
* a key with dots may pass through implied and dotted tables and the last elements of arrays of
  tables, and may write into a table that it creates or that dotted keys created;
* nothing extends a value: not a scalar, not an array and not an inline table.
-/

namespace Steering.Toml

/-- How a table came about. -/
inductive Origin where
  | stated
  | implied
  | dotted
  deriving DecidableEq, Inhabited, Repr

/-- A value, a table or an array of tables. -/
inductive Tree where
  | value (d : Datum)
  | table (origin : Origin) (entries : List (String × Tree))
  | tables (elements : List (List (String × Tree)))
  deriving Inhabited

/-- The entries of a table, in the order of writing. -/
abbrev Entries := List (String × Tree)

namespace Tree

def find? (key : String) : Entries → Option Tree
  | [] => none
  | (k, t) :: rest => if k = key then some t else find? key rest

def set (key : String) (t : Tree) : Entries → Entries
  | [] => [(key, t)]
  | (k, u) :: rest => if k = key then (k, t) :: rest else (k, u) :: set key t rest

/-- Writes inside the table that a path of keys with dots leads to, in the last element of every
array of tables on the way. The path starts in a table of the given origin. -/
def alongDots (write : Entries → Option Entries) (origin : Origin) :
    List String → Entries → Option Entries
  | [], entries => if origin = .dotted then write entries else none
  | key :: path, entries =>
    match find? key entries with
    | none => (alongDots write .dotted path []).map fun e => set key (.table .dotted e) entries
    | some (.table .stated _) | some (.value _) => none
    | some (.table inner e) =>
      (alongDots write inner path e).map fun e => set key (.table inner e) entries
    | some (.tables elements) =>
      match elements.reverse with
      | [] => none
      | last :: earlier =>
        (alongDots write .stated path last).map fun e =>
          set key (.tables (e :: earlier).reverse) entries

/-- Adds a value under a key with dots, given as the keys before the last one and the last one. -/
def addValue (path : List String) (key : String) (d : Datum) (entries : Entries) : Option Entries :=
  let write (e : Entries) : Option Entries :=
    if (find? key e).isSome then none else some (set key (.value d) e)
  match path with
  | [] => write entries
  | path => alongDots write .dotted path entries

/-- Writes inside the table that the keys of a header lead to, in the last element of every array
of tables on the way. -/
def alongHeader (write : Entries → Option Entries) : List String → Entries → Option Entries
  | [], entries => write entries
  | key :: path, entries =>
    match find? key entries with
    | none => (alongHeader write path []).map fun e => set key (.table .implied e) entries
    | some (.value _) => none
    | some (.table origin e) =>
      (alongHeader write path e).map fun e => set key (.table origin e) entries
    | some (.tables elements) =>
      match elements.reverse with
      | [] => none
      | last :: earlier =>
        (alongHeader write path last).map fun e => set key (.tables (e :: earlier).reverse) entries

/-- States the table of a header. -/
def stateTable (key : String) (entries : Entries) : Option Entries :=
  match find? key entries with
  | none => some (set key (.table .stated []) entries)
  | some (.table .implied e) => some (set key (.table .stated e) entries)
  | some _ => none

/-- Appends a table to the array of tables of a header. -/
def appendTable (key : String) (table entries : Entries) : Option Entries :=
  match find? key entries with
  | none => some (set key (.tables [table]) entries)
  | some (.tables elements) => some (set key (.tables (elements ++ [table])) entries)
  | some _ => none

mutual

def datum : Tree → Datum
  | value d => d
  | table _ entries => .table (data entries)
  | tables elements => .list (tableData elements)

def data : List (String × Tree) → List (String × Datum)
  | [] => []
  | (key, t) :: rest => (key, t.datum) :: data rest

/-- The finished data of an array of tables. -/
def tableData : List (List (String × Tree)) → List Datum
  | [] => []
  | e :: rest => .table (data e) :: tableData rest

end

end Tree

end Steering.Toml
