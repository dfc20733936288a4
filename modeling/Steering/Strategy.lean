/-!
# `Steering.Strategy` — the names of the balancing methods

There are three methods, each with one canonical name. Reading a method from a text is generous: it
knows a few other spellings, takes a hyphen for an underscore and disregards case. Case is folded
as Unicode does, but a folded text can only equal a name if it is ASCII, and the one letter outside
ASCII that folds to an ASCII letter is the Kelvin sign; so folding ASCII letters and that sign
decides every text correctly.
-/

namespace Steering

inductive Strategy where
  | random
  | weightedRoundRobin
  | consistentHash
  deriving DecidableEq, Inhabited, Repr

namespace Strategy

def name : Strategy → String
  | random => "random"
  | weightedRoundRobin => "weighted_round_robin"
  | consistentHash => "consistent_hash"

/-- All methods, in the order in which messages list them. -/
def all : List Strategy := [random, weightedRoundRobin, consistentHash]

theorem mem_all (s : Strategy) : s ∈ all := by cases s <;> decide

/-- Every spelling that is understood. -/
def spellings : List (String × Strategy) :=
  [("random", random), ("weighted_round_robin", weightedRoundRobin),
    ("weightedroundrobin", weightedRoundRobin), ("wrr", weightedRoundRobin),
    ("consistent_hash", consistentHash), ("consistenthash", consistentHash),
    ("ketama", consistentHash)]

/-- The lower case of the letters that can occur in a spelling. -/
def foldCase (c : Char) : Char := if c.toNat = 0x212a then 'k' else c.toLower

/-- A text in the form in which spellings are compared. -/
def normalize (text : String) : String :=
  String.ofList (text.toList.map fun c => if c = '-' then '_' else foldCase c)

def ofText (text : String) : Except String Strategy :=
  match spellings.lookup (normalize text) with
  | some s => .ok s
  | none => .error s!"Unknown load balance strategy: {text}"

end Strategy

end Steering
