import Steering.NodeSet

/-!
# `Steering.Proofs.NodeSet.Run` — a routing table in use

A routing table is used in two ways: a new snapshot is saved, and a call asks for a node. Saves and
picks come in any order, a save may be refused, and a pick may fail for want of a snapshot; neither
changes the table then.

A pick has a shortcut for tables and calls without filters. It makes no difference (`pick_eq`): without
filters the candidates are the snapshot. Later files know picks by that equation alone.
-/

namespace Steering.NodeSet

/-- A node of which only the address and the weight matter. -/
def asking (address : String) (weight : Int) : Node :=
  { (default : Node) with address, wish? := some weight }

inductive Call where
  | save (nodes : List Node)
  | pick (c : Context) (filters : List Filter)

/-- The node that a call is steered to, and the table after it. -/
def Call.act (s : NodeSet) : Call → Option WeightedNode × NodeSet
  | save nodes => (none, (s.save nodes).1)
  | pick c filters =>
    match s.pick c filters with
    | .ok (n, s) => (some n, s)
    | .error _ => (none, s)

/-- A table after some calls. -/
def after (s : NodeSet) (calls : List Call) : NodeSet := calls.foldl (fun s call => (call.act s).2) s

@[simp] theorem after_nil (s : NodeSet) : after s [] = s := rfl

@[simp] theorem after_cons (s : NodeSet) (call : Call) (rest : List Call) :
    after s (call :: rest) = after (call.act s).2 rest := rfl

/-- **A pick asks the balancer for one of the choices**, with filters or without. -/
theorem pick_eq (s : NodeSet) (c : Context) (filters : List Filter) :
    s.pick c filters
      = if s.nodes.isEmpty then .error .noAvailableNode
        else (s.balancer.pick c (s.choices c filters)).map fun (n, b) =>
          (n, { s with balancer := b }) := by
  rw [pick]
  by_cases hnone : s.filters.isEmpty && filters.isEmpty
  · -- nothing to run, so the candidates are the snapshot
    have hchoices : s.choices c filters = s.nodes := by
      rw [Bool.and_eq_true, List.isEmpty_iff, List.isEmpty_iff] at hnone
      have hall : s.candidates c filters = s.nodes := by
        rw [candidates, hnone.1, hnone.2]
        rfl
      rw [choices, hall, ite_self]
    rw [if_pos hnone, hchoices]
  · rw [if_neg hnone]

theorem choices_ne_nil {s : NodeSet} (h : s.nodes ≠ []) (c : Context) (filters : List Filter) :
    s.choices c filters ≠ [] := by
  rw [choices]
  split
  · exact h
  · rename_i hne
    rw [List.isEmpty_iff] at hne
    exact hne

end Steering.NodeSet
