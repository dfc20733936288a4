import Steering.Proofs.RoundRobin.Turn

/-!
# `Steering.Proofs.RoundRobin.Run` — sequences of calls

A round robin is called in two ways: the routing table tells it of a new snapshot, and a call asks
it for one of some candidates. The candidates of a pick need not have anything to do with the last
snapshot — filters drop and reorder them — so a run is any list of calls, and nothing in this file
relates one call to another.

A pick without candidates fails and changes nothing, so it may stand in a run.
-/

namespace Steering.RoundRobin

/-- A node of which only the address and the weight matter. -/
def plain (address : String) (weight : Int) : WeightedNode :=
  ⟨{ (default : Node) with address }, weight⟩

inductive Call where
  | update (nodes : List WeightedNode)
  | pick (nodes : List WeightedNode)

/-- The node that a call chooses, and the credits after it. -/
def Call.act (credits : Credits) : Call → Option WeightedNode × Credits
  | update nodes => (none, RoundRobin.update credits nodes)
  | pick nodes =>
    match RoundRobin.pick credits nodes with
    | some (n, after) => (some n, after)
    | none => (none, credits)

/-- The credits after some calls. -/
def after (credits : Credits) (calls : List Call) : Credits :=
  calls.foldl (fun credits call => (call.act credits).2) credits

/-- The nodes that some calls choose, in order. -/
def chosen (credits : Credits) : List Call → List WeightedNode
  | [] => []
  | call :: rest => (call.act credits).1.toList ++ chosen (call.act credits).2 rest

@[simp] theorem after_nil (credits : Credits) : after credits [] = credits := rfl

@[simp] theorem after_cons (credits : Credits) (call : Call) (rest : List Call) :
    after credits (call :: rest) = after (call.act credits).2 rest := rfl

/-- A prefix of a run is what has been done after some number of calls. -/
theorem exists_take_of_prefix {p calls : List Call} (h : p <+: calls) :
    ∃ k ≤ calls.length, p = calls.take k :=
  ⟨p.length, h.length_le, List.prefix_iff_eq_take.1 h⟩

/-- A pick either fails for want of candidates or is a turn of the node that it chooses. -/
theorem act_pick (credits : Credits) (nodes : List WeightedNode) :
    (nodes = [] ∧ (Call.pick nodes).act credits = (none, credits)) ∨
      ∃ n, ((Call.pick nodes).act credits).1 = some n ∧
        Turn credits nodes n ((Call.pick nodes).act credits).2 := by
  cases hp : pick credits nodes with
  | none =>
    refine Or.inl ⟨?_, by rw [Call.act, hp]⟩
    by_contra hne
    have := pick_isSome hne credits
    rw [hp] at this
    exact absurd this (by simp)
  | some r =>
    obtain ⟨n, t⟩ := r
    have ha : (Call.pick nodes).act credits = (some n, t) := by rw [Call.act, hp]
    rw [ha]
    exact Or.inr ⟨n, rfl, turn_of_pick hp⟩

theorem keys_update_subset {credits : Credits} {nodes : List WeightedNode} {a : String}
    (h : a ∈ (update credits nodes).keys) : a ∈ credits.keys := by
  rw [update, Table.keys_narrow] at h
  exact List.mem_of_mem_filter h

/-- An update keeps the credit of every address that it leaves in the table … -/
theorem of_update {credits : Credits} {nodes : List WeightedNode} {a : String}
    (h : a ∈ (update credits nodes).keys) : (update credits nodes).of a = credits.of a := by
  rw [update, Table.keys_narrow, List.mem_filter] at h
  rw [update, Credits.of_narrow, if_pos h.2]

/-- … and of every address of the new snapshot, in the table or not. -/
theorem of_update_of_mem {nodes : List WeightedNode} {a : String}
    (h : a ∈ nodes.map WeightedNode.address) (credits : Credits) :
    (update credits nodes).of a = credits.of a := by
  obtain ⟨m, hm, rfl⟩ := List.mem_map.1 h
  rw [update, Credits.of_narrow, if_pos]
  exact List.any_eq_true.2 ⟨m, hm, by simp⟩

end Steering.RoundRobin
