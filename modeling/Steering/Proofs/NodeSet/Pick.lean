import Steering.Proofs.NodeSet.Run
import Steering.Proofs.Ring.Follow
import Steering.Proofs.RoundRobin.Turn

/-!
# `Steering.Proofs.NodeSet.Pick` — when a pick succeeds, and what it may answer

Each of the three methods has its own way to come away with nothing: an index past the end, a key whose
ring has no candidate on it, no credit anywhere. None of them happens. Whatever state a balancer is in, a
ring that has nothing to do with the candidates included, it answers with one of the candidates as
soon as there is one (`Balancer.exists_pick`).

Hence a pick from a routing table fails only for want of a snapshot, and there is a snapshot from the
first save on that is not refused: a later save replaces it by another one, and picks leave it alone.
Filters are any functions on lists. They may throw every candidate out, or put in some that the
snapshot never had; a pick answers from what they leave, or from the snapshot if they leave nothing.

A save of a hashed table goes through two hash maps, so a run comes with the orders of each (`Visit`).
-/

namespace Steering

namespace Balancer

variable {nodes : List WeightedNode}

theorem exists_drawNode (h : nodes ≠ []) (stream : KeyStream) :
    ∃ n stream', drawNode stream nodes = some (n, stream') ∧ n ∈ nodes := by
  have hlt := KeyStream.draw64_lt (List.length_pos_iff.2 h) stream
  refine ⟨_, (stream.draw64 nodes.length).2, ?_, List.getElem_mem hlt⟩
  rw [drawNode, List.getElem?_eq_getElem hlt, Option.map_some]

theorem mem_of_pickByKey {ring : Ring String} {key : String} {n : WeightedNode}
    (h : pickByKey ring key nodes = some n) : n ∈ nodes := by
  obtain ⟨address, -, hfind⟩ := Option.bind_eq_some_iff.1 h
  exact List.mem_of_find?_eq_some hfind

/-- **A balancer with candidates picks one of them**, whatever state it is in. -/
theorem exists_pick (h : nodes ≠ []) (b : Balancer) (c : Context) :
    ∃ n b', b.pick c nodes = .ok (n, b') ∧ n ∈ nodes := by
  cases b with
  | random stream =>
    obtain ⟨n, stream', hdraw, hn⟩ := exists_drawNode h stream
    exact ⟨n, random stream', by simp [pick, pick?, hdraw], hn⟩
  | roundRobin credits =>
    obtain ⟨⟨n, t⟩, hpick⟩ := Option.isSome_iff_exists.1 (RoundRobin.pick_isSome h credits)
    exact ⟨n, roundRobin t, by simp [pick, pick?, hpick], (RoundRobin.turn_of_pick hpick).mem⟩
  | hashed ring stream =>
    cases hkey : c.hashKey?.bind fun key => pickByKey ring key nodes with
    | some n =>
      obtain ⟨key, -, hn⟩ := Option.bind_eq_some_iff.1 hkey
      exact ⟨n, hashed ring stream, by simp [pick, pick?, hkey], mem_of_pickByKey hn⟩
    | none =>
      -- no key, or no candidate on the ring: the answer is drawn
      obtain ⟨n, stream', hdraw, hn⟩ := exists_drawNode h stream
      exact ⟨n, hashed ring stream', by simp [pick, pick?, hkey, hdraw], hn⟩

end Balancer

namespace NodeSet

variable {s : NodeSet}

/-! ## What calls do to a table -/

/-- A pick moves the balancer on and leaves everything else as it is. -/
theorem exists_act_pick (s : NodeSet) (c : Context) (filters : List Filter) :
    ∃ b, ((Call.pick c filters).act s).2 = { s with balancer := b } := by
  rw [Call.act, pick_eq]
  by_cases hnone : s.nodes.isEmpty
  · rw [if_pos hnone]
    exact ⟨s.balancer, rfl⟩
  · rw [if_neg hnone]
    cases s.balancer.pick c (s.choices c filters) with
    | error f => exact ⟨s.balancer, rfl⟩
    | ok r => exact ⟨r.2, rfl⟩

@[simp] theorem nodes_act_pick (s : NodeSet) (c : Context) (filters : List Filter) :
    ((Call.pick c filters).act s).2.nodes = s.nodes := by
  obtain ⟨b, hb⟩ := exists_act_pick s c filters
  rw [hb]

theorem nodes_act_save (s : NodeSet) (nodes : List Node) :
    ((Call.save nodes).act s).2.nodes
      = if nodes.isEmpty then s.nodes else nodes.map s.rule.weigh := by
  rw [Call.act, save]
  split <;> rfl

theorem exists_act_eq (s : NodeSet) (call : Call) :
    ∃ nodes b, (call.act s).2 = { s with nodes, balancer := b } := by
  cases call with
  | save nodes =>
    rw [Call.act, save]
    split
    · exact ⟨s.nodes, s.balancer, rfl⟩
    · exact ⟨_, _, rfl⟩
  | pick c filters =>
    obtain ⟨b, hb⟩ := exists_act_pick s c filters
    exact ⟨s.nodes, b, hb⟩

theorem rule_act (s : NodeSet) (call : Call) : (call.act s).2.rule = s.rule := by
  obtain ⟨nodes, b, hact⟩ := exists_act_eq s call
  rw [hact]

theorem filters_act (s : NodeSet) (call : Call) : (call.act s).2.filters = s.filters := by
  obtain ⟨nodes, b, hact⟩ := exists_act_eq s call
  rw [hact]

/-! ## Visits -/

/-- A call, and the orders in which a ring's maps are gone through if it is a save. -/
structure Visit where
  call : Call
  dismiss : Shuffle String
  arrange : Shuffle (String × String)

def Visit.act (s : NodeSet) (v : Visit) : NodeSet :=
  match v.call, s.balancer with
  | .save nodes, .hashed ring stream =>
    if nodes.isEmpty then s
    else
      let weighted := nodes.map s.rule.weigh
      let ring := (ring.apply (Ring.Notice.op ⟨v.dismiss, v.arrange, weighted⟩)).1
      { s with nodes := weighted, balancer := .hashed ring stream }
  | call, _ => (call.act s).2

def visited (s : NodeSet) (visits : List Visit) : NodeSet := visits.foldl Visit.act s

/-- The table's own calls are visits in the orders in which members and nodes came. -/
theorem act_eq_visit (s : NodeSet) (call : Call) :
    (call.act s).2 = Visit.act s ⟨call, .keep _, .keep _⟩ := by
  rw [Visit.act]
  split
  · rename_i nodes ring stream hcall hb
    obtain rfl : call = .save nodes := hcall
    rw [Call.act, save, hb]
    split <;> rfl
  · rfl

theorem after_eq_visited (s : NodeSet) (calls : List Call) :
    after s calls = visited s (calls.map fun call => ⟨call, .keep _, .keep _⟩) := by
  induction calls generalizing s with
  | nil => rfl
  | cons call rest ih =>
    rw [after_cons, act_eq_visit, ih]
    rfl

/-- The orders are of no concern but to the ring. -/
theorem exists_visit_eq (s : NodeSet) (v : Visit) :
    ∃ b, Visit.act s v = { (v.call.act s).2 with balancer := b } := by
  obtain ⟨call, dismiss, arrange⟩ := v
  rw [Visit.act]
  split
  · rename_i nodes ring stream hcall hb
    obtain rfl : call = .save nodes := hcall
    rw [Call.act, save]
    split
    · exact ⟨s.balancer, rfl⟩
    · exact ⟨_, rfl⟩
  · exact ⟨_, rfl⟩

theorem filters_visited (s : NodeSet) (visits : List Visit) :
    (visited s visits).filters = s.filters := by
  induction visits generalizing s with
  | nil => rfl
  | cons v rest ih =>
    obtain ⟨b, hb⟩ := exists_visit_eq s v
    refine (ih (Visit.act s v)).trans ?_
    rw [hb]
    exact filters_act s v.call

/-- A table is empty exactly as long as every save has been refused. -/
theorem nodes_visited_eq_nil_iff (visits : List Visit) :
    (visited s visits).nodes = [] ↔
      s.nodes = [] ∧ ∀ v ∈ visits, ∀ nodes, v.call = .save nodes → nodes = [] := by
  induction visits generalizing s with
  | nil => simp [visited]
  | cons v rest ih =>
    obtain ⟨b, hb⟩ := exists_visit_eq s v
    refine (ih (s := Visit.act s v)).trans ?_
    rw [hb, List.forall_mem_cons, ← and_assoc]
    refine and_congr_left fun _ => ?_
    show (v.call.act s).2.nodes = [] ↔ _
    cases v.call with
    | pick c filters => simp
    | save nodes =>
      rw [nodes_act_save]
      cases nodes with
      | nil => simp
      | cons n more => simp

/-! ## Picks -/

theorem pick_of_nil (h : s.nodes = []) (c : Context) (filters : List Filter) :
    s.pick c filters = .error .noAvailableNode := by
  rw [pick, h]
  rfl

theorem exists_pick_mem (h : s.nodes ≠ []) (c : Context) (filters : List Filter) :
    ∃ n b, s.pick c filters = .ok (n, { s with balancer := b }) ∧ n ∈ s.choices c filters := by
  obtain ⟨n, b, hpick, hn⟩ := Balancer.exists_pick (choices_ne_nil h c filters) s.balancer c
  refine ⟨n, b, ?_, hn⟩
  rw [pick_eq, if_neg (by simpa using h), hpick]
  rfl

/-- Filters that pass everything leave the snapshot. -/
theorem choices_of_passing {filters : List Filter} {c : Context}
    (h : ∀ f ∈ s.filters ++ filters, ∀ nodes, f c nodes = nodes) : s.choices c filters = s.nodes := by
  have hrun : ∀ (fs : List Filter) (nodes : List WeightedNode),
      (∀ f ∈ fs, ∀ nodes, f c nodes = nodes) → Filter.run fs c nodes = nodes := by
    intro fs
    induction fs with
    | nil => intro nodes _; rfl
    | cons f rest ih =>
      intro nodes hfs
      show Filter.run rest c (f c nodes) = nodes
      rw [hfs f List.mem_cons_self nodes]
      exact ih nodes fun g hg => hfs g (List.mem_cons_of_mem f hg)
  rw [choices, candidates, hrun _ _ h, ite_self]

/-- The node that a pick answers with, and the balancer after it. -/
def outcome (s : NodeSet) (c : Context) (filters : List Filter) :
    Except Fault (WeightedNode × Balancer) :=
  (s.pick c filters).map fun (n, t) => (n, t.balancer)

theorem outcome_eq (s : NodeSet) (c : Context) (filters : List Filter) :
    s.outcome c filters
      = if s.nodes.isEmpty then .error .noAvailableNode
        else s.balancer.pick c (s.choices c filters) := by
  rw [outcome, pick_eq]
  by_cases hnone : s.nodes.isEmpty
  · rw [if_pos hnone, if_pos hnone]
    rfl
  · rw [if_neg hnone, if_neg hnone]
    cases s.balancer.pick c (s.choices c filters) <;> rfl

/-- **A pick succeeds exactly when there is a snapshot, and answers from the candidates.** In any run of
saves and picks on a new table, with any balancer, any filters of its own and any context, and in whatever
orders a ring's maps are gone through: a pick fails for want of a node exactly if no save so far was of a
list that is not empty. Otherwise it answers with a node that the table's filters and then the call's
leave of the snapshot, or with one of the snapshot if they leave none. And without filters it answers,
and leaves the balancer, as it does with filters that pass everything. -/
theorem pick_fails_iff_never_saved (new : NodeSet) (hnew : new.nodes = []) (visits : List Visit)
    (c : Context) (filters : List Filter) :
    let s := visited new visits
    let kept := (new.filters ++ filters).foldl (fun nodes f => f c nodes) s.nodes
    (s.pick c filters = .error .noAvailableNode ↔
        ∀ v ∈ visits, ∀ nodes, v.call = .save nodes → nodes = []) ∧
      ((∃ v ∈ visits, ∃ nodes, v.call = .save nodes ∧ nodes ≠ []) →
        ∃ n t, s.pick c filters = .ok (n, t) ∧
          (kept ≠ [] → n ∈ kept) ∧ (kept = [] → n ∈ s.nodes)) ∧
      ∀ own more : List Filter, (∀ f ∈ own ++ more, ∀ nodes, f c nodes = nodes) →
        outcome { s with filters := own } c more = outcome { s with filters := [] } c [] := by
  intro s kept
  have hempty : s.nodes = [] ↔ ∀ v ∈ visits, ∀ nodes, v.call = .save nodes → nodes = [] := by
    rw [nodes_visited_eq_nil_iff, and_iff_right hnew]
  refine ⟨?_, ?_, ?_⟩
  · rw [← hempty]
    constructor
    · intro hfails
      by_contra hne
      obtain ⟨n, b, hok, -⟩ := exists_pick_mem hne c filters
      rw [hok] at hfails
      cases hfails
    · intro hnil
      exact pick_of_nil hnil c filters
  · rintro ⟨v, hv, nodes, hsave, hnodes⟩
    have hne : s.nodes ≠ [] := fun hnil => hnodes (hempty.1 hnil v hv nodes hsave)
    obtain ⟨n, b, hok, hn⟩ := exists_pick_mem hne c filters
    have hkept : s.candidates c filters = kept := by
      rw [candidates, filters_visited]
      rfl
    rw [choices, hkept] at hn
    refine ⟨n, _, hok, ?_, ?_⟩
    · intro hsome
      rwa [if_neg (by simpa using hsome)] at hn
    · intro hnone
      rwa [if_pos (by simpa using hnone)] at hn
  · intro own more hpass
    rw [outcome_eq, outcome_eq, choices_of_passing (s := { s with filters := own }) hpass,
      choices_of_passing (s := { s with filters := [] }) (by simp)]

/-- A ring with a member that no table has, filters that turn the snapshot round or throw everything
out, and a call with a key. -/
theorem pick_fails_iff_never_saved_astray :
    let new : NodeSet :=
      { filters := [fun _ nodes => nodes.reverse]
        balancer := .hashed ((Ring.empty 3).add "z") default }
    let refused : Visit := ⟨.save [], .keep _, .keep _⟩
    let saved : Visit := ⟨.save [asking "a" 1, asking "b" 0], .keep _, .keep _⟩
    let s := visited new [refused, saved]
    let c : Context := { hashKey? := some "k" }
    new.nodes = [] ∧
      (visited new [refused]).pick c [] = .error .noAvailableNode ∧
      (∃ n t, s.pick c [] = .ok (n, t) ∧ n.address ∈ ["b", "a"]) ∧
      (∃ n t, s.pick c [fun _ _ => []] = .ok (n, t) ∧ n ∈ s.nodes) ∧
      outcome { s with filters := [fun _ nodes => nodes] } c [fun _ nodes => nodes ++ []]
        = outcome { s with filters := [] } c [] := by
  intro new refused saved s c
  have hnew : new.nodes = [] := rfl
  have hsaved : ∃ v ∈ [refused, saved], ∃ nodes, v.call = .save nodes ∧ nodes ≠ [] :=
    ⟨saved, by simp, [asking "a" 1, asking "b" 0], rfl, by simp⟩
  refine ⟨hnew, ?_, ?_, ?_, ?_⟩
  · refine (pick_fails_iff_never_saved new hnew [refused] c []).1.2 ?_
    simp [refused, eq_comm]
  · obtain ⟨n, t, hok, hkept, -⟩ := (pick_fails_iff_never_saved new hnew _ c []).2.1 hsaved
    have hmem := hkept (List.cons_ne_nil _ _)
    exact ⟨n, t, hok, List.mem_map_of_mem (f := WeightedNode.address) hmem⟩
  · obtain ⟨n, t, hok, -, hnone⟩ :=
      (pick_fails_iff_never_saved new hnew _ c [fun _ _ => []]).2.1 hsaved
    exact ⟨n, t, hok, hnone rfl⟩
  · refine (pick_fails_iff_never_saved new hnew _ c []).2.2 _ _ ?_
    simp

end NodeSet

end Steering
