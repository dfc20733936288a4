import Steering.Proofs.NodeSet.Run
import Steering.Proofs.RoundRobin.Run
import Steering.Proofs.RoundRobin.Winner

/-!
# `Steering.Proofs.NodeSet.Drained` — when a node without weight gets no calls

A node is drained by giving it the weight zero. The round robin compares credits and not weights, and
credits outlive the snapshot that they were earned under, so a drained node is chosen as long as what it
has left **outbids** everybody else (`drained_iff_outbid`).

Three things can bring that about: a node is drained while it has credit; a node leaves while it has
credit, so that those who stay have less than nothing together; or a filter keeps a node with weight
out of a pick, with the same effect. `drained_chosen` has one run of each kind. If none of the three
happens — every address with credit keeps some weight, and filters let every address with weight
through — then the table stays `Solvent`: the credits add up to no less than zero, and all of what is
above zero belongs to addresses with weight. In a solvent table somebody with weight is always ahead.
-/

namespace Steering

open RoundRobin

namespace RoundRobin

/-- Credits that add up to no less than zero, with nothing above zero at an address without weight. -/
structure Solvent (t : Credits) (nodes : List WeightedNode) : Prop where
  sum_nonneg : ∀ S : Finset String, (∀ a ∈ t.keys, a ∈ S) → 0 ≤ ∑ a ∈ S, t.of a
  weighs : ∀ a, 0 < t.of a → Weighs nodes a

theorem mem_keys_of_pos {t : Credits} {a : String} (h : 0 < t.of a) : a ∈ t.keys := by
  by_contra hk
  exact absurd (Credits.of_eq_zero hk) (ne_of_gt h)

theorem solvent_empty : Solvent Table.empty [] where
  sum_nonneg S _ := by simp
  weighs a h := absurd h (lt_irrefl 0)

namespace Solvent

variable {t t' : Credits} {nodes fresh : List WeightedNode} {n : WeightedNode}

/-- An update that keeps every address with credit on the list forgets debts only. -/
theorem update (h : Solvent t nodes) (hkeep : ∀ a, 0 < t.of a → Weighs fresh a) :
    Solvent (RoundRobin.update t fresh) fresh := by
  have hle : ∀ a, t.of a ≤ (RoundRobin.update t fresh).of a := by
    intro a
    by_cases hcredit : 0 < t.of a
    · obtain ⟨m, hm, rfl, -⟩ := hkeep a hcredit
      rw [of_update_of_mem (List.mem_map_of_mem hm)]
    · by_cases hk : a ∈ (RoundRobin.update t fresh).keys
      · rw [of_update hk]
      · -- whoever is gone had no credit to lose
        rw [Credits.of_eq_zero hk]
        exact not_lt.1 hcredit
  constructor
  · intro S hS
    -- the credits that the old table had elsewhere have been forgotten
    have hsub : ∑ a ∈ S, (RoundRobin.update t fresh).of a
        = ∑ a ∈ S ∪ t.keys.toFinset, (RoundRobin.update t fresh).of a := by
      refine Finset.sum_subset Finset.subset_union_left fun a _ ha => ?_
      exact Credits.of_eq_zero fun hk => ha (hS a hk)
    have hold := h.sum_nonneg (S ∪ t.keys.toFinset) fun a ha =>
      Finset.mem_union_right S (List.mem_toFinset.2 ha)
    rw [hsub]
    exact le_trans hold (Finset.sum_le_sum fun a _ => hle a)
  · intro a ha
    rw [of_update (mem_keys_of_pos ha)] at ha
    exact hkeep a ha

/-- A turn moves credit among its candidates, and pays only those with weight. -/
theorem turn (h : Solvent t nodes) {cs : List WeightedNode} (ht : Turn t cs n t')
    (hcs : ∀ a, Weighs cs a ↔ Weighs nodes a) : Solvent t' nodes := by
  constructor
  · intro S hS
    have hcandidates : ∀ m ∈ cs, m.address ∈ S := fun m hm =>
      hS _ ((ht.mem_keys _).2 (Or.inr (List.mem_map_of_mem hm)))
    rw [ht.sum_of hcandidates]
    exact h.sum_nonneg S fun a ha => hS a ((ht.mem_keys a).2 (Or.inl ha))
  · intro a ha
    by_cases hbefore : 0 < t.of a
    · exact h.weighs a hbefore
    · have htotal := total_nonneg cs
      rw [ht.of] at ha
      refine (hcs a).1 (gain_pos_iff.1 ?_)
      split at ha <;> omega

/-- Once candidates with weight are paid, somebody has more than nothing. -/
theorem exists_credit_pos (h : Solvent t nodes) {cs : List WeightedNode} {p : WeightedNode}
    (hp : p ∈ cs) (hw : 0 < p.weight) : ∃ a, 0 < t.of a + gain cs a := by
  let S : Finset String := t.keys.toFinset ∪ (cs.map WeightedNode.address).toFinset
  have hsum : 0 ≤ ∑ a ∈ S, t.of a := h.sum_nonneg S fun a ha =>
    Finset.mem_union_left _ (List.mem_toFinset.2 ha)
  have hgain : ∑ a ∈ S, gain cs a = total cs := sum_gain_eq fun m hm =>
    Finset.mem_union_right _ (List.mem_toFinset.2 (List.mem_map_of_mem hm))
  have hpaid : 0 < total cs := by
    refine lt_of_lt_of_le (gain_pos_iff.2 ⟨p, hp, rfl, hw⟩) ?_
    have := sum_gain_le cs {p.address}
    rwa [Finset.sum_singleton] at this
  by_contra hnone
  have hnonpos : ∑ a ∈ S, (t.of a + gain cs a) ≤ 0 :=
    Finset.sum_nonpos fun a _ => not_lt.1 fun ha => hnone ⟨a, ha⟩
  rw [Finset.sum_add_distrib] at hnonpos
  omega

/-- **In a solvent table a candidate with weight is chosen**, if there is one. -/
theorem weight_pos (h : Solvent t nodes) {cs : List WeightedNode}
    (hcs : ∀ a, Weighs cs a ↔ Weighs nodes a) (hpick : pick t cs = some (n, t'))
    {p : WeightedNode} (hp : p ∈ cs) (hw : 0 < p.weight) : 0 < n.effective := by
  have hspent : ∀ a, ¬ 0 < gain cs a → t.of a ≤ 0 := by
    intro a ha
    by_contra hcredit
    rw [not_le] at hcredit
    exact ha (gain_pos_iff.2 ((hcs a).2 (h.weighs a hcredit)))
  by_contra hdrained
  have hzero := gain_eq_zero_of_pick hpick (le_antisymm (not_lt.1 hdrained) n.effective_nonneg)
  have htop := hspent n.address (by omega)
  -- somebody has more than nothing when all are paid, but the winner has not
  obtain ⟨a, ha⟩ := h.exists_credit_pos hp hw
  by_cases hmem : a ∈ cs.map WeightedNode.address
  · obtain ⟨m, hm, rfl⟩ := List.mem_map.1 hmem
    have := (turn_of_pick hpick).leads m hm
    omega
  · have hnone := gain_eq_zero hmem
    have := hspent a (by omega)
    omega

end Solvent

end RoundRobin

namespace NodeSet

def unfilled (rule : WeightRule) (filters : List Filter) : NodeSet :=
  { rule, filters, balancer := .roundRobin Table.empty }

/-- The credits of a table that is balanced by round robin. -/
def credits (s : NodeSet) : Credits :=
  match s.balancer with
  | .roundRobin t => t
  | _ => Table.empty

/-- A call that leaves no credit without weight: a save that keeps weight wherever there is credit, or
a pick whose filters let exactly the addresses with weight through. -/
def Call.Orderly (s : NodeSet) : Call → Prop
  | save nodes => nodes ≠ [] → ∀ a, 0 < s.credits.of a → Weighs (nodes.map s.rule.weigh) a
  | pick c filters => ∀ a, Weighs (s.choices c filters) a ↔ Weighs s.nodes a

def Orderly (s : NodeSet) : List Call → Prop
  | [] => True
  | call :: rest => call.Orderly s ∧ Orderly (call.act s).2 rest

section

variable {s : NodeSet} {t : Credits}

theorem act_save (h : s.balancer = .roundRobin t) (nodes : List Node) :
    ((Call.save nodes).act s).2
      = if nodes.isEmpty then s
        else { s with nodes := nodes.map s.rule.weigh
                      balancer := .roundRobin (RoundRobin.update t (nodes.map s.rule.weigh)) } := by
  rw [Call.act, save, h]
  split <;> rfl

theorem exists_pick (h : s.balancer = .roundRobin t) (hne : s.nodes ≠ []) (c : Context)
    (filters : List Filter) :
    ∃ n t', RoundRobin.pick t (s.choices c filters) = some (n, t') ∧
      s.pick c filters = .ok (n, { s with balancer := .roundRobin t' }) := by
  obtain ⟨⟨n, t'⟩, hpick⟩ :=
    Option.isSome_iff_exists.1 (pick_isSome (choices_ne_nil hne c filters) t)
  refine ⟨n, t', hpick, ?_⟩
  rw [pick_eq, if_neg (by simpa using hne), h, Balancer.pick, Balancer.pick?, hpick]
  rfl

theorem act_pick (h : s.balancer = .roundRobin t) (c : Context) (filters : List Filter) :
    (s.nodes = [] ∧ ((Call.pick c filters).act s).2 = s) ∨
      ∃ n t', Turn t (s.choices c filters) n t' ∧
        ((Call.pick c filters).act s).2 = { s with balancer := .roundRobin t' } := by
  by_cases hne : s.nodes = []
  · refine Or.inl ⟨hne, ?_⟩
    rw [Call.act, pick_eq, hne]
    rfl
  · obtain ⟨n, t', hpick, hok⟩ := exists_pick h hne c filters
    exact Or.inr ⟨n, t', turn_of_pick hpick, by rw [Call.act, hok]⟩

theorem exists_credits_act (h : s.balancer = .roundRobin t) (call : Call) :
    ∃ t', (call.act s).2.balancer = .roundRobin t' := by
  cases call with
  | save nodes =>
    rw [act_save h]
    split
    · exact ⟨t, h⟩
    · exact ⟨_, rfl⟩
  | pick c filters =>
    rcases act_pick h c filters with ⟨-, hact⟩ | ⟨n, t', -, hact⟩
    · exact ⟨t, by rw [hact]; exact h⟩
    · exact ⟨t', by rw [hact]⟩

theorem exists_credits_after (h : s.balancer = .roundRobin t) (calls : List Call) :
    ∃ t', (after s calls).balancer = .roundRobin t' := by
  induction calls generalizing s t with
  | nil => exact ⟨t, h⟩
  | cons call rest ih =>
    obtain ⟨t', h'⟩ := exists_credits_act h call
    exact ih h'

theorem credits_eq (h : s.balancer = .roundRobin t) : s.credits = t := by
  rw [credits, h]

/-- **An orderly call keeps a table solvent.** -/
theorem solvent_act (h : s.balancer = .roundRobin t) (hs : Solvent s.credits s.nodes) {call : Call}
    (hcall : call.Orderly s) : Solvent (call.act s).2.credits (call.act s).2.nodes := by
  cases call with
  | save nodes =>
    rw [act_save h]
    split
    · exact hs
    · rename_i hne
      rw [List.isEmpty_iff] at hne
      rw [credits_eq h] at hs
      have hkeep := hcall hne
      rw [credits_eq h] at hkeep
      exact hs.update hkeep
  | pick c filters =>
    rcases act_pick h c filters with ⟨-, hact⟩ | ⟨n, t', hturn, hact⟩
    · rw [hact]
      exact hs
    · rw [hact]
      rw [credits_eq h] at hs
      exact hs.turn hturn hcall

theorem solvent_after (h : s.balancer = .roundRobin t) (hs : Solvent s.credits s.nodes)
    {calls : List Call} (hcalls : Orderly s calls) :
    Solvent (after s calls).credits (after s calls).nodes := by
  induction calls generalizing s t with
  | nil => exact hs
  | cons call rest ih =>
    obtain ⟨t', h'⟩ := exists_credits_act h call
    exact ih h' (solvent_act h hs hcalls.1) hcalls.2

end

/-- **A drained node is chosen exactly if it outbids the others, and never in an orderly run.** In any
run of a table that is balanced by round robin, a pick that has a candidate with weight chooses one of
its candidates. The one that it chooses has weight unless one without weight has as much credit left as
everybody has when all are paid; and if every call so far was orderly, none has. -/
theorem drained_iff_outbid (rule : WeightRule) (filters : List Filter) (calls : List Call)
    (c : Context) (more : List Filter) :
    let s := after (unfilled rule filters) calls
    s.nodes ≠ [] → (∃ p ∈ s.choices c more, 0 < p.weight) →
      ∃ n s', s.pick c more = .ok (n, s') ∧ n ∈ s.choices c more ∧
        (¬ 0 < n.weight ↔ Outbid s.credits (s.choices c more)) ∧
        (Orderly (unfilled rule filters) calls → (Call.pick c more).Orderly s → 0 < n.weight) := by
  intro s hne hp
  obtain ⟨p, hp, hw⟩ := hp
  obtain ⟨t, ht⟩ := exists_credits_after (s := unfilled rule filters) rfl calls
  obtain ⟨n, t', hpick, hok⟩ := exists_pick ht hne c more
  have hcredits : s.credits = t := credits_eq ht
  have hweight : ¬ 0 < n.weight ↔ n.effective = 0 := by
    rw [WeightedNode.effective]
    omega
  refine ⟨n, _, hok, (turn_of_pick hpick).mem, ?_, fun hcalls hlast => ?_⟩
  · rw [hcredits, hweight]
    exact effective_eq_zero_iff hpick
  · have hsolvent : Solvent s.credits s.nodes :=
      solvent_after (s := unfilled rule filters) rfl solvent_empty hcalls
    rw [hcredits] at hsolvent
    have hpos := hsolvent.weight_pos hlast hpick hp hw
    by_contra hdrained
    have := hweight.1 hdrained
    omega

/-- `a` is drained while all the credit is with `b`. -/
def drainInTurn : List Call :=
  [.save [asking "a" 1, asking "b" 1], .pick default [], .save [asking "a" 0, asking "b" 1]]

theorem orderly_drainInTurn : Orderly (unfilled default []) drainInTurn := by
  refine ⟨fun _ a ha => absurd ha (lt_irrefl 0), fun a => Iff.rfl, fun _ a ha => ?_, trivial⟩
  change 0 < (after (unfilled default []) (drainInTurn.take 2)).credits.of a at ha
  have hmem : a ∈ ["a", "b"] := mem_keys_of_pos ha
  rw [List.mem_cons, List.mem_singleton] at hmem
  rcases hmem with rfl | rfl
  · exact absurd ha (by decide)
  · exact ⟨_, List.mem_cons_of_mem _ List.mem_cons_self, rfl, by decide⟩

theorem drained_iff_outbid_in_turn :
    let s := after (unfilled default []) drainInTurn
    s.nodes ≠ [] ∧ (∃ p ∈ s.choices default [], 0 < p.weight) ∧
      Orderly (unfilled default []) drainInTurn ∧
      ∃ n s', s.pick default [] = .ok (n, s') ∧ 0 < n.weight := by
  intro s
  have hne : s.nodes ≠ [] := List.cons_ne_nil _ _
  have hp : ∃ p ∈ s.choices default [], 0 < p.weight :=
    ⟨_, List.mem_cons_of_mem _ List.mem_cons_self, by decide⟩
  obtain ⟨n, s', hok, -, -, hpos⟩ := drained_iff_outbid default [] drainInTurn default [] hne hp
  exact ⟨hne, hp, orderly_drainInTurn, n, s', hok, hpos orderly_drainInTurn fun a => Iff.rfl⟩

/-- The address and the weight of the node that a pick at the end of some calls gives, if any. -/
def picked (calls : List Call) (more : List Filter) : Option (String × Int) :=
  ((Call.pick default more).act (after (unfilled default []) calls)).1.map fun n =>
    (n.address, n.weight)

/-- Three ways for a node without weight to be chosen although `a` has weight: `b` is drained while it
has credit; `b` leaves while it has credit, and a node without weight comes; `b` is filtered out. -/
theorem drained_chosen :
    picked [.save [asking "a" 1, asking "b" 1], .pick default [],
      .save [asking "a" 1, asking "b" 0]] [] = some ("b", 0) ∧
    picked [.save [asking "a" 1, asking "b" 1], .pick default [],
      .save [asking "z" 0, asking "a" 1]] [] = some ("z", 0) ∧
    picked [.save [asking "z" 0, asking "a" 1, asking "b" 1], .pick default []]
      [fun _ nodes => nodes.filter fun n => n.address ≠ "b"] = some ("z", 0) := by
  decide

end NodeSet

end Steering
