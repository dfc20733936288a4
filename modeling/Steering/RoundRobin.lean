import Steering.Filter

/-!
# `Steering.RoundRobin` — smooth weighted round robin

Every address has a *credit*. A pick pays each candidate its effective weight, chooses the first
candidate with the greatest credit, and charges it everything that was paid out. Credits therefore
add up to a constant, a heavy node is chosen in proportion to its weight, and its turns are spread
over the sequence instead of coming in a burst.

A pick walks the candidates once and keeps three things (`Round`): the credits so far, what has been
paid out, and the leader with the credit it had when it took the lead. An address may occur several
times among the candidates; it is then paid once per occurrence, and the charge is taken from the
credit that the leader had at the moment it took the lead.

Credits are integers without bound.
-/

namespace Steering

/-- The credit of each address; an address that is missing has no credit yet. -/
abbrev Credits := Table String Int

namespace Credits

/-- The credit of an address, zero if it has none yet. -/
def of (t : Credits) (address : String) : Int := (t.get? address).getD 0

theorem of_eq {t : Credits} {a : String} {c : Int} (h : t.get? a = some c) : t.of a = c := by
  rw [of, h]
  rfl

theorem of_eq_zero {t : Credits} {a : String} (h : a ∉ t.keys) : t.of a = 0 := by
  rw [Table.mem_keys_iff, Table.contains] at h
  rw [of, Option.not_isSome_iff_eq_none.1 h]
  rfl

theorem get?_eq_some_iff {t : Credits} {a : String} {c : Int} :
    t.get? a = some c ↔ a ∈ t.keys ∧ t.of a = c := by
  rw [Table.mem_keys_iff, Table.contains, of]
  cases t.get? a <;> simp

@[simp] theorem of_empty (a : String) : of Table.empty a = 0 := rfl

@[simp] theorem of_insert (t : Credits) (a b : String) (c : Int) :
    of (t.insert a c) b = if a = b then c else t.of b := by
  simp only [of, Table.get?_insert]
  split <;> rfl

@[simp] theorem of_narrow (t : Credits) (p : String → Bool) (a : String) :
    of (t.narrow p) a = if p a then t.of a else 0 := by
  simp only [of, Table.get?_narrow]
  split <;> rfl

end Credits

namespace RoundRobin

/-- A walk along the candidates. -/
structure Round where
  credits : Credits
  paid : Int := 0
  leader? : Option (WeightedNode × Int) := none

/-- The leader after a candidate with a credit has been seen: it has to be exceeded, not equalled.
-/
def lead (leader? : Option (WeightedNode × Int)) (n : WeightedNode) (credit : Int) :
    WeightedNode × Int :=
  match leader? with
  | some (m, best) => if credit ≤ best then (m, best) else (n, credit)
  | none => (n, credit)

def Round.pay (r : Round) (n : WeightedNode) : Round :=
  let credit := r.credits.of n.address + n.effective
  { credits := r.credits.insert n.address credit
    paid := r.paid + n.effective
    leader? := some (lead r.leader? n credit) }

def payAll (credits : Credits) (nodes : List WeightedNode) : Round :=
  nodes.foldl Round.pay { credits }

/-- Chooses a node and charges it; there is none to choose exactly if there is no candidate. -/
def pick (credits : Credits) (nodes : List WeightedNode) : Option (WeightedNode × Credits) :=
  let round := payAll credits nodes
  round.leader?.map fun (n, best) => (n, round.credits.insert n.address (best - round.paid))

/-- Forgets the addresses that are gone. An address that comes back starts anew. -/
def update (credits : Credits) (nodes : List WeightedNode) : Credits :=
  credits.narrow fun address => nodes.any fun n => n.address = address

end RoundRobin

end Steering
