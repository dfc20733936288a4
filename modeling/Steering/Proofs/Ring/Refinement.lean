import Steering.Proofs.Ring.Lookup

/-!
# `Steering.Proofs.Ring.Refinement` — no sequence of operations tells a ring from its roster

A ring and a roster are driven by the same operations. Each step keeps the ring laid out as the
roster's members (`Laid.apply`), so a whole run does (`Laid.run`), and whatever can be asked of a ring
in that state — a lookup with any test, membership, size, what `remove` and `reconcile` reported on the
way — has the roster's answer.

Reconciling iterates over two hash maps, so what leaves and what joins does so in some order that
nobody chooses. Each `reconcile` of a run therefore carries two orders of its own, a `Shuffle` of the
stale texts and one of the wanted nodes. The roster takes note only of the second: which order stale
members leave in is not visible.
-/

namespace Steering

/-- An order to put lists in. -/
structure Shuffle (β : Type) where
  order : List β → List β
  perm : ∀ l, (order l).Perm l

/-- The order in which a list is already. -/
def Shuffle.keep (β : Type) : Shuffle β := ⟨id, List.Perm.refl⟩

/-- The order of a list from its end. -/
def Shuffle.backward (β : Type) : Shuffle β := ⟨List.reverse, List.reverse_perm⟩

namespace Ring

section

variable {α : Type} [ToString α]

/-- An operation that changes a ring. -/
inductive Op (α : Type) where
  | add (a : α)
  | addReplicas (a : α) (n : Nat)
  | addWeight (a : α) (weight : Nat)
  | remove (a : α)
  | reconcile (dismiss : Shuffle String) (arrange : Shuffle (String × α)) (nodes : List α)

/-- What an operation makes of a ring, and what it reports. -/
def apply (r : Ring α) : Op α → Ring α × Option Bool
  | .add a => (r.add a, none)
  | .addReplicas a n => (r.addReplicas a n, none)
  | .addWeight a weight => (r.addWeight a weight, none)
  | .remove a => ((r.remove a).1, some (r.remove a).2)
  | .reconcile dismiss arrange nodes =>
    let (r, changed) := r.reconcileBy dismiss.order arrange.order nodes
    (r, some changed)

/-- A ring after a run, and the reports along it. -/
def run (r : Ring α) : List (Op α) → Ring α × List (Option Bool)
  | [] => (r, [])
  | op :: rest =>
    let (r, report) := r.apply op
    let (r, reports) := r.run rest
    (r, report :: reports)

/-- Whether an operation computes with words without overflow: the product that a weight is turned
into has to fit one. -/
def Op.Fits (replicas : Nat) : Op α → Prop
  | .addWeight _ weight => replicas * weight < 2 ^ 64
  | _ => True

end

end Ring

namespace Roster

variable {α : Type} [ToString α]

def apply (m : Roster α) : Ring.Op α → Roster α × Option Bool
  | .add a => (m.add a, none)
  | .addReplicas a n => (m.addReplicas a n, none)
  | .addWeight a weight => (m.addWeight a weight, none)
  | .remove a => ((m.remove a).1, some (m.remove a).2)
  | .reconcile _ arrange nodes =>
    let (m, changed) := m.reconcile arrange.order nodes
    (m, some changed)

def run (m : Roster α) : List (Ring.Op α) → Roster α × List (Option Bool)
  | [] => (m, [])
  | op :: rest =>
    let (m, report) := m.apply op
    let (m, reports) := m.run rest
    (m, report :: reports)

theorem replicas_enter (m : Roster α) (a : α) (n : Nat) : (m.enter a n).replicas = m.replicas := by
  rw [enter]
  split <;> rfl

/-- No operation changes what a full member is. -/
theorem replicas_apply (m : Roster α) (op : Ring.Op α) : (m.apply op).1.replicas = m.replicas := by
  cases op with
  | add a => exact replicas_enter m a _
  | addReplicas a n => exact replicas_enter m a _
  | addWeight a weight => exact replicas_enter m a _
  | remove a => rfl
  | reconcile dismiss arrange nodes =>
    show (m.reconcile arrange.order nodes).1.replicas = m.replicas
    rw [reconcile]
    split <;> rfl

end Roster

namespace Ring

variable {α : Type} [ToString α]

/-- **One operation** keeps a ring laid out as its roster, and reports the same. -/
theorem Laid.apply {r : Ring α} {m : Roster α} (h : Laid r m) {op : Op α}
    (hop : op.Fits m.replicas) :
    Laid (r.apply op).1 (m.apply op).1 ∧ (r.apply op).2 = (m.apply op).2 := by
  cases op with
  | add a => exact ⟨h.add a, rfl⟩
  | addReplicas a n => exact ⟨h.addReplicas a n, rfl⟩
  | addWeight a weight => exact ⟨h.addWeight a hop, rfl⟩
  | remove a =>
    obtain ⟨hlaid, hreport⟩ := h.delete (toString a)
    exact ⟨hlaid, congrArg some hreport⟩
  | reconcile dismiss arrange nodes =>
    obtain ⟨hlaid, hreport⟩ := h.reconcileBy dismiss.perm arrange.perm nodes
    exact ⟨hlaid, congrArg some hreport⟩

/-- **A whole run** does, too. -/
theorem Laid.run {r : Ring α} {m : Roster α} (h : Laid r m) {ops : List (Op α)}
    (hops : ∀ op ∈ ops, op.Fits m.replicas) :
    Laid (r.run ops).1 (m.run ops).1 ∧ (r.run ops).2 = (m.run ops).2 := by
  induction ops generalizing r m with
  | nil => exact ⟨h, rfl⟩
  | cons op rest ih =>
    obtain ⟨hlaid, hreport⟩ := h.apply (hops op List.mem_cons_self)
    have hrest : ∀ op' ∈ rest, op'.Fits (m.apply op).1.replicas := by
      intro op' h'
      rw [Roster.replicas_apply]
      exact hops op' (List.mem_cons_of_mem op h')
    obtain ⟨hend, hreports⟩ := ih hlaid hrest
    exact ⟨hend, congrArg₂ List.cons hreport hreports⟩

/-- **A ring refines its roster.** After any sequence of operations on a new ring, under any iteration
orders of its hash maps, the reports along the way, every lookup, the membership of every node and the
number of members are the roster's. -/
theorem refines_roster (replicas : Nat) (ops : List (Op α))
    (hops : ∀ op ∈ ops, op.Fits (Roster.empty (α := α) replicas).replicas) :
    let ring := (Ring.empty replicas : Ring α).run ops
    let roster := (Roster.empty replicas : Roster α).run ops
    ring.2 = roster.2 ∧
      (∀ key accept, ring.1.getWhere key accept = roster.1.lookup key accept) ∧
      (∀ key, ring.1.get key = roster.1.lookup key fun _ => true) ∧
      (∀ a, ring.1.contains a = decide (toString a ∈ roster.1.texts)) ∧
      ring.1.size = roster.1.members.length ∧
      ring.1.isEmpty = roster.1.members.isEmpty := by
  intro ring roster
  obtain ⟨hlaid, hreports⟩ := (laid_empty (α := α) replicas).run hops
  refine ⟨hreports, hlaid.getWhere_eq, fun key => hlaid.getWhere_eq key _,
    fun a => hlaid.hasText_eq (toString a), hlaid.size_eq, ?_⟩
  rw [Ring.isEmpty, hlaid.size_eq]
  cases roster.1.members <;> rfl

/-- A ring on which `a` and `a1` share a position from index ten on, with a weight, a cap, a removal and
two reconciliations. -/
def shared : List (Op String) :=
  [.add "a", .addWeight "a1" 50, .addReplicas "b" 100, .remove "c",
    .reconcile (.keep _) (.backward _) ["a1", "d", "a", "e", "d"],
    .reconcile (.backward _) (.keep _) ["e", "d", "a1", "a"], .remove "a"]

theorem refines_roster_shared :
    (∀ op ∈ shared, op.Fits 32) ∧
      ((Ring.empty 0).run shared).2
        = [none, none, none, some false, some true, some false, some true] ∧
      ((Roster.empty 0).run shared).1.members = [("a1", 16), ("e", 32), ("d", 32)] ∧
      ((Ring.empty 0).run shared).1.size = 3 ∧
      ∀ key accept, ((Ring.empty 0).run shared).1.getWhere key accept
        = ((Roster.empty 0).run shared).1.lookup key accept := by
  have hfits : ∀ op ∈ shared, op.Fits 32 := by
    simp [shared, Op.Fits]
  obtain ⟨hreports, hlookup, -, -, hsize, -⟩ := refines_roster 0 shared hfits
  exact ⟨hfits, hreports.trans (by decide), by decide, hsize.trans (by decide), hlookup⟩

end Ring

end Steering
