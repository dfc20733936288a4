import Steering.Proofs.Ring.Refinement

/-!
# `Steering.Proofs.Ring.Stored` — the nodes that a ring stores

A ring does not have one place where a member's node is kept. The node is copied to every position of
the member, the table of members knows the text and the number of positions only, and two nodes can
have the same text. That the copies agree is therefore a fact and not a definition:

> in a ring that operations have led to, each member's text has **exactly one** stored node.

It is `Laid.existsUnique_stores`, and it is what "the node of a member" means in the statements about
filtered lookups. `exists_laid` opens every statement about reachable rings: whatever was done, there
is a roster. Unlike the refinement it asks nothing of the weights, since it does not say which roster.
-/

namespace Steering.Ring

open Roster

variable {α : Type} [ToString α]

omit [ToString α] in
/-- Whether a node stands at some position. -/
def Stores (r : Ring α) (a : α) : Prop := ∃ k nodes, r.slots.get? k = some nodes ∧ a ∈ nodes

namespace Laid

variable {r : Ring α} {m : Roster α}

theorem stores_iff (h : Laid r m) {a : α} : r.Stores a ↔ ∃ n, (a, n) ∈ m.members := by
  constructor
  · rintro ⟨k, nodes, hk, ha⟩
    rw [h.slots] at hk
    have hslot : a ∈ m.slotAll k := eq_of_stored hk ▸ ha
    obtain ⟨n, hn, -⟩ := mem_seats.1 (mem_slotAll.1 hslot)
    exact ⟨n, hn⟩
  · rintro ⟨n, hn⟩
    -- every member has a first position
    have hslot : a ∈ m.slotAll (Hash.ofText (toString a ++ toString 0)) :=
      mem_slotAll.2 (mem_seats.2 ⟨n, hn, 0, (h.counts _ hn).1, rfl⟩)
    exact ⟨_, _, (h.slots _).trans (stored_of_ne_nil (List.ne_nil_of_mem hslot)), hslot⟩

/-- An entry of the roster is known by its text. -/
theorem entry_eq (h : Laid r m) {e f : α × Nat} (he : e ∈ m.members) (hf : f ∈ m.members)
    (ht : toString e.1 = toString f.1) : e = f :=
  List.inj_on_of_nodup_map h.nodup he hf ht

theorem stores_eq (h : Laid r m) {a b : α} (ha : r.Stores a) (hb : r.Stores b)
    (ht : toString a = toString b) : a = b := by
  obtain ⟨n, hn⟩ := h.stores_iff.1 ha
  obtain ⟨j, hj⟩ := h.stores_iff.1 hb
  exact congrArg Prod.fst (h.entry_eq hn hj ht)

theorem existsUnique_stores (h : Laid r m) (t : String) :
    r.hasText t = true ↔ ∃! a, r.Stores a ∧ toString a = t := by
  rw [h.hasText_eq, decide_eq_true_iff]
  constructor
  · intro ht
    obtain ⟨⟨a, n⟩, hn, rfl⟩ := List.mem_map.1 ht
    have ha : r.Stores a := h.stores_iff.2 ⟨n, hn⟩
    exact ⟨a, ⟨ha, rfl⟩, fun b hb => h.stores_eq hb.1 ha hb.2⟩
  · rintro ⟨a, ⟨ha, rfl⟩, -⟩
    obtain ⟨n, hn⟩ := h.stores_iff.1 ha
    exact List.mem_map.2 ⟨_, hn, rfl⟩

theorem stores_of_mem_slotWhere (h : Laid r m) {key : String} {accept : α → Bool} {a : α}
    (ha : a ∈ r.slotWhere key accept) : r.Stores a := by
  rw [h.slotWhere_eq, slotFor] at ha
  cases ho : m.owner accept (Hash.ofText key) with
  | none =>
    rw [ho] at ha
    exact absurd ha List.not_mem_nil
  | some k =>
    rw [ho] at ha
    have hslot : a ∈ (m.slotAll k).filter accept := slot_eq_filter m accept k ▸ ha
    obtain ⟨n, hn, -⟩ := mem_seats.1 (mem_slotAll.1 (List.mem_of_mem_filter hslot))
    exact h.stores_iff.2 ⟨n, hn⟩

end Laid

/-! ## Any operations -/

theorem Laid.exists_apply {r : Ring α} {m : Roster α} (h : Laid r m) (op : Op α) :
    ∃ m', Laid (r.apply op).1 m' ∧ m'.replicas = m.replicas := by
  cases op with
  | add a => exact ⟨_, h.add a, m.replicas_apply (.add a)⟩
  | addReplicas a n => exact ⟨_, h.addReplicas a n, m.replicas_apply (.addReplicas a n)⟩
  -- whatever number a weight comes to, it is a number of positions
  | addWeight a weight =>
    exact ⟨_, h.addReplicas a (r.replicasOf weight), m.replicas_apply (.addReplicas a _)⟩
  | remove a => exact ⟨_, (h.delete (toString a)).1, rfl⟩
  | reconcile dismiss arrange nodes =>
    exact ⟨_, (h.reconcileBy dismiss.perm arrange.perm nodes).1,
      m.replicas_apply (.reconcile dismiss arrange nodes)⟩

theorem Laid.exists_run {r : Ring α} {m : Roster α} (h : Laid r m) (ops : List (Op α)) :
    ∃ m', Laid (r.run ops).1 m' ∧ m'.replicas = m.replicas := by
  induction ops generalizing r m with
  | nil => exact ⟨m, h, rfl⟩
  | cons op rest ih =>
    obtain ⟨mid, hmid, hsame⟩ := h.exists_apply op
    obtain ⟨m', h', heq⟩ := ih hmid
    exact ⟨m', h', heq.trans hsame⟩

theorem exists_laid (replicas : Nat) (ops : List (Op α)) :
    ∃ m, Laid ((Ring.empty replicas : Ring α).run ops).1 m := by
  obtain ⟨m, h, -⟩ := (laid_empty replicas).exists_run ops
  exact ⟨m, h⟩

/-- What a full member is does not change. -/
theorem replicas_run (replicas : Nat) (ops : List (Op α)) :
    ((Ring.empty replicas : Ring α).run ops).1.replicas = if replicas = 0 then 32 else replicas := by
  obtain ⟨m, h, hsame⟩ := (laid_empty (α := α) replicas).exists_run ops
  rw [h.replicas, hsame]
  rfl

end Steering.Ring
