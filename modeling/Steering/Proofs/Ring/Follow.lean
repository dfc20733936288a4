import Steering.Balancer
import Steering.Proofs.Ring.Stored

/-!
# `Steering.Proofs.Ring.Follow` — rings that follow routing tables

A hashed balancer never adds or removes a member by itself: its ring is reconciled with the addresses
of each new routing table, and with nothing else. Such a ring is known completely from the *last*
table (`exists_laid_follow`). Its members are the addresses there, each with all its positions, and
since an address is its own text, no second node can stand behind it.

Reconciling goes through two hash maps, so a notice of a new table comes with the two orders in which
they are iterated. `update_eq` says that the balancer's own update is one of them.
-/

namespace Steering

namespace Roster

variable {α : Type} [ToString α]

/-- A reconciled roster has exactly the texts of the list. -/
theorem mem_texts_reconcile (m : Roster α) {arrange : List (String × α) → List (String × α)}
    (harrange : ∀ l, (arrange l).Perm l) (nodes : List α) (t : String) :
    t ∈ (m.reconcile arrange nodes).1.texts ↔ t ∈ nodes.map toString := by
  rw [reconcile]
  split
  · rename_i hsame
    exact ⟨fun ht => hsame.1 ht, fun ht => hsame.2 ht⟩
  · have hcome : ∀ e, e ∈ arrange (latest nodes) ↔ e ∈ (Ring.wanted nodes).entries := by
      intro e
      rw [Ring.wanted_entries]
      exact (harrange _).mem_iff
    simp only [texts, List.map_append, List.map_map, List.mem_append, List.mem_map, List.mem_filter,
      decide_eq_true_iff, Function.comp_apply]
    constructor
    · rintro (⟨e, ⟨-, b, hb, heq⟩, rfl⟩ | ⟨e, ⟨he, -⟩, rfl⟩)
      · exact ⟨b, hb, heq⟩
      · have hkey : e.1 ∈ (Ring.wanted nodes).keys := List.mem_map_of_mem ((hcome e).1 he)
        have htext := Ring.text_of_mem_latest ((harrange _).mem_iff.1 he)
        rw [htext] at hkey
        exact List.mem_map.1 (Ring.mem_wanted_keys.1 hkey)
    · rintro ⟨b, hb, rfl⟩
      by_cases hmem : toString b ∈ m.texts
      · obtain ⟨e, he, heq⟩ := List.mem_map.1 hmem
        exact Or.inl ⟨e, ⟨he, b, hb, heq.symm⟩, heq⟩
      · -- a text that is missing is the key of what comes
        have hkey : toString b ∈ (Ring.wanted nodes).keys :=
          Ring.mem_wanted_keys.2 (List.mem_map_of_mem hb)
        obtain ⟨e, he, heq⟩ := List.mem_map.1 hkey
        have htext := Ring.text_of_mem_latest ((harrange _).mem_iff.1 ((hcome e).2 he))
        refine Or.inr ⟨e, ⟨(hcome e).2 he, ?_⟩, htext.symm.trans heq⟩
        rw [heq]
        exact fun h => hmem (List.mem_map.2 h)

/-- Members that join in a reconciliation are full ones, so if all were, all are. -/
theorem full_reconcile {m : Roster α} (h : ∀ e ∈ m.members, e.2 = m.replicas)
    (arrange : List (String × α) → List (String × α)) (nodes : List α) :
    ∀ e ∈ (m.reconcile arrange nodes).1.members, e.2 = m.replicas := by
  rw [reconcile]
  split
  · exact h
  · intro e he
    rcases List.mem_append.1 he with he | he
    · exact h e (List.mem_of_mem_filter he)
    · obtain ⟨b, -, rfl⟩ := List.mem_map.1 he
      rfl

/-- Where all members are full, an entry is known by its text. -/
theorem mem_members_of_full {m : Roster String} (h : ∀ e ∈ m.members, e.2 = m.replicas)
    (e : String × Nat) : e ∈ m.members ↔ e.1 ∈ m.texts ∧ e.2 = m.replicas := by
  constructor
  · intro he
    exact ⟨List.mem_map.2 ⟨e, he, rfl⟩, h e he⟩
  · rintro ⟨ht, hn⟩
    obtain ⟨f, hf, heq⟩ := List.mem_map.1 ht
    rw [← Prod.ext (show f.1 = e.1 from heq) ((h f hf).trans hn.symm)]
    exact hf

end Roster

namespace Ring

open Roster

section

variable {α : Type} [ToString α]

theorem run_append (r : Ring α) (ops more : List (Op α)) :
    (r.run (ops ++ more)).1 = ((r.run ops).1.run more).1 := by
  induction ops generalizing r with
  | nil => rfl
  | cons op rest ih => exact ih _

theorem Laid.get?_members {r : Ring α} {m : Roster α} (h : Laid r m) {a : α} {n : Nat} :
    (a, n) ∈ m.members → r.members.get? (toString a) = some n := by
  intro hn
  rw [Table.get?_eq_some_iff, h.members]
  exact List.mem_map.2 ⟨_, hn, rfl⟩

end

/-! ## Notices -/

/-- A notice of a new routing table, with the orders in which a ring that follows it goes through its
members and through the addresses. -/
structure Notice where
  dismiss : Shuffle String
  arrange : Shuffle (String × String)
  nodes : List WeightedNode

namespace Notice

def addresses (u : Notice) : List String := u.nodes.map WeightedNode.address

def op (u : Notice) : Op String := .reconcile u.dismiss u.arrange u.addresses

end Notice

/-- A new ring after some notices. -/
def follow (replicas : Nat) (us : List Notice) : Ring String :=
  ((Ring.empty replicas).run (us.map Notice.op)).1

/-- The update of a hashed balancer is a notice in the orders in which members and nodes came. -/
theorem update_eq (ring : Ring String) (stream : KeyStream) (nodes : List WeightedNode) :
    (Balancer.hashed ring stream).update nodes
      = .hashed (ring.apply (Notice.op ⟨.keep _, .keep _, nodes⟩)).1 stream := rfl

theorem follow_concat (replicas : Nat) (us : List Notice) (u : Notice) :
    follow replicas (us ++ [u]) = ((follow replicas us).apply u.op).1 := by
  rw [follow, List.map_append, run_append]
  rfl

/-- The addresses of the last table; none before the first one. -/
def lastAddresses (us : List Notice) : List String := (us.getLast?.map Notice.addresses).getD []

/-- **A ring that follows tables is that of the last one**, with all members full. -/
theorem exists_laid_follow (replicas : Nat) (us : List Notice) :
    ∃ m, Laid (follow replicas us) m ∧ m.replicas = (Roster.empty (α := String) replicas).replicas ∧
      (∀ e ∈ m.members, e.2 = m.replicas) ∧ ∀ a, a ∈ m.texts ↔ a ∈ lastAddresses us := by
  induction us using List.reverseRecOn with
  | nil =>
    refine ⟨_, laid_empty replicas, rfl, fun e he => absurd he List.not_mem_nil, fun a => ?_⟩
    exact ⟨fun ha => absurd ha List.not_mem_nil, fun ha => absurd ha List.not_mem_nil⟩
  | append_singleton us u ih =>
    obtain ⟨m, h, hreplicas, hfull, -⟩ := ih
    have hsame : (m.reconcile u.arrange.order u.addresses).1.replicas = m.replicas :=
      m.replicas_apply u.op
    rw [follow_concat]
    refine ⟨_, (h.reconcileBy u.dismiss.perm u.arrange.perm u.addresses).1, ?_, ?_, fun a => ?_⟩
    · rw [hsame, hreplicas]
    · rw [hsame]
      exact full_reconcile hfull _ _
    · have hid : u.addresses.map toString = u.addresses := List.map_id _
      rw [m.mem_texts_reconcile u.arrange.perm, hid, lastAddresses, List.getLast?_concat]
      rfl

/-! ## Picks by key -/

section

variable {α : Type} [ToString α]

omit [ToString α] in
theorem accept_of_getWhere {r : Ring α} {key : String} {accept : α → Bool} {a : α}
    (h : r.getWhere key accept = some a) : accept a = true := by
  obtain ⟨k, -, hk⟩ := List.exists_of_findSome?_eq_some h
  obtain ⟨nodes, -, hpick⟩ := Option.bind_eq_some_iff.1 hk
  have hmem : a ∈ nodes.filter accept := by
    rw [pickInSlot] at hpick
    cases hf : nodes.filter accept with
    | nil =>
      rw [hf] at hpick
      exact absurd hpick (by simp)
    | cons b rest =>
      rw [hf] at hpick
      cases rest with
      | nil =>
        obtain rfl := Option.some.inj hpick
        exact List.mem_cons_self
      | cons c rest => exact List.mem_of_getElem? hpick
  exact (List.mem_filter.1 hmem).2

/-- A lookup fails only if no stored node is acceptable. -/
theorem Laid.getWhere_isSome {r : Ring α} {m : Roster α} (h : Laid r m) (key : String)
    (accept : α → Bool) {a : α} (ha : r.Stores a) (hacc : accept a = true) :
    (r.getWhere key accept).isSome := by
  obtain ⟨n, hn⟩ := h.stores_iff.1 ha
  have htaken : Hash.ofText (toString a ++ toString 0) ∈ m.taken accept :=
    mem_taken.2 ⟨a, mem_seats.2 ⟨n, hn, 0, (h.counts _ hn).1, rfl⟩, hacc⟩
  rw [h.getWhere_eq, lookup]
  cases ho : m.owner accept (Hash.ofText key) with
  | some p => exact (mem_taken_iff_choose m accept key p).1 (owner_mem ho)
  | none =>
    rw [owner, Option.or_eq_none_iff, List.min?_eq_none_iff, List.min?_eq_none_iff] at ho
    rw [ho.2] at htaken
    exact absurd htaken List.not_mem_nil

end

theorem exists_getWhere_follow (replicas : Nat) {us : List Notice} (key : String)
    {nodes : List WeightedNode} (h : ∃ n ∈ nodes, n.address ∈ lastAddresses us) :
    ∃ a, (follow replicas us).getWhere key
      (fun address => nodes.any fun n => n.address = address) = some a := by
  obtain ⟨m, hlaid, -, -, htexts⟩ := exists_laid_follow replicas us
  obtain ⟨n, hn, ha⟩ := h
  obtain ⟨e, he, heq⟩ := List.mem_map.1 ((htexts _).2 ha)
  have hstored : (follow replicas us).Stores n.address :=
    hlaid.stores_iff.2 ⟨e.2, by rw [← heq]; exact he⟩
  refine Option.isSome_iff_exists.1 (hlaid.getWhere_isSome key _ hstored ?_)
  exact List.any_eq_true.2 ⟨n, hn, decide_eq_true rfl⟩

/-- What the ring answers about the candidates' addresses is the address of the node that is picked. -/
theorem exists_pickByKey {ring : Ring String} {key a : String} {nodes : List WeightedNode}
    (h : ring.getWhere key (fun address => nodes.any fun n => n.address = address) = some a) :
    ∃ n ∈ nodes, n.address = a ∧ Balancer.pickByKey ring key nodes = some n := by
  have hany := accept_of_getWhere h
  cases hf : nodes.find? fun n => n.address = a with
  | none =>
    obtain ⟨n, hn, ha⟩ := List.any_eq_true.1 hany
    exact absurd ha (List.find?_eq_none.1 hf n hn)
  | some n =>
    refine ⟨n, List.mem_of_find?_eq_some hf, by simpa using List.find?_some hf, ?_⟩
    rw [Balancer.pickByKey, h]
    exact hf

theorem pick_of_pickByKey {ring : Ring String} {key : String} {nodes : List WeightedNode}
    {n : WeightedNode} (h : Balancer.pickByKey ring key nodes = some n) {c : Context}
    (hkey : c.hashKey? = some key) (stream : KeyStream) :
    (Balancer.hashed ring stream).pick c nodes = .ok (n, .hashed ring stream) := by
  rw [Balancer.pick, Balancer.pick?, hkey, Option.bind_some, h]

/-- A pick may draw, but it does not touch the ring. -/
theorem exists_eq_of_pick {ring : Ring String} {stream : KeyStream} {c : Context}
    {nodes : List WeightedNode} {n : WeightedNode} {b : Balancer}
    (h : (Balancer.hashed ring stream).pick c nodes = .ok (n, b)) :
    ∃ stream', b = .hashed ring stream' := by
  rw [Balancer.pick, Balancer.pick?] at h
  cases hkey : c.hashKey?.bind fun key => Balancer.pickByKey ring key nodes with
  | some m =>
    rw [hkey] at h
    exact ⟨stream, (Prod.mk.inj (Except.ok.inj h)).2.symm⟩
  | none =>
    cases hdraw : Balancer.drawNode stream nodes with
    | none =>
      rw [hkey, hdraw] at h
      cases h
    | some draw =>
      rw [hkey, hdraw] at h
      exact ⟨draw.2, (Prod.mk.inj (Except.ok.inj h)).2.symm⟩

end Ring

end Steering
