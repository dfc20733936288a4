import Steering.Proofs.Ring.Follow

/-!
# `Steering.Proofs.Ring.Reconcile` — the least change that makes the members those of a list

A list of nodes says which texts are wanted, and no more than that. So a reconciliation has no reason
to touch a member whose text is wanted, not even if the list has another node with that text: the member
keeps the node, the number of positions and the place that it has, also where it shares positions with
members that leave or come. Only a text that is missing comes from the list, and of several nodes with
it the last one does.

On rosters this is a single equation, `exists_reconcile_eq`: the members that stay, in their order, and
behind them those that come. `Reconciled` says what it means for the three tables of a ring. That nothing
was to be done is recognised by counting (`Laid.hasExactly_iff`), before anything is done.
-/

namespace Steering

namespace Roster

variable {α : Type} [ToString α] {m : Roster α}

/-- The node of a text in a table of wanted nodes is the last one of the list. -/
theorem find?_of_mem_latest {nodes : List α} {e : String × α} (he : e ∈ latest nodes) :
    (nodes.reverse.find? fun a => decide (toString a = e.1)) = some e.2 := by
  obtain ⟨t, -, ht⟩ := List.mem_filterMap.1 he
  obtain ⟨a, ha, rfl⟩ := Option.map_eq_some_iff.1 ht
  exact ha

/-- **A reconciled roster** is the members that stay and, behind them, those that come. -/
theorem exists_reconcile_eq (m : Roster α) {arrange : List (String × α) → List (String × α)}
    (harrange : ∀ l, (arrange l).Perm l) (nodes : List α) :
    ∃ come, (m.reconcile arrange nodes).1.members
        = (m.keep fun a => toString a ∈ nodes.map toString).members ++ come ∧
      ∀ e ∈ come, toString e.1 ∉ m.texts ∧ e.2 = m.replicas ∧
        (nodes.reverse.find? fun a => decide (toString a = toString e.1)) = some e.1 := by
  rw [reconcile]
  split
  · rename_i hsame
    refine ⟨[], ?_, fun e he => absurd he List.not_mem_nil⟩
    rw [List.append_nil, keep, List.filter_eq_self.2]
    exact fun e he => decide_eq_true (hsame.1 (List.mem_map.2 ⟨e, he, rfl⟩))
  · refine ⟨_, rfl, fun e he => ?_⟩
    obtain ⟨b, hb, rfl⟩ := List.mem_map.1 he
    obtain ⟨hb, hnew⟩ := List.mem_filter.1 hb
    have hlatest := (harrange _).mem_iff.1 hb
    have htext := Ring.text_of_mem_latest hlatest
    rw [← htext]
    exact ⟨of_decide_eq_true hnew, rfl, find?_of_mem_latest hlatest⟩

theorem snd_reconcile_iff (m : Roster α) (arrange : List (String × α) → List (String × α))
    (nodes : List α) : (m.reconcile arrange nodes).2 = true ↔
      ∃ t, ¬(t ∈ nodes.map toString ↔ t ∈ m.texts) := by
  rw [reconcile]
  split
  · rename_i hsame
    refine ⟨fun h => absurd h (by simp), ?_⟩
    rintro ⟨t, ht⟩
    exact absurd ⟨fun h => hsame.2 h, fun h => hsame.1 h⟩ ht
  · rename_i hdiff
    refine ⟨fun _ => ?_, fun _ => rfl⟩
    by_contra hall
    push Not at hall
    exact hdiff ⟨fun t ht => (hall t).2 ht, fun t ht => (hall t).1 ht⟩

theorem slotAll_of_append {m₁ m₂ : Roster α} (h : m.members = m₁.members ++ m₂.members) (p : Nat) :
    m.slotAll p = m₁.slotAll p ++ m₂.slotAll p := by
  simp only [slotAll, slot, seats, h, List.flatMap_append, List.filter_append, List.map_append]

end Roster

namespace Ring

open Roster

variable {α : Type} [ToString α] {r r' : Ring α} {m m' : Roster α}

omit [ToString α] in
/-- The nodes at a position, in the order in which they came. -/
def slotAt (r : Ring α) (p : Nat) : List α := (r.slots.get? p).getD []

theorem Laid.slotAt_eq (h : Laid r m) (p : Nat) : r.slotAt p = m.slotAll p := by
  rw [slotAt, h.slots, getD_stored]

theorem Laid.count_keys (h : Laid r m) (p : Nat) : r.keys.count p = (r.slotAt p).length := by
  rw [h.keys.count_eq, h.slotAt_eq, slotAll, slot, List.length_map, List.count, List.countP_map,
    List.countP_eq_length_filter]
  congr 1
  refine List.filter_congr fun s _ => ?_
  simp [beq_eq_decide]

theorem Laid.entry_of_text (h : Laid r m) {t : String} (ht : r.hasText t = true) :
    ∃ a n, (a, n) ∈ m.members ∧ toString a = t := by
  rw [h.hasText_eq, decide_eq_true_iff] at ht
  obtain ⟨⟨a, n⟩, hn, heq⟩ := List.mem_map.1 ht
  exact ⟨a, n, hn, heq⟩

/-! ## The least change -/

/-- One ring has become the other by the least change that makes its members those of a list. -/
structure Reconciled (r r' : Ring α) (nodes : List α) : Prop where
  /-- The members are the distinct texts of the list. -/
  texts : r'.members.keys.Perm (nodes.map toString).dedup
  /-- Who stays keeps the number of positions … -/
  count_stays : ∀ t ∈ nodes.map toString, r.hasText t = true → r'.members.get? t = r.members.get? t
  /-- … and the node … -/
  node_stays : ∀ a, toString a ∈ nodes.map toString → r.hasText (toString a) = true →
    (r'.Stores a ↔ r.Stores a)
  /-- … and stands everywhere as it stood among those who stay, before those who come. -/
  place_stays : ∀ p, ∃ come,
    r'.slotAt p = (r.slotAt p).filter (fun a => toString a ∈ nodes.map toString) ++ come ∧
      ∀ a ∈ come, r.hasText (toString a) = false
  /-- A text that comes is a full member's, with the last node of the list that has it. -/
  comes : ∀ t ∈ nodes.map toString, r.hasText t = false →
    ∃ a, (nodes.reverse.find? fun b => decide (toString b = t)) = some a ∧
      r'.members.get? t = some r.replicas ∧
      (∀ b, r'.Stores b ∧ toString b = t ↔ b = a) ∧
      ∀ p, (r'.slotAt p).filter (fun b => toString b = t)
        = List.replicate ((positions t r.replicas).count p) a
  /-- The list of positions has one for each node that stands there. -/
  keys : r'.keys.Pairwise (· ≤ ·) ∧ ∀ p, r'.keys.count p = (r'.slotAt p).length

/-- Two rings are so related if their rosters are. -/
theorem Laid.reconciled (h : Laid r m) (h' : Laid r' m') {nodes : List α} {come : List (α × Nat)}
    (htexts : ∀ t, t ∈ m'.texts ↔ t ∈ nodes.map toString)
    (hmembers : m'.members = (m.keep fun a => toString a ∈ nodes.map toString).members ++ come)
    (hcome : ∀ e ∈ come, toString e.1 ∉ m.texts ∧ e.2 = m.replicas ∧
      (nodes.reverse.find? fun a => decide (toString a = toString e.1)) = some e.1) :
    Reconciled r r' nodes := by
  have hstays : ∀ e : α × Nat, r.hasText (toString e.1) = true → toString e.1 ∈ nodes.map toString →
      (e ∈ m'.members ↔ e ∈ m.members) := by
    intro e ht hwanted
    rw [h.hasText_eq, decide_eq_true_iff] at ht
    rw [hmembers, List.mem_append, keep, List.mem_filter, decide_eq_true_iff]
    constructor
    · rintro (⟨he, -⟩ | he)
      · exact he
      · exact absurd ht (hcome e he).1
    · exact fun he => Or.inl ⟨he, hwanted⟩
  have hcomes : ∀ e ∈ m'.members, r.hasText (toString e.1) = false → e ∈ come := by
    intro e he ht
    rw [h.hasText_eq, decide_eq_false_iff_not] at ht
    rw [hmembers] at he
    rcases List.mem_append.1 he with he | he
    · exact absurd (List.mem_map.2 ⟨e, List.mem_of_mem_filter he, rfl⟩) ht
    · exact he
  constructor
  case texts =>
    refine (List.perm_ext_iff_of_nodup r'.members.nodup_keys (List.nodup_dedup _)).2 fun t => ?_
    rw [h'.texts_eq, htexts, List.mem_dedup]
  case count_stays =>
    intro t hwanted ht
    obtain ⟨a, n, hn, rfl⟩ := h.entry_of_text ht
    rw [h.get?_members hn, h'.get?_members ((hstays (a, n) ht hwanted).2 hn)]
  case node_stays =>
    intro a hwanted ht
    rw [h.stores_iff, h'.stores_iff]
    exact exists_congr fun n => hstays (a, n) ht hwanted
  case place_stays =>
    intro p
    refine ⟨(Roster.mk m.replicas come).slotAll p, ?_, fun a ha => ?_⟩
    · rw [h'.slotAt_eq, h.slotAt_eq, ← slot_eq_filter, ← slotAll_keep]
      exact slotAll_of_append hmembers p
    · obtain ⟨n, hn, -⟩ := mem_seats.1 (mem_slotAll.1 ha)
      rw [h.hasText_eq]
      exact decide_eq_false (hcome _ hn).1
  case comes =>
    intro t hwanted ht
    obtain ⟨⟨a, n⟩, hn, rfl⟩ := List.mem_map.1 ((htexts t).2 hwanted)
    obtain ⟨-, hfull, hlast⟩ := hcome _ (hcomes _ hn ht)
    obtain rfl : n = m.replicas := hfull
    rw [h.replicas]
    refine ⟨a, hlast, h'.get?_members hn, fun b => ?_, fun p => ?_⟩
    · constructor
      · rintro ⟨hb, heq⟩
        exact h'.stores_eq hb (h'.stores_iff.2 ⟨_, hn⟩) heq
      · rintro rfl
        exact ⟨h'.stores_iff.2 ⟨_, hn⟩, rfl⟩
    · rw [h'.slotAt_eq, positions_eq]
      exact filter_slotAll h'.nodup hn p
  case keys => exact ⟨h'.sorted, h'.count_keys⟩

/-- That nothing has changed is answered only of a ring that is left as it is. -/
theorem eq_of_reconcileBy {dismiss : List String → List String}
    {arrange : List (String × α) → List (String × α)} {nodes : List α}
    (h : (r.reconcileBy dismiss arrange nodes).2 = false) :
    (r.reconcileBy dismiss arrange nodes).1 = r := by
  rw [reconcileBy] at h ⊢
  split at h
  · rw [if_pos ‹_›]
  · exact absurd h (by simp)

/-- **A ring is reconciled with the least change.** Whatever operations have led to it, whatever nodes are
listed, with equal texts among them or not, and in whichever orders the members that leave and those
that come are gone through: the members are then the distinct texts of the list, those that were there
before are as they were, those that were not are full members, and the answer is whether the texts have
changed. If they have not, neither has the ring. -/
theorem reconciled_with_least_change (replicas : Nat) (ops : List (Op α)) (dismiss : Shuffle String)
    (arrange : Shuffle (String × α)) (nodes : List α) :
    let ring := ((Ring.empty replicas : Ring α).run ops).1
    let after := (ring.reconcileBy dismiss.order arrange.order nodes).1
    let changed := (ring.reconcileBy dismiss.order arrange.order nodes).2
    ring.replicas = (if replicas = 0 then 32 else replicas) ∧
      Reconciled ring after nodes ∧
      (changed = true ↔ ∃ t, after.hasText t ≠ ring.hasText t) ∧
      (changed = false → after = ring) := by
  intro ring after changed
  obtain ⟨m, h⟩ := exists_laid replicas ops
  obtain ⟨h', hreport⟩ := h.reconcileBy dismiss.perm arrange.perm nodes
  have htexts := m.mem_texts_reconcile arrange.perm nodes
  obtain ⟨come, hmembers, hcome⟩ := m.exists_reconcile_eq arrange.perm nodes
  refine ⟨replicas_run replicas ops, h.reconciled h' htexts hmembers hcome, ?_, eq_of_reconcileBy⟩
  have hchanged : changed = (m.reconcile arrange.order nodes).2 := hreport
  rw [hchanged, m.snd_reconcile_iff]
  refine exists_congr fun t => ?_
  rw [h'.hasText_eq, h.hasText_eq, Ne, decide_eq_decide, htexts]

/-- A node with a text that others may have, too. -/
structure Tagged where
  text : String
  tag : Nat
  deriving DecidableEq

instance : ToString Tagged := ⟨Tagged.text⟩

/-- `a` and `a1` share two positions, and `a1` is a light member; `b` leaves. -/
def lightNeighbour : List (Op Tagged) := [.add ⟨"a", 0⟩, .addReplicas ⟨"a1", 0⟩ 2, .add ⟨"b", 0⟩]

/-- The list has another node for `a1`, and two for `c`. The members that stay keep what they have; `c`
comes with its last node, as a full member. Once more the same texts, and nothing happens. -/
theorem reconciled_with_least_change_beside_light_neighbour :
    let ring := ((Ring.empty 12).run lightNeighbour).1
    let nodes := [⟨"a1", 5⟩, ⟨"c", 1⟩, ⟨"a", 7⟩, ⟨"c", 2⟩]
    let after := (ring.reconcileBy (Shuffle.keep _).order (Shuffle.backward _).order nodes).1
    (ring.hasText "a1" = true ∧ ring.hasText "c" = false) ∧
      after.members.get? "a1" = some 2 ∧ after.Stores ⟨"a1", 0⟩ ∧
      after.members.get? "c" = some 12 ∧ after.Stores ⟨"c", 2⟩ ∧ ¬ after.Stores ⟨"c", 1⟩ ∧
      (∃ come, after.slotAt (position "a" 10) = [⟨"a", 0⟩, ⟨"a1", 0⟩] ++ come) ∧
      (ring.reconcileBy id id [⟨"b", 3⟩, ⟨"a1", 3⟩, ⟨"a", 3⟩]).1 = ring := by
  intro ring nodes after
  obtain ⟨-, hleast, -⟩ :=
    reconciled_with_least_change 12 lightNeighbour (.keep _) (.backward _) nodes
  obtain ⟨-, -, -, hsame⟩ := reconciled_with_least_change 12 lightNeighbour (.keep _) (.keep _)
    [⟨"b", 3⟩, ⟨"a1", 3⟩, ⟨"a", 3⟩]
  have hlight : ring.hasText "a1" = true := by decide +kernel
  have hmissing : ring.hasText "c" = false := by decide +kernel
  obtain ⟨a, hlast, hcount, honly, -⟩ := hleast.comes "c" (by decide) hmissing
  obtain rfl : ⟨"c", 2⟩ = a := Option.some.inj hlast
  obtain ⟨come, hslot, -⟩ := hleast.place_stays (position "a" 10)
  have hshared : (ring.slotAt (position "a" 10)).filter (fun a => toString a ∈ nodes.map toString)
      = [⟨"a", 0⟩, ⟨"a1", 0⟩] := by decide +kernel
  refine ⟨⟨hlight, hmissing⟩, ?_, ?_, hcount, ((honly _).2 rfl).1, ?_, ⟨come, ?_⟩, ?_⟩
  · rw [hleast.count_stays "a1" (by decide) hlight]
    decide +kernel
  · refine (hleast.node_stays ⟨"a1", 0⟩ (by decide) hlight).2 ?_
    exact ⟨position "a" 10, [⟨"a", 0⟩, ⟨"a1", 0⟩], by decide +kernel, by decide⟩
  · intro hc
    exact absurd ((honly _).1 ⟨hc, rfl⟩) (by decide)
  · rw [hslot, hshared]
  · exact hsame (by decide +kernel)

end Ring

end Steering
