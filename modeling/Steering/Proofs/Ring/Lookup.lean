import Steering.Proofs.Ring.Layout

/-!
# `Steering.Proofs.Ring.Lookup` — the walk clockwise finds the least position

A ring looks for a key by walking: from the first position that is not before the key's digest to the
end, then from the start, and it stops at the first position with an acceptable node. The roster takes
a minimum instead. On a sorted list the two are the same thing said twice — the first hit is the least
hit (`findSome?_eq_min`), and cutting a sorted list at a digest is filtering it (`dropWhile_eq_filter`).

The lists themselves are *not* equal: the ring walks over every copy of every position, also of members
that are not acceptable. A minimum does not see copies, and a position without an acceptable node is
no hit, so having the same elements is all that is needed (`min?_congr`).
-/

namespace Steering.Ring

open Roster

/-! ## Sorted lists -/

theorem min?_congr {l l' : List Nat} (h : ∀ k, k ∈ l ↔ k ∈ l') : l.min? = l'.min? := by
  cases hl : l'.min? with
  | none =>
    rw [List.min?_eq_none_iff] at hl ⊢
    exact List.eq_nil_iff_forall_not_mem.2 fun k hk => by simpa [hl] using (h k).1 hk
  | some k =>
    rw [List.min?_eq_some_iff] at hl ⊢
    exact ⟨(h k).2 hl.1, fun j hj => hl.2 j ((h j).1 hj)⟩

theorem findSome?_eq_min {β : Type} {f : Nat → Option β} {l : List Nat}
    (h : l.Pairwise (· ≤ ·)) :
    l.findSome? f = ((l.filter fun k => (f k).isSome).min?).bind f := by
  induction l with
  | nil => rfl
  | cons k rest ih =>
    obtain ⟨hk, hrest⟩ := List.pairwise_cons.1 h
    rw [List.findSome?_cons]
    cases hf : f k with
    | none =>
      rw [List.filter_cons_of_neg (by simp [hf])]
      exact ih hrest
    | some b =>
      rw [List.filter_cons_of_pos (by simp [hf])]
      have hmin : (k :: rest.filter fun k => (f k).isSome).min? = some k := by
        rw [List.min?_eq_some_iff]
        refine ⟨List.mem_cons_self, fun j hj => ?_⟩
        rcases List.mem_cons.1 hj with rfl | hj
        · exact le_rfl
        · exact hk j (List.mem_of_mem_filter hj)
      rw [hmin]
      exact hf.symm

theorem dropWhile_eq_filter {l : List Nat} (h : l.Pairwise (· ≤ ·)) (d : Nat) :
    l.dropWhile (· < d) = l.filter (d ≤ ·) := by
  induction l with
  | nil => rfl
  | cons k rest ih =>
    obtain ⟨hk, hrest⟩ := List.pairwise_cons.1 h
    by_cases hd : k < d
    · rw [List.dropWhile_cons_of_pos (by simpa using hd), List.filter_cons_of_neg (by simpa using hd)]
      exact ih hrest
    · have hall : ∀ j ∈ k :: rest, d ≤ j := by
        intro j hj
        rcases List.mem_cons.1 hj with rfl | hj
        · exact Nat.le_of_not_lt hd
        · exact (Nat.le_of_not_lt hd).trans (hk j hj)
      rw [List.dropWhile_cons_of_neg (by simpa using hd), List.filter_eq_self.2]
      exact fun j hj => decide_eq_true (hall j hj)

theorem takeWhile_eq_filter {l : List Nat} (h : l.Pairwise (· ≤ ·)) (d : Nat) :
    l.takeWhile (· < d) = l.filter (· < d) := by
  induction l with
  | nil => rfl
  | cons k rest ih =>
    obtain ⟨hk, hrest⟩ := List.pairwise_cons.1 h
    by_cases hd : k < d
    · rw [List.takeWhile_cons_of_pos (by simpa using hd), List.filter_cons_of_pos (by simpa using hd),
        ih hrest]
    · have hnone : (k :: rest).filter (fun j => decide (j < d)) = [] := by
        refine List.filter_eq_nil_iff.2 fun j hj => ?_
        rw [decide_eq_true_iff, Nat.not_lt]
        rcases List.mem_cons.1 hj with rfl | hj
        · exact Nat.le_of_not_lt hd
        · exact (Nat.le_of_not_lt hd).trans (hk j hj)
      rw [List.takeWhile_cons_of_neg (by simpa using hd), hnone]

/-! ## The walk -/

section

variable {α : Type} [ToString α] {r : Ring α} {m : Roster α}

/-- What a ring finds at a position is what the roster's slot there gives. -/
theorem Laid.pick_at (h : Laid r m) (key : String) (accept : α → Bool) (k : Nat) :
    ((r.slots.get? k).bind fun nodes => pickInSlot nodes key accept)
      = choose key (m.slot accept k) := by
  have hpick : ∀ nodes : List α, pickInSlot nodes key accept = choose key (nodes.filter accept) := by
    intro nodes
    rw [pickInSlot]
    rcases nodes.filter accept with _ | ⟨a, _ | ⟨b, rest⟩⟩ <;> rfl
  rw [h.slots, slot_eq_filter]
  by_cases hk : m.slotAll k = []
  · rw [hk]
    rfl
  · rw [stored_of_ne_nil hk]
    exact hpick _

/-- A walk meets every position that an acceptable member takes. -/
theorem Laid.mem_keys_of_taken (h : Laid r m) {accept : α → Bool} {k : Nat}
    (hk : k ∈ m.taken accept) : k ∈ r.keys := by
  obtain ⟨a, ha, -⟩ := mem_taken.1 hk
  exact h.keys.mem_iff.2 (List.mem_map.2 ⟨_, ha, rfl⟩)

section

variable {β : Type} {f : Nat → Option β} {accept : α → Bool}

/-- A leg of the walk, over the positions with a property, finds what stands at the least of them. -/
theorem Laid.findSome?_leg (h : Laid r m) (hf : ∀ k, (f k).isSome = true ↔ k ∈ m.taken accept)
    (p : Nat → Bool) :
    (r.keys.filter p).findSome? f = (((m.taken accept).filter p).min?).bind f := by
  rw [findSome?_eq_min (h.sorted.filter _)]
  congr 1
  refine min?_congr fun k => ?_
  rw [List.mem_filter, List.mem_filter, List.mem_filter, hf]
  exact ⟨fun hk => ⟨hk.2, hk.1.2⟩, fun hk => ⟨⟨h.mem_keys_of_taken hk.1, hk.2⟩, hk.1⟩⟩

/-- **A walk stops at the position that a digest belongs to**, whatever it looks for, as long as that
is found at the positions of the acceptable members and nowhere else. -/
theorem Laid.findSome?_clockwise (h : Laid r m)
    (hf : ∀ k, (f k).isSome = true ↔ k ∈ m.taken accept) (d : Nat) :
    (r.clockwise d).findSome? f = (m.owner accept d).bind f := by
  rw [clockwise, List.findSome?_append, dropWhile_eq_filter h.sorted, takeWhile_eq_filter h.sorted,
    h.findSome?_leg hf, h.findSome?_leg hf, owner]
  cases hmin : ((m.taken accept).filter (d ≤ ·)).min? with
  | some k =>
    -- the first leg has an answer, and the second is not looked at
    have hk := (hf k).2 (List.mem_of_mem_filter (List.min?_mem hmin))
    rw [Option.bind_some, Option.some_or, Option.bind_some]
    exact Option.or_of_isSome hk
  | none =>
    -- nothing is ahead, so everything is behind
    rw [List.min?_eq_none_iff, List.filter_eq_nil_iff] at hmin
    rw [Option.bind_none, Option.none_or, Option.none_or, List.filter_eq_self.2]
    intro k hk
    simpa using hmin k hk

end

/-- **A lookup in a ring is the lookup in its roster.** -/
theorem Laid.getWhere_eq (h : Laid r m) (key : String) (accept : α → Bool) :
    r.getWhere key accept = m.lookup key accept := by
  rw [Ring.getWhere, Roster.lookup]
  simp only [h.pick_at key accept]
  exact h.findSome?_clockwise (fun k => (mem_taken_iff_choose m accept key k).symm) _

/-! ## The slot of a key -/

/-- The acceptable nodes at the first position that has any, in the order in which a key looks at the
positions. -/
def slotWhere (r : Ring α) (key : String) (accept : α → Bool) : List α :=
  ((r.clockwise (Hash.ofText key)).findSome? fun k =>
    (r.slots.get? k).bind fun nodes => stored (nodes.filter accept)).getD []

/-- The slot of a key in a ring is the one of its roster. -/
theorem Laid.slotWhere_eq (h : Laid r m) (key : String) (accept : α → Bool) :
    r.slotWhere key accept = m.slotFor accept (Hash.ofText key) := by
  have hslot : ∀ k, ((r.slots.get? k).bind fun nodes => stored (nodes.filter accept))
      = stored (m.slot accept k) := by
    intro k
    rw [h.slots, slot_eq_filter]
    by_cases hk : m.slotAll k = []
    · rw [hk]
      rfl
    · rw [stored_of_ne_nil hk]
      rfl
  have hf : ∀ k, (stored (m.slot accept k)).isSome = true ↔ k ∈ m.taken accept := by
    intro k
    rw [mem_taken_iff_choose m accept "" k, choose_isSome]
    cases m.slot accept k with
    | nil => simp
    | cons a rest => simp [stored]
  rw [slotWhere]
  simp only [hslot]
  rw [h.findSome?_clockwise hf, slotFor]
  cases m.owner accept (Hash.ofText key) with
  | none => rfl
  | some k => exact getD_stored _

theorem Laid.getWhere_eq_choose (h : Laid r m) (key : String) (accept : α → Bool) :
    r.getWhere key accept = choose key (r.slotWhere key accept) := by
  rw [h.getWhere_eq, lookup_eq_choose, h.slotWhere_eq]

end

end Steering.Ring
