import Mathlib.Data.List.Dedup
import Mathlib.Data.List.Perm.Subperm
import Steering.Publication

/-!
# `Steering.Proofs.Publication` — what is left of a list of instances

Three things happen to a list before it is published, and each could lose more than it should. Whether
anything is left at all is decided by the first alone: an instance is left out because its endpoint is of
no use, because its address is there already, or because the subset is full, and the last two need
somebody who is in. So nothing is published exactly if no endpoint on the list is usable
(`ofServices_eq_nil_iff`), whatever the size of the subset.

A shuffle is taken here for what its plan is, a list of exchanges. Whatever places it exchanges, it gives
the addresses that it was given, so that a subset is part of the list that it was taken of.
-/

namespace Steering

/-! ## Shuffles -/

/-- Exchanges lose nothing, the ones with a place past the end included. -/
theorem exchange_perm {α : Type} (xs : Array α) (plan : List (Nat × Nat)) :
    (exchange xs plan).toList.Perm xs.toList := by
  induction plan generalizing xs with
  | nil => exact .refl _
  | cons places rest ih =>
    obtain ⟨i, j⟩ := places
    refine (ih _).trans ?_
    rw [Array.swapIfInBounds]
    split
    · split
      · exact (Array.swap_perm _ _).toList
      · exact .refl _
    · exact .refl _

theorem shuffle_perm {α : Type} (s : KeyStream) (xs : List α) : (shuffle s xs).Perm xs :=
  exchange_perm xs.toArray _

/-! ## Subsets -/

namespace ShuffleSubset

theorem select_subperm (s : ShuffleSubset) (addresses : List Address) :
    (s.select addresses).Subperm addresses := by
  rw [select]
  split
  · exact .refl _
  · -- sorting and shuffling give back what they are given, and only the cut drops any
    have hall : (shuffle (KeyStream.ofSeed (Hash.ofText s.key))
        (addresses.mergeSort ordered)).Perm addresses :=
      (shuffle_perm _ _).trans (List.mergeSort_perm _ _)
    exact (List.take_sublist _ _).subperm.trans hall.subperm

theorem length_select (s : ShuffleSubset) (addresses : List Address) :
    (s.select addresses).length
      = if s.size = 0 then addresses.length else min s.size addresses.length := by
  rw [select]
  split
  · split <;> omega
  · rw [if_neg (by omega), List.length_take, (shuffle_perm _ _).length_eq, List.length_mergeSort]

theorem select_eq_nil_iff {s : ShuffleSubset} {addresses : List Address} :
    s.select addresses = [] ↔ addresses = [] := by
  rw [← List.length_eq_zero_iff, ← List.length_eq_zero_iff, length_select]
  split <;> omega

theorem nodup_select (s : ShuffleSubset) {addresses : List Address}
    (hnodup : (addresses.map Address.addr).Nodup) : ((s.select addresses).map Address.addr).Nodup := by
  obtain ⟨l, hperm, hsub⟩ := s.select_subperm addresses
  rw [← (hperm.map Address.addr).nodup_iff]
  exact hnodup.sublist (hsub.map Address.addr)

end ShuffleSubset

namespace Publication

variable {scheme : String} {services : List Service}

/-! ## Addresses -/

/-- Whether somebody on a list has an endpoint that is usable under a scheme. -/
def Reachable (scheme : String) (services : List Service) : Prop :=
  ∃ s ∈ services, (Endpoint.resolve s.endpoint scheme).isOk

instance (scheme : String) (services : List Service) : Decidable (Reachable scheme services) :=
  inferInstanceAs (Decidable (∃ s ∈ services, _))

theorem addressOf?_eq_none_iff {s : Service} :
    addressOf? scheme s = none ↔ ¬ (Endpoint.resolve s.endpoint scheme).isOk := by
  rw [addressOf?]
  cases Endpoint.resolve s.endpoint scheme <;> simp [Except.isOk, Except.toBool]

theorem addr_of_mem_distinct {seen : List String} {as : List Address} {a : Address}
    (h : a ∈ distinct seen as) : a ∈ as ∧ a.addr ∉ seen := by
  induction as generalizing seen with
  | nil => exact absurd h List.not_mem_nil
  | cons b rest ih =>
    rw [distinct] at h
    split at h
    · exact ⟨List.mem_cons_of_mem b (ih h).1, (ih h).2⟩
    · rename_i hnew
      rcases List.mem_cons.1 h with rfl | hlater
      · exact ⟨List.mem_cons_self, hnew⟩
      · obtain ⟨hmem, hfresh⟩ := ih hlater
        exact ⟨List.mem_cons_of_mem b hmem, fun hold => hfresh (List.mem_cons_of_mem _ hold)⟩

theorem nodup_distinct (seen : List String) (as : List Address) :
    ((distinct seen as).map Address.addr).Nodup := by
  induction as generalizing seen with
  | nil => exact List.nodup_nil
  | cons a rest ih =>
    rw [distinct]
    split
    · exact ih seen
    · rw [List.map_cons, List.nodup_cons]
      refine ⟨?_, ih _⟩
      intro hagain
      obtain ⟨b, hb, heq⟩ := List.mem_map.1 hagain
      exact (addr_of_mem_distinct hb).2 (heq ▸ List.mem_cons_self)

theorem distinct_eq_nil_iff {as : List Address} : distinct [] as = [] ↔ as = [] := by
  cases as with
  | nil => exact Iff.rfl
  | cons a rest => simp [distinct]

theorem usable_eq_nil_iff : usable scheme services = [] ↔ ¬ Reachable scheme services := by
  rw [usable, distinct_eq_nil_iff, List.filterMap_eq_nil_iff, Reachable]
  simp only [addressOf?_eq_none_iff, not_exists, not_and]

/-! ## Publications -/

variable (scheme services) (subset? : Option ShuffleSubset)

theorem ofServices_subperm :
    (ofServices scheme (subset?.map ShuffleSubset.select) services).Subperm
      (usable scheme services) := by
  cases subset? with
  | none => exact .refl _
  | some s => exact s.select_subperm _

/-- **Nothing is published exactly if no endpoint is usable.** -/
theorem ofServices_eq_nil_iff :
    ofServices scheme (subset?.map ShuffleSubset.select) services = []
      ↔ ¬ Reachable scheme services := by
  rw [← usable_eq_nil_iff]
  cases subset? with
  | none => exact Iff.rfl
  | some s => exact ShuffleSubset.select_eq_nil_iff

theorem nodup_ofServices :
    ((ofServices scheme (subset?.map ShuffleSubset.select) services).map Address.addr).Nodup := by
  cases subset? with
  | none => exact nodup_distinct [] _
  | some s => exact s.nodup_select (nodup_distinct [] _)

@[simp] theorem address_nodes (addresses : List Address) :
    (nodes addresses).map Node.address = addresses.map Address.addr := by
  rw [nodes, List.map_map]
  rfl

end Publication

end Steering
