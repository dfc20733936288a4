import Mathlib.Data.Prod.Lex
import Mathlib.Data.String.Basic
import Steering.Proofs.Publication

/-!
# `Steering.Proofs.Subset` — the same members give the same subset

A registry may list the same instances in another order every time, and a subset must not move with it.
What stands between is a sort. It compares instance ids first, and ids may repeat within a list, since
only addresses are told apart before a subset is taken; so among equal ids the address has to decide. The
two together are a linear order (`rank`), and on a list without repeated addresses no two entries share a
rank. That leaves one sorted list for all orders of the same members (`mergeSort_ordered_of_perm`), and
shuffle and cut are functions of that list, the key and the size.
-/

namespace Steering.ShuffleSubset

/-- What the fixed order compares: the instance's id, and then the address. -/
def rank (a : Address) : String ×ₗ String := toLex (a.service.id, a.addr)

theorem ordered_iff {a b : Address} : ordered a b = true ↔ rank a ≤ rank b := by
  rw [ordered, rank, rank, Prod.Lex.toLex_le_toLex]
  by_cases hid : a.service.id = b.service.id
  · simp [hid]
  · simp [hid]

variable {addresses others : List Address}

theorem eq_of_rank_eq (hnodup : (addresses.map Address.addr).Nodup) {a b : Address}
    (ha : a ∈ addresses) (hb : b ∈ addresses) (h : rank a = rank b) : a = b :=
  List.inj_on_of_nodup_map hnodup ha hb (congrArg (fun r => (ofLex r).2) h)

theorem pairwise_mergeSort_ordered (addresses : List Address) :
    (addresses.mergeSort ordered).Pairwise fun a b => rank a ≤ rank b := by
  have htrans : ∀ a b c, ordered a b = true → ordered b c = true → ordered a c = true :=
    fun a b c hab hbc => ordered_iff.2 ((ordered_iff.1 hab).trans (ordered_iff.1 hbc))
  have htotal : ∀ a b, (ordered a b || ordered b a) = true := by
    intro a b
    rw [Bool.or_eq_true, ordered_iff, ordered_iff]
    exact le_total _ _
  exact (List.pairwise_mergeSort htrans htotal addresses).imp ordered_iff.1

/-- **One sorted list for all orders of the same members.** -/
theorem mergeSort_ordered_of_perm (hnodup : (addresses.map Address.addr).Nodup)
    (hperm : others.Perm addresses) : others.mergeSort ordered = addresses.mergeSort ordered := by
  have hboth : (others.mergeSort ordered).Perm (addresses.mergeSort ordered) :=
    (List.mergeSort_perm _ _).trans (hperm.trans (List.mergeSort_perm _ _).symm)
  refine hboth.eq_of_pairwise ?_ (pairwise_mergeSort_ordered _) (pairwise_mergeSort_ordered _)
  intro a b ha hb hab hba
  have ha' : a ∈ addresses := hperm.mem_iff.1 (List.mem_mergeSort.1 ha)
  have hb' : b ∈ addresses := List.mem_mergeSort.1 hb
  exact eq_of_rank_eq hnodup ha' hb' (le_antisymm hab hba)

theorem select_of_uncut {s : ShuffleSubset} (h : s.size = 0 ∨ addresses.length ≤ s.size) :
    s.select addresses = addresses := by
  rw [select, if_pos h]

/-- Where a list is cut, the order in which it was listed is gone. -/
theorem select_of_perm {s : ShuffleSubset} (hnodup : (addresses.map Address.addr).Nodup)
    (hperm : others.Perm addresses) (hsize : 0 < s.size) (hcut : s.size < addresses.length) :
    s.select others = s.select addresses := by
  have hlength := hperm.length_eq
  rw [select, select, if_neg (by omega), if_neg (by omega), mergeSort_ordered_of_perm hnodup hperm]

/-- **A subset depends on the members and the key only.** A list is left as it is if the size is zero or
not smaller than the list; from any other, just as many of its addresses are taken as the size says, none
of them twice. Whatever the order in which the same members are listed, the same are taken, and where the
list is cut they come in the same order too. -/
theorem subset_of_members (s : ShuffleSubset) (hnodup : (addresses.map Address.addr).Nodup) :
    (s.size = 0 ∨ addresses.length ≤ s.size → s.select addresses = addresses) ∧
    (0 < s.size → s.size < addresses.length →
      (s.select addresses).length = s.size ∧ ((s.select addresses).map Address.addr).Nodup ∧
        ∀ a ∈ s.select addresses, a ∈ addresses) ∧
    ∀ others : List Address, others.Perm addresses →
      (s.select others).Perm (s.select addresses) ∧
        (0 < s.size → s.size < addresses.length → s.select others = s.select addresses) := by
  refine ⟨select_of_uncut, ?_, ?_⟩
  · intro hsize hcut
    have hlength := s.length_select addresses
    rw [if_neg (by omega), Nat.min_eq_left (by omega)] at hlength
    exact ⟨hlength, s.nodup_select hnodup, fun a ha => (s.select_subperm addresses).subset ha⟩
  · intro others hperm
    refine ⟨?_, select_of_perm hnodup hperm⟩
    by_cases huncut : s.size = 0 ∨ addresses.length ≤ s.size
    · have huncut' : s.size = 0 ∨ others.length ≤ s.size := by rwa [hperm.length_eq]
      rw [select_of_uncut huncut, select_of_uncut huncut']
      exact hperm
    · rw [select_of_perm hnodup hperm (by omega) (by omega)]

/-! ## Ids that repeat -/

/-- Four addresses of two ids. -/
def shared : List Address :=
  [("2", "d:1"), ("1", "b:1"), ("2", "a:1"), ("1", "c:1")].map fun (id, addr) =>
    { scheme := "grpc", addr, service := { id, name := "order", endpoint := "grpc://" ++ addr } }

/-- Three of four addresses are the same three, in the same order, if they are listed backwards. -/
theorem subset_of_members_backwards :
    let s : ShuffleSubset := { key := "client-a", size := 3 }
    (shared.map Address.addr).Nodup ∧ s.select shared.reverse = s.select shared ∧
      (s.select shared).length = 3 ∧ ∀ a ∈ s.select shared, a ∈ shared := by
  intro s
  have hnodup : (shared.map Address.addr).Nodup := by decide
  obtain ⟨-, hcut, hperm⟩ := s.subset_of_members hnodup
  obtain ⟨hlength, -, hmem⟩ := hcut (by decide) (by decide)
  exact ⟨hnodup, (hperm _ (List.reverse_perm shared)).2 (by decide) (by decide), hlength, hmem⟩

end Steering.ShuffleSubset
