import Steering.Proofs.RoundRobin.Run

/-!
# `Steering.Proofs.RoundRobin.Bound` — credits do not drift

Candidates change from call to call, so no formula says what one address has. An address that is
filtered out again and again, or whose peers leave and come back with nothing, keeps whatever it
had, and the question is whether such credit can pile up.

It cannot, and the reason is about *sets* of addresses. Let a table hold at most `n` addresses and a
pick pay at most `W`. Then any `s` of them hold together at most

> `(n - 1) W + (n - 2) W + … + (n - s) W`

(`allowance`), and owe at most as much (`Level`). A single address is the case `s = 1`: it stays
between `-(n - 1) W` and `(n - 1) W`.

Why sets: what a pick does to a set without the chosen node is bounded by what the set *with* it may
hold, since the chosen one had at least as much as each candidate in it. So the bound for `s` needs
the one for `s + 1`, and the chain ends at `n`, where a further address would add nothing. The same
argument, with the candidates outside a set in the place of those inside, bounds the debts.
-/

namespace Steering.RoundRobin

/-! ## The allowance of a set -/

/-- What `s` addresses of a table of `n` may hold together. Every further address adds one payment
less than the one before. -/
def allowance (n : Nat) (W : Int) : Nat → Int
  | 0 => 0
  | s + 1 => allowance n W s + (n - 1 - s) * W

theorem allowance_one (n : Nat) (W : Int) : allowance n W 1 = (n - 1) * W := by
  simp [allowance]

section

variable {n : Nat} {W : Int} (hW : 0 ≤ W)
include hW

/-- No further address adds more than the next one … -/
theorem allowance_add_le (s k : Nat) :
    allowance n W (s + k) ≤ allowance n W s + k * ((n - 1 - s) * W) := by
  induction k with
  | zero => simp
  | succ k ih =>
    have hstep : ((n : Int) - 1 - (s + k : Nat)) * W ≤ (n - 1 - s) * W :=
      mul_le_mul_of_nonneg_right (by omega) hW
    rw [← Nat.add_assoc, allowance, Nat.cast_succ, add_mul, one_mul]
    linarith

/-- … and none of the first ones adds less than the last. -/
theorem le_allowance_add (s k : Nat) :
    allowance n W s + k * ((n - (s + k : Nat)) * W) ≤ allowance n W (s + k) := by
  induction k with
  | zero => simp
  | succ k ih =>
    have hstep : ((n : Int) - (s + (k + 1) : Nat)) * W ≤ (n - (s + k : Nat)) * W :=
      mul_le_mul_of_nonneg_right (by omega) hW
    have hk := mul_le_mul_of_nonneg_left hstep (Int.natCast_nonneg k)
    have hlast : ((n : Int) - 1 - (s + k : Nat)) * W = (n - (s + (k + 1) : Nat)) * W := by
      congr 1
      omega
    rw [← Nat.add_assoc s k 1, allowance, Nat.cast_succ, add_mul, one_mul, hlast]
    rw [Nat.add_assoc s k 1]
    linarith

theorem allowance_mono {s t : Nat} (hst : s ≤ t) (ht : t ≤ n) :
    allowance n W s ≤ allowance n W t := by
  obtain ⟨k, rfl⟩ := Nat.exists_eq_add_of_le hst
  have hstep : 0 ≤ ((n : Int) - (s + k : Nat)) * W := mul_nonneg (by omega) hW
  have := mul_nonneg (Int.natCast_nonneg k) hstep
  have := le_allowance_add (n := n) hW s k
  linarith

end

/-! ## The invariant -/

/-- Every set of addresses of a table holds at most its allowance, and owes at most as much. -/
structure Level (n : Nat) (W : Int) (credits : Credits) : Prop where
  holds : ∀ S : Finset String, (∀ a ∈ S, a ∈ credits.keys) →
    ∑ a ∈ S, credits.of a ≤ allowance n W S.card
  owes : ∀ S : Finset String, (∀ a ∈ S, a ∈ credits.keys) →
    -∑ a ∈ S, credits.of a ≤ allowance n W S.card

theorem level_empty (n : Nat) (W : Int) : Level n W Table.empty where
  holds S hS := by
    rw [Finset.eq_empty_of_forall_notMem fun a ha => absurd (hS a ha) (by simp)]
    exact le_refl 0
  owes S hS := by
    rw [Finset.eq_empty_of_forall_notMem fun a ha => absurd (hS a ha) (by simp)]
    exact le_refl 0

theorem Level.update {n : Nat} {W : Int} {credits : Credits} (h : Level n W credits)
    (nodes : List WeightedNode) : Level n W (RoundRobin.update credits nodes) where
  holds S hS := by
    rw [Finset.sum_congr rfl fun a ha => of_update (hS a ha)]
    exact h.holds S fun a ha => keys_update_subset (hS a ha)
  owes S hS := by
    rw [Finset.sum_congr rfl fun a ha => of_update (hS a ha)]
    exact h.owes S fun a ha => keys_update_subset (hS a ha)

/-- The addresses of a set that a table holds have all that the set has. -/
theorem sum_of_filter_keys (credits : Credits) (S : Finset String) :
    ∑ a ∈ S.filter (· ∈ credits.keys), credits.of a = ∑ a ∈ S, credits.of a :=
  Finset.sum_filter_of_ne fun _ _ hne => by
    by_contra hk
    exact hne (Credits.of_eq_zero hk)

section

variable {n : Nat} {W : Int} {credits : Credits}

/-- The invariant speaks of any addresses: those that a table does not hold have nothing. -/
theorem Level.holds_any (h : Level n W credits) (hW : 0 ≤ W) {S : Finset String}
    (hS : S.card ≤ n) : ∑ a ∈ S, credits.of a ≤ allowance n W S.card := by
  rw [← sum_of_filter_keys]
  refine le_trans (h.holds _ fun a ha => (Finset.mem_filter.1 ha).2) ?_
  exact allowance_mono hW (Finset.card_filter_le _ _) hS

theorem Level.owes_any (h : Level n W credits) (hW : 0 ≤ W) {S : Finset String}
    (hS : S.card ≤ n) : -∑ a ∈ S, credits.of a ≤ allowance n W S.card := by
  rw [← sum_of_filter_keys]
  refine le_trans (h.owes _ fun a ha => (Finset.mem_filter.1 ha).2) ?_
  exact allowance_mono hW (Finset.card_filter_le _ _) hS

end

theorem card_le_size {t : Credits} {S : Finset String} (hS : ∀ a ∈ S, a ∈ t.keys) :
    S.card ≤ t.size := by
  rw [Table.size_eq_length_keys, ← List.toFinset_card_of_nodup t.nodup_keys]
  exact Finset.card_le_card fun a ha => List.mem_toFinset.2 (hS a ha)

/-! ## One turn -/

section

variable {n : Nat} {W : Int} {credits after : Credits} {nodes : List WeightedNode}
  {j : WeightedNode}

/-- What everybody has when all candidates have been paid and nobody has been charged. -/
def raised (credits : Credits) (nodes : List WeightedNode) (a : String) : Int :=
  credits.of a + gain nodes a

theorem sum_raised (credits : Credits) (nodes : List WeightedNode) (S : Finset String) :
    ∑ a ∈ S, raised credits nodes a = ∑ a ∈ S, credits.of a + ∑ a ∈ S, gain nodes a :=
  Finset.sum_add_distrib

theorem Turn.of_raised (ht : Turn credits nodes j after) (a : String) :
    after.of a = raised credits nodes a - if j.address = a then total nodes else 0 :=
  ht.of a

theorem Turn.raised_le (ht : Turn credits nodes j after) {a : String}
    (ha : a ∈ nodes.map WeightedNode.address) :
    raised credits nodes a ≤ raised credits nodes j.address := by
  obtain ⟨m, hm, rfl⟩ := List.mem_map.1 ha
  exact ht.leads m hm

/-- A set with the chosen node in it is charged the total … -/
theorem Turn.sum_of_mem (ht : Turn credits nodes j after) {S : Finset String}
    (hj : j.address ∈ S) :
    ∑ a ∈ S, after.of a = ∑ a ∈ S, raised credits nodes a - total nodes := by
  rw [Finset.sum_congr rfl fun a _ => ht.of_raised a, Finset.sum_sub_distrib, Finset.sum_ite_eq,
    if_pos hj]

/-- … and any other set is only paid. -/
theorem Turn.sum_of_notMem (ht : Turn credits nodes j after) {S : Finset String}
    (hj : j.address ∉ S) : ∑ a ∈ S, after.of a = ∑ a ∈ S, raised credits nodes a := by
  rw [Finset.sum_congr rfl fun a _ => ht.of_raised a, Finset.sum_sub_distrib, Finset.sum_ite_eq,
    if_neg hj, sub_zero]

/-- The candidates of a set have together at most as many times the chosen one's credit. -/
theorem Turn.sum_raised_le (ht : Turn credits nodes j after) {C : Finset String}
    (hC : ∀ a ∈ C, a ∈ nodes.map WeightedNode.address) :
    ∑ a ∈ C, raised credits nodes a ≤ C.card * raised credits nodes j.address := by
  have := Finset.sum_le_card_nsmul C _ _ fun a ha => ht.raised_le (hC a ha)
  rwa [nsmul_eq_mul] at this

theorem Turn.address_mem_keys (ht : Turn credits nodes j after) : j.address ∈ after.keys :=
  (ht.mem_keys _).2 (Or.inr (List.mem_map_of_mem ht.mem))

/-- If a set without the chosen node went over its allowance, it left that node little: both
together hold at most what one address more may hold. -/
theorem Level.lead_le_of_over (h : Level n W credits) (ht : Turn credits nodes j after)
    (hW : total nodes ≤ W) (hn : after.size ≤ n) {S : Finset String}
    (hS : ∀ a ∈ S, a ∈ after.keys) (hj : j.address ∉ S)
    (hover : allowance n W S.card < ∑ a ∈ S, raised credits nodes a) :
    raised credits nodes j.address ≤ (n - S.card) * W := by
  have hT : ∀ a ∈ insert j.address S, a ∈ after.keys := by
    intro a ha
    rcases Finset.mem_insert.1 ha with rfl | ha
    · exact ht.address_mem_keys
    · exact hS a ha
  have hheld := h.holds_any (le_trans (total_nonneg nodes) hW) (le_trans (card_le_size hT) hn)
  have hgain := sum_gain_le nodes (insert j.address S)
  have hraised := sum_raised credits nodes (insert j.address S)
  rw [Finset.sum_insert hj (f := raised credits nodes)] at hraised
  rw [Finset.card_insert_of_notMem hj, allowance] at hheld
  have hstep : ((n : Int) - 1 - S.card) * W = (n - S.card) * W - W := by ring
  linarith

/-- What a set has when all are paid: its candidates no more than the chosen one, and the others
what they had. -/
theorem Level.sum_raised_le (h : Level n W credits) (ht : Turn credits nodes j after) (hW : 0 ≤ W)
    {C D : Finset String} (hC : ∀ a ∈ C, a ∈ nodes.map WeightedNode.address)
    (hD : ∀ a ∈ D, a ∉ nodes.map WeightedNode.address) (hn : D.card ≤ n) :
    ∑ a ∈ C, raised credits nodes a + ∑ a ∈ D, raised credits nodes a
      ≤ C.card * raised credits nodes j.address + allowance n W D.card := by
  have hunpaid : ∀ a ∈ D, raised credits nodes a = credits.of a := fun a ha => by
    rw [raised, gain_eq_zero (hD a ha), add_zero]
  rw [Finset.sum_congr rfl hunpaid]
  exact add_le_add (ht.sum_raised_le hC) (h.holds_any hW hn)

/-- **What a set holds stays within its allowance.** Only a set without the chosen node gets richer.
If it went over, the chosen node had so little that the candidates in the set, who had no more, could
not have brought it there. -/
theorem Level.holds_turn (h : Level n W credits) (ht : Turn credits nodes j after)
    (hW : total nodes ≤ W) (hn : after.size ≤ n) {S : Finset String}
    (hS : ∀ a ∈ S, a ∈ after.keys) : ∑ a ∈ S, after.of a ≤ allowance n W S.card := by
  have hpos : 0 ≤ W := le_trans (total_nonneg nodes) hW
  have hSn : S.card ≤ n := le_trans (card_le_size hS) hn
  by_cases hj : j.address ∈ S
  · -- with the chosen node in it, a set is charged at least what it is paid
    have hheld := h.holds_any hpos hSn
    have hgain := sum_gain_le nodes S
    rw [ht.sum_of_mem hj, sum_raised]
    linarith
  · rw [ht.sum_of_notMem hj]
    by_contra hover
    rw [not_le] at hover
    have hlead := h.lead_le_of_over ht hW hn hS hj hover
    -- the candidates in the set had no more than the leader, the others were not paid
    have hsplit := Finset.sum_filter_add_sum_filter_not S
      (· ∈ nodes.map WeightedNode.address) (raised credits nodes)
    have hcard := Finset.card_filter_add_card_filter_not (s := S)
      (p := (· ∈ nodes.map WeightedNode.address))
    set C := S.filter (· ∈ nodes.map WeightedNode.address)
    set D := S.filter (¬ · ∈ nodes.map WeightedNode.address)
    have hsum := h.sum_raised_le ht hpos (C := C) (D := D)
      (fun a ha => (Finset.mem_filter.1 ha).2) (fun a ha => (Finset.mem_filter.1 ha).2) (by omega)
    have hlimit := le_allowance_add (n := n) hpos D.card C.card
    rw [Nat.add_comm D.card, hcard] at hlimit
    have := mul_le_mul_of_nonneg_left hlead (Int.natCast_nonneg C.card)
    linarith

/-- If a set with the chosen node in it went over with its debts, the chosen node had little:
without it, the set owes at most what one address fewer may owe. -/
theorem Level.lead_le_of_under (h : Level n W credits) (hW : total nodes ≤ W)
    {S : Finset String} (hS : S.card ≤ n) (hj : j.address ∈ S)
    (hover : allowance n W S.card < -(∑ a ∈ S, raised credits nodes a - total nodes)) :
    raised credits nodes j.address ≤ -((n - 1 - S.card) * W) := by
  obtain ⟨s, hs⟩ : ∃ s, S.card = s + 1 :=
    Nat.exists_eq_add_one.2 (Finset.card_pos.2 ⟨_, hj⟩)
  have hrest := h.owes_any (le_trans (total_nonneg nodes) hW) (S := S.erase j.address)
    (le_trans Finset.card_erase_le hS)
  rw [Finset.card_erase_of_mem hj, hs, Nat.add_sub_cancel] at hrest
  have hself := Finset.add_sum_erase S credits.of hj
  have hgain := Finset.single_le_sum (f := gain nodes) (fun a _ => gain_nonneg nodes a) hj
  have hraised := sum_raised credits nodes S
  rw [hs, allowance] at hover
  rw [raised, hs, Nat.cast_succ]
  have hstep : ((n : Int) - 1 - (s + 1)) * W = (n - 1 - s) * W - W := by ring
  linarith

/-- The candidates outside a set are paid what the set is not. -/
theorem sum_gain_sdiff (nodes : List WeightedNode) (S : Finset String) :
    ∑ a ∈ S, gain nodes a + ∑ a ∈ (nodes.map WeightedNode.address).toFinset \ S, gain nodes a
      = total nodes := by
  rw [← Finset.sum_union Finset.disjoint_sdiff, Finset.union_sdiff_self_eq_union]
  refine sum_gain_eq fun m hm => Finset.mem_union_right _ ?_
  exact List.mem_toFinset.2 (List.mem_map_of_mem hm)

/-- **What a set owes stays within its allowance.** Only a set with the chosen node gets poorer, by
what the candidates outside it are paid. If it went over, the chosen node had so little that those
candidates, who had no more, owed too much together with the set. -/
theorem Level.owes_turn (h : Level n W credits) (ht : Turn credits nodes j after)
    (hW : total nodes ≤ W) (hn : after.size ≤ n) {S : Finset String}
    (hS : ∀ a ∈ S, a ∈ after.keys) : -∑ a ∈ S, after.of a ≤ allowance n W S.card := by
  have hpos : 0 ≤ W := le_trans (total_nonneg nodes) hW
  have hSn : S.card ≤ n := le_trans (card_le_size hS) hn
  by_cases hj : j.address ∈ S
  · rw [ht.sum_of_mem hj]
    by_contra hover
    rw [not_le] at hover
    have hlead := h.lead_le_of_under hW hSn hj hover
    -- the candidates outside the set had no more than the leader, so they owe as much again
    have hpaid := sum_gain_sdiff nodes S
    set C := (nodes.map WeightedNode.address).toFinset \ S with hCdef
    have hCmem : ∀ a ∈ C, a ∈ nodes.map WeightedNode.address := fun a ha => by
      rw [hCdef, Finset.mem_sdiff, List.mem_toFinset] at ha
      exact ha.1
    have hunion : ∀ a ∈ S ∪ C, a ∈ after.keys := by
      intro a ha
      rcases Finset.mem_union.1 ha with ha | ha
      · exact hS a ha
      · exact (ht.mem_keys a).2 (Or.inr (hCmem a ha))
    have howes := h.owes_any hpos (le_trans (card_le_size hunion) hn)
    rw [Finset.sum_union Finset.disjoint_sdiff, Finset.card_union_of_disjoint Finset.disjoint_sdiff]
      at howes
    have hC := ht.sum_raised_le hCmem
    have hCraised := sum_raised credits nodes C
    have hSraised := sum_raised credits nodes S
    have hlimit := allowance_add_le (n := n) hpos S.card C.card
    have := mul_le_mul_of_nonneg_left hlead (Int.natCast_nonneg C.card)
    rw [mul_neg] at this
    linarith
  · -- without the chosen node nobody in the set is charged
    have howes := h.owes_any hpos hSn
    have hgain := Finset.sum_nonneg fun a (_ : a ∈ S) => gain_nonneg nodes a
    rw [ht.sum_of_notMem hj, sum_raised]
    linarith

theorem Level.turn (h : Level n W credits) (ht : Turn credits nodes j after)
    (hW : total nodes ≤ W) (hn : after.size ≤ n) : Level n W after :=
  ⟨fun _ hS => h.holds_turn ht hW hn hS, fun _ hS => h.owes_turn ht hW hn hS⟩

end

/-! ## Runs -/

/-- No pick of a run pays more than a bound. -/
def PaysAtMost (W : Int) (calls : List Call) : Prop :=
  ∀ nodes, Call.pick nodes ∈ calls → total nodes ≤ W

theorem Level.act {n : Nat} {W : Int} {credits : Credits} (h : Level n W credits) (call : Call)
    (hW : PaysAtMost W [call]) (hn : (call.act credits).2.size ≤ n) :
    Level n W (call.act credits).2 := by
  cases call with
  | update nodes => exact h.update nodes
  | pick nodes =>
    rcases act_pick credits nodes with ⟨-, ha⟩ | ⟨j, -, ht⟩
    · rw [ha]
      exact h
    · exact h.turn ht (hW nodes (List.mem_singleton_self _)) hn

/-- The invariant holds all along a run that keeps to the size of the table and to the payment. -/
theorem Level.after {n : Nat} {W : Int} {credits : Credits} (h : Level n W credits)
    {calls : List Call} (hW : PaysAtMost W calls)
    (hn : ∀ p, p <+: calls → (RoundRobin.after credits p).size ≤ n) :
    Level n W (RoundRobin.after credits calls) := by
  induction calls generalizing credits with
  | nil => exact h
  | cons call rest ih =>
    refine ih (h.act call (fun nodes hm => hW nodes ?_) (hn [call] ?_))
      (fun nodes hm => hW nodes (List.mem_cons_of_mem _ hm)) (fun p hp => hn (call :: p) ?_)
    · exact List.mem_cons.2 (Or.inl (List.mem_singleton.1 hm))
    · exact List.cons_prefix_cons.2 ⟨rfl, List.nil_prefix⟩
    · exact List.cons_prefix_cons.2 ⟨rfl, hp⟩

/-- A single address is a set of one. -/
theorem Level.abs_le {n : Nat} {W : Int} {credits : Credits} (h : Level n W credits) {a : String}
    {c : Int} (hc : credits.get? a = some c) : -((n - 1) * W) ≤ c ∧ c ≤ (n - 1) * W := by
  have hin : ∀ b ∈ ({a} : Finset String), b ∈ credits.keys := fun b hb => by
    rw [Finset.mem_singleton.1 hb, Table.mem_keys_iff, Table.contains, hc]
    rfl
  have hholds := h.holds {a} hin
  have howes := h.owes {a} hin
  rw [Finset.sum_singleton, Finset.card_singleton, allowance_one, Credits.of_eq hc] at hholds howes
  exact ⟨by linarith, hholds⟩

end Steering.RoundRobin
