import Steering.Proofs.RoundRobin.Run

/-!
# `Steering.Proofs.RoundRobin.Share` — every node gets its share

Here the candidates stay what they are: every pick sees the same nodes, in whatever order, and every
update names the same addresses. Nothing is then left to the history but the order of turns. After
`k` picks the credit of an address is

> `k * w - W * n`

where `w` is its weight, `W` the total and `n` the number of its turns (`of_after`), so what can be
said about credits can be said about shares. Two things are said: the credits of the nodes add up to
nothing, and each of them is above `-W` (`Balanced`). The second is where the choice of a leader
matters: of credits that add up to `W` before the charge the greatest is positive, so the charge
leaves more than `-W`.

An address is therefore never a full turn ahead of its share, and being behind by more than `W` for
each of the others would need one of them to be ahead. When `W` divides all of `k * w` the credits
are multiples of `W` above `-W` that add up to nothing, that is, zero: the cycle closes.
-/

namespace Steering.RoundRobin

/-! ## Runs over the same nodes -/

/-- A call that leaves the nodes what they are. -/
def Call.Serves (nodes : List WeightedNode) : Call → Prop
  | update more => ∀ a, a ∈ more.map WeightedNode.address ↔ a ∈ nodes.map WeightedNode.address
  | pick more => more.Perm nodes

def Call.isPick : Call → Bool
  | update _ => false
  | pick _ => true

def picks (calls : List Call) : Nat := calls.countP Call.isPick

theorem picks_cons (call : Call) (rest : List Call) :
    picks (call :: rest) = picks rest + if call.isPick then 1 else 0 :=
  List.countP_cons

/-- The number of turns that an address gets. -/
def share (credits : Credits) (calls : List Call) (a : String) : Nat :=
  (chosen credits calls).countP fun n => n.address = a

/-- The order of the candidates makes no difference to what a turn is. -/
theorem Turn.perm {credits after : Credits} {nodes more : List WeightedNode} {n : WeightedNode}
    (ht : Turn credits more n after) (h : more.Perm nodes) : Turn credits nodes n after where
  mem := h.mem_iff.1 ht.mem
  leads m hm := by
    rw [← gain_perm h, ← gain_perm h]
    exact ht.leads m (h.mem_iff.2 hm)
  of a := by
    rw [← gain_perm h, ← total_perm h]
    exact ht.of a
  mem_keys a := by
    rw [← (h.map WeightedNode.address).mem_iff]
    exact ht.mem_keys a

/-- A call of such a run is a turn of one of the nodes, or it leaves their credits alone. -/
theorem act_serves {nodes : List WeightedNode} (hne : nodes ≠ []) {call : Call}
    (h : call.Serves nodes) (credits : Credits) :
    (∃ n, call.isPick = true ∧ (call.act credits).1 = some n ∧
        Turn credits nodes n (call.act credits).2) ∨
      (call.isPick = false ∧ (call.act credits).1 = none ∧
        (∀ a ∈ nodes.map WeightedNode.address, (call.act credits).2.of a = credits.of a) ∧
        ∀ a c, (call.act credits).2.get? a = some c → credits.get? a = some c) := by
  cases call with
  | update more =>
    refine Or.inr ⟨rfl, rfl, fun a ha => of_update_of_mem ((h a).2 ha) credits, fun a c hc => ?_⟩
    obtain ⟨hk, hof⟩ := Credits.get?_eq_some_iff.1 hc
    exact Credits.get?_eq_some_iff.2 ⟨keys_update_subset hk, (of_update hk).symm.trans hof⟩
  | pick more =>
    rcases act_pick credits more with ⟨rfl, -⟩ | ⟨n, hn, ht⟩
    · exact absurd h.nil_eq.symm hne
    · exact Or.inl ⟨n, rfl, hn, ht.perm h⟩

section

variable {nodes : List WeightedNode} (hne : nodes ≠ [])
include hne

theorem mem_of_mem_chosen {credits : Credits} {calls : List Call}
    (hs : ∀ call ∈ calls, call.Serves nodes) {n : WeightedNode} (hn : n ∈ chosen credits calls) :
    n ∈ nodes := by
  induction calls generalizing credits with
  | nil => exact absurd hn (by simp [chosen])
  | cons call rest ih =>
    rw [List.forall_mem_cons] at hs
    rw [chosen, List.mem_append] at hn
    rcases hn with hn | hn
    · rcases act_serves hne hs.1 credits with ⟨m, -, hm, ht⟩ | ⟨-, hm, -⟩
      · rw [hm, Option.toList_some, List.mem_singleton] at hn
        exact hn ▸ ht.mem
      · rw [hm] at hn
        exact absurd hn (by simp)
    · exact ih hs.2 hn

theorem length_chosen (credits : Credits) {calls : List Call}
    (hs : ∀ call ∈ calls, call.Serves nodes) : (chosen credits calls).length = picks calls := by
  induction calls generalizing credits with
  | nil => rfl
  | cons call rest ih =>
    rw [List.forall_mem_cons] at hs
    rw [chosen, List.length_append, ih _ hs.2, picks_cons]
    rcases act_serves hne hs.1 credits with ⟨m, hp, hm, -⟩ | ⟨hp, hm, -⟩
    · rw [hm, hp]
      exact Nat.add_comm _ _
    · rw [hm, hp]
      exact Nat.zero_add _

/-- **A credit is what an address has been paid less what its turns have cost.** -/
theorem of_after (credits : Credits) {calls : List Call} (hs : ∀ call ∈ calls, call.Serves nodes)
    {a : String} (ha : a ∈ nodes.map WeightedNode.address) :
    (after credits calls).of a
      = credits.of a + picks calls * gain nodes a - total nodes * share credits calls a := by
  induction calls generalizing credits with
  | nil => simp [picks, share, chosen]
  | cons call rest ih =>
    rw [List.forall_mem_cons] at hs
    rw [after_cons, ih _ hs.2, share, share, chosen, List.countP_append, picks_cons]
    rcases act_serves hne hs.1 credits with ⟨n, hp, hn, ht⟩ | ⟨hp, hn, hof, -⟩
    · rw [ht.of, hp, hn, Option.toList_some, List.countP_singleton]
      by_cases h : n.address = a
      · simp only [h, if_true, decide_true]
        push_cast
        ring
      · simp only [h, if_false, decide_false, if_true, Bool.false_eq_true]
        push_cast
        ring
    · rw [hof a ha, hp, hn]
      simp

/-- What a run leaves at other addresses was there before it. -/
theorem get?_of_get?_after {credits : Credits} {calls : List Call}
    (hs : ∀ call ∈ calls, call.Serves nodes) {a : String}
    (ha : a ∉ nodes.map WeightedNode.address) {c : Int}
    (hc : (after credits calls).get? a = some c) : credits.get? a = some c := by
  induction calls generalizing credits with
  | nil => exact hc
  | cons call rest ih =>
    rw [List.forall_mem_cons] at hs
    have hmid := ih hs.2 hc
    rcases act_serves hne hs.1 credits with ⟨n, -, -, ht⟩ | ⟨-, -, -, hget⟩
    · obtain ⟨hk, hof⟩ := Credits.get?_eq_some_iff.1 hmid
      have hn : n.address ≠ a := fun he => ha (he ▸ List.mem_map_of_mem ht.mem)
      rw [ht.of, gain_eq_zero ha, if_neg hn, add_zero, sub_zero] at hof
      exact Credits.get?_eq_some_iff.2 ⟨((ht.mem_keys a).1 hk).resolve_right ha, hof⟩
    · exact hget a c hmid

end

/-! ## The invariant -/

def addresses (nodes : List WeightedNode) : Finset String :=
  (nodes.map WeightedNode.address).toFinset

theorem mem_addresses {nodes : List WeightedNode} {a : String} :
    a ∈ addresses nodes ↔ a ∈ nodes.map WeightedNode.address :=
  List.mem_toFinset

theorem address_mem {nodes : List WeightedNode} {m : WeightedNode} (hm : m ∈ nodes) :
    m.address ∈ addresses nodes :=
  mem_addresses.2 (List.mem_map_of_mem hm)

/-- The nodes' credits add up to nothing, and nobody owes a full turn. -/
structure Balanced (nodes : List WeightedNode) (credits : Credits) : Prop where
  sum_eq : ∑ a ∈ addresses nodes, credits.of a = 0
  lt : ∀ a ∈ addresses nodes, -total nodes < credits.of a

/-- **A turn keeps the balance.** Before the charge the credits add up to the total, which is
positive, so the greatest of them is. -/
theorem Balanced.turn {nodes : List WeightedNode} {credits after : Credits} {n : WeightedNode}
    (h : Balanced nodes credits) (hW : 0 < total nodes) (ht : Turn credits nodes n after) :
    Balanced nodes after where
  sum_eq := by
    rw [ht.sum_of fun m hm => address_mem hm]
    exact h.sum_eq
  lt a ha := by
    -- paid, the credits add up to the total, so somebody has more than nothing
    have hlead : 0 < credits.of n.address + gain nodes n.address := by
      by_contra hle
      rw [not_lt] at hle
      have hall : ∀ b ∈ addresses nodes, credits.of b + gain nodes b ≤ 0 := fun b hb => by
        obtain ⟨m, hm, rfl⟩ := List.mem_map.1 (mem_addresses.1 hb)
        exact le_trans (ht.leads m hm) hle
      have := Finset.sum_nonpos hall
      rw [Finset.sum_add_distrib, h.sum_eq, sum_gain_eq fun m hm => address_mem hm] at this
      omega
    rw [ht.of]
    split
    · rename_i he
      rw [← he]
      omega
    · have := h.lt a ha
      have := gain_nonneg nodes a
      omega

theorem Balanced.after {nodes : List WeightedNode} {credits : Credits} {calls : List Call}
    (h : Balanced nodes credits) (hW : 0 < total nodes)
    (hs : ∀ call ∈ calls, call.Serves nodes) : Balanced nodes (RoundRobin.after credits calls) := by
  induction calls generalizing credits with
  | nil => exact h
  | cons call rest ih =>
    rw [List.forall_mem_cons] at hs
    have hne : nodes ≠ [] := fun he => by
      rw [he] at hW
      exact absurd hW (by simp)
    refine ih ?_ hs.2
    rcases act_serves hne hs.1 credits with ⟨n, -, -, ht⟩ | ⟨-, -, hof, -⟩
    · exact h.turn hW ht
    · have hof : ∀ a ∈ addresses nodes, (call.act credits).2.of a = credits.of a :=
        fun a ha => hof a (mem_addresses.1 ha)
      refine ⟨?_, fun a ha => ?_⟩
      · rw [Finset.sum_congr rfl hof]
        exact h.sum_eq
      · rw [hof a ha]
        exact h.lt a ha

theorem balanced_of_zero {nodes : List WeightedNode} {credits : Credits} (hW : 0 < total nodes)
    (h : ∀ m ∈ nodes, credits.of m.address = 0) : Balanced nodes credits := by
  have hzero : ∀ a ∈ addresses nodes, credits.of a = 0 := fun a ha => by
    obtain ⟨m, hm, rfl⟩ := List.mem_map.1 (mem_addresses.1 ha)
    exact h m hm
  refine ⟨Finset.sum_eq_zero hzero, fun a ha => ?_⟩
  rw [hzero a ha]
  omega

/-- Since nobody owes a full turn, nobody has more than one full turn for each of the others. -/
theorem Balanced.of_le {nodes : List WeightedNode} {credits : Credits}
    (h : Balanced nodes credits) {a : String} (ha : a ∈ addresses nodes) :
    credits.of a ≤ ((addresses nodes).card - 1) * total nodes := by
  have hself := Finset.add_sum_erase (addresses nodes) credits.of ha
  have hothers := Finset.card_nsmul_le_sum ((addresses nodes).erase a) credits.of (-total nodes)
    fun b hb => le_of_lt (h.lt b (Finset.mem_of_mem_erase hb))
  rw [h.sum_eq] at hself
  rw [Finset.card_erase_of_mem ha, nsmul_eq_mul,
    Nat.cast_sub (Finset.card_pos.2 ⟨a, ha⟩), mul_neg, Nat.cast_one] at hothers
  linarith

/-- Balanced credits that are multiples of the total are zero. -/
theorem Balanced.of_eq_zero {nodes : List WeightedNode} {credits : Credits}
    (h : Balanced nodes credits) (hdvd : ∀ a ∈ addresses nodes, total nodes ∣ credits.of a)
    {a : String} (ha : a ∈ addresses nodes) : credits.of a = 0 := by
  have hnonneg : ∀ b ∈ addresses nodes, 0 ≤ credits.of b := fun b hb => by
    obtain ⟨q, hq⟩ := hdvd b hb
    have hlt := h.lt b hb
    rw [hq] at hlt ⊢
    have hW := total_nonneg nodes
    -- a multiple of the total that is above its negative is not negative
    refine mul_nonneg hW ?_
    by_contra hneg
    have := mul_le_mul_of_nonneg_left (show q ≤ -1 by omega) hW
    linarith
  exact (Finset.sum_eq_zero_iff_of_nonneg hnonneg).1 h.sum_eq a ha

/-! ## Shares -/

/-- **Round robin is exactly proportional**: nobody is a full turn ahead of its share, and when the
shares are whole numbers of turns, they are met and the credits are back where they started. -/
theorem picks_proportional {nodes : List WeightedNode}
    (hd : (nodes.map WeightedNode.address).Nodup) (hW : 0 < total nodes) {credits : Credits}
    (h0 : ∀ m ∈ nodes, credits.of m.address = 0) {calls : List Call}
    (hs : ∀ call ∈ calls, call.Serves nodes) :
    ((chosen credits calls).length = picks calls ∧ ∀ n ∈ chosen credits calls, n ∈ nodes) ∧
    (∀ m ∈ nodes,
      total nodes * share credits calls m.address < picks calls * m.effective + total nodes ∧
      picks calls * m.effective
        ≤ total nodes * share credits calls m.address + (nodes.length - 1) * total nodes) ∧
    ((∀ m ∈ nodes, total nodes ∣ picks calls * m.effective) →
      (∀ m ∈ nodes,
        (share credits calls m.address : Int) = picks calls * m.effective / total nodes) ∧
      ∀ a c, (after credits calls).get? a = some c →
        c = 0 ∨ a ∉ nodes.map WeightedNode.address ∧ credits.get? a = some c) := by
  have hne : nodes ≠ [] := fun he => by
    rw [he] at hW
    exact absurd hW (by simp)
  have hbal := (balanced_of_zero hW h0).after hW hs
  have hof : ∀ m ∈ nodes, (after credits calls).of m.address
      = picks calls * m.effective - total nodes * share credits calls m.address := fun m hm => by
    rw [of_after hne credits hs (List.mem_map_of_mem hm), h0 m hm, gain_eq_effective hd hm,
      zero_add]
  refine ⟨⟨length_chosen hne credits hs, fun n => mem_of_mem_chosen hne hs⟩, fun m hm => ?_,
    fun hdvd => ?_⟩
  · have hlt := hbal.lt _ (address_mem hm)
    have hle := hbal.of_le (address_mem hm)
    rw [addresses, List.toFinset_card_of_nodup hd, List.length_map] at hle
    rw [hof m hm] at hlt hle
    exact ⟨by linarith, by linarith⟩
  · have hzero : ∀ a ∈ addresses nodes, (after credits calls).of a = 0 := fun a =>
      hbal.of_eq_zero fun b hb => by
        obtain ⟨m, hm, rfl⟩ := List.mem_map.1 (mem_addresses.1 hb)
        rw [hof m hm]
        exact Int.dvd_sub (hdvd m hm) (Int.dvd_mul_right _ _)
    refine ⟨fun m hm => ?_, fun a c hc => ?_⟩
    · have h := hof m hm
      rw [hzero _ (address_mem hm)] at h
      rw [sub_eq_zero.1 h.symm, Int.mul_ediv_cancel_left _ (ne_of_gt hW)]
    · by_cases ha : a ∈ nodes.map WeightedNode.address
      · refine Or.inl ?_
        rw [← Credits.of_eq hc]
        exact hzero a (mem_addresses.2 ha)
      · exact Or.inr ⟨ha, get?_of_get?_after hne hs ha hc⟩

/-- Three nodes, one of them drained. -/
def trio : List WeightedNode := [plain "a" 3, plain "b" 1, plain "c" 0]

/-- Four picks among them, in changing order, with an update in between. -/
def cycle : List Call :=
  [.pick trio, .pick trio.reverse, .update [plain "c" 9, plain "a" 0, plain "b" 2],
    .pick trio.reverse, .pick trio]

theorem cycle_serves_trio : ∀ call ∈ cycle, call.Serves trio := by
  intro call hc
  simp only [cycle, List.mem_cons, List.not_mem_nil, or_false] at hc
  rcases hc with rfl | rfl | rfl | rfl | rfl
  · exact List.Perm.refl _
  · exact List.reverse_perm _
  · intro a
    simp only [trio, plain, WeightedNode.address, List.map_cons, List.map_nil, List.mem_cons,
      List.not_mem_nil, or_false]
    tauto
  · exact List.reverse_perm _
  · exact List.Perm.refl _

/-- The table starts with credit at an address that is none of theirs; the update prunes it. -/
theorem picks_proportional_cycle :
    0 < total trio ∧ picks cycle = 4 ∧
      (share (Table.empty.insert "z" 7) cycle "a" : Int) = 3 ∧
      (share (Table.empty.insert "z" 7) cycle "b" : Int) = 1 ∧
      (share (Table.empty.insert "z" 7) cycle "c" : Int) = 0 ∧
      ∀ c, (after (Table.empty.insert "z" 7) cycle).get? "a" = some c → c = 0 := by
  obtain ⟨-, -, hwhole⟩ := @picks_proportional trio (by decide) (by decide)
    (Table.empty.insert "z" 7) (by decide) cycle cycle_serves_trio
  obtain ⟨hshare, hzero⟩ := hwhole (by decide)
  refine ⟨by decide, by decide, hshare (plain "a" 3) (by simp [trio]),
    hshare (plain "b" 1) (by simp [trio]), hshare (plain "c" 0) (by simp [trio]), fun c hc => ?_⟩
  rcases hzero "a" c hc with h | ⟨h, -⟩
  · exact h
  · exact absurd (by decide) h

end Steering.RoundRobin
