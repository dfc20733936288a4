import Steering.Proofs.RoundRobin.Turn

/-!
# `Steering.Proofs.RoundRobin.Winner` — which candidate a pick chooses

A turn (`Turn`) says that the chosen candidate has as much as any other once all are paid. It does not
say which of several is chosen, and for weights that matters: a candidate that is paid nothing can have
as much as one that is paid.

The rule is that of the first maximum. The winner reaches the greatest credit, nobody before it in the
list has reached as much, and what is paid to its address afterwards is nothing (`first_of_pick`). So
a candidate without weight is chosen exactly if it **outbids** the others with what it has
(`effective_eq_zero_iff`). Weights do not come into it: only credits are compared.
-/

namespace Steering.RoundRobin

theorem effective_le_gain {nodes : List WeightedNode} {m : WeightedNode} (hm : m ∈ nodes) :
    m.effective ≤ gain nodes m.address := by
  induction nodes with
  | nil => exact absurd hm List.not_mem_nil
  | cons n rest ih =>
    rw [gain]
    rcases List.mem_cons.1 hm with rfl | hm
    · have := gain_nonneg rest m.address
      rw [if_pos rfl]
      omega
    · have := ih hm
      have := n.effective_nonneg
      split <;> omega

theorem gain_singleton (n : WeightedNode) : gain [n] n.address = n.effective := by
  rw [gain, if_pos rfl, gain, add_zero]

def Weighs (nodes : List WeightedNode) (a : String) : Prop :=
  ∃ n ∈ nodes, n.address = a ∧ 0 < n.weight

/-- An address is paid something exactly if a candidate there has weight. -/
theorem gain_pos_iff {nodes : List WeightedNode} {a : String} :
    0 < gain nodes a ↔ Weighs nodes a := by
  constructor
  · intro h
    induction nodes with
    | nil => exact absurd h (lt_irrefl 0)
    | cons n rest ih =>
      rw [gain] at h
      by_cases hrest : 0 < gain rest a
      · obtain ⟨m, hm, hma⟩ := ih hrest
        exact ⟨m, List.mem_cons_of_mem n hm, hma⟩
      · by_cases hn : n.address = a
        · rw [if_pos hn, WeightedNode.effective] at h
          exact ⟨n, List.mem_cons_self, hn, by omega⟩
        · rw [if_neg hn] at h
          omega
  · rintro ⟨m, hm, rfl, hw⟩
    refine lt_of_lt_of_le ?_ (effective_le_gain hm)
    rw [WeightedNode.effective]
    omega

/-! ## The first maximum -/

/-- A walk's leader is the first that reached its credit. -/
def Ahead (credits : Credits) (seen : List WeightedNode) (n : WeightedNode) (best : Int) : Prop :=
  ∃ before rest, seen = before ++ n :: rest ∧
    best = credits.of n.address + gain (before ++ [n]) n.address ∧
    ∀ m ∈ before, credits.of m.address + gain before m.address < best

theorem ahead_pay {credits : Credits} {seen : List WeightedNode} {r : Round}
    (hw : Walked credits seen r)
    (h : ∀ k best, r.leader? = some (k, best) → Ahead credits seen k best) (n : WeightedNode)
    {k : WeightedNode} {best : Int} (hk : (r.pay n).leader? = some (k, best)) :
    Ahead credits (seen ++ [n]) k best := by
  have hcredit : r.credits.of n.address + n.effective
      = credits.of n.address + gain (seen ++ [n]) n.address := by
    rw [hw.of, gain_append, gain_singleton, add_assoc]
  simp only [Round.pay, Option.some.injEq] at hk
  cases hl : r.leader? with
  | none =>
    rw [hl, lead, Prod.mk.injEq] at hk
    obtain ⟨rfl, rfl⟩ := hk
    have hs : seen = [] := by
      by_contra hne
      have := hw.led hne
      rw [hl] at this
      exact absurd this (by simp)
    subst hs
    exact ⟨[], [], rfl, hcredit, fun m hm => absurd hm List.not_mem_nil⟩
  | some l =>
    obtain ⟨m, top⟩ := l
    rw [hl, lead] at hk
    split at hk
    · -- the leader stays the leader
      rw [Prod.mk.injEq] at hk
      obtain ⟨rfl, rfl⟩ := hk
      obtain ⟨before, rest, rfl, hbest, hlt⟩ := h m top hl
      exact ⟨before, rest ++ [n], by simp, hbest, hlt⟩
    · rename_i hgt
      rw [Prod.mk.injEq] at hk
      obtain ⟨rfl, rfl⟩ := hk
      refine ⟨seen, [], rfl, hcredit, fun k hk => ?_⟩
      have := (hw.leads m top hl).2.2 k hk
      rw [hw.of] at this
      omega

theorem ahead_payAll (credits : Credits) (nodes : List WeightedNode) :
    ∀ k best, (payAll credits nodes).leader? = some (k, best) → Ahead credits nodes k best := by
  induction nodes using List.reverseRecOn with
  | nil => intro k best h; exact absurd h (by simp [payAll])
  | append_singleton seen n ih =>
    intro k best h
    rw [payAll, List.foldl_append] at h
    exact ahead_pay (walked_payAll credits seen) ih n h

/-- **The winner is the first to reach the greatest credit**, and is paid nothing more after that. -/
theorem first_of_pick {credits after : Credits} {nodes : List WeightedNode} {n : WeightedNode}
    (h : pick credits nodes = some (n, after)) :
    ∃ before rest, nodes = before ++ n :: rest ∧
      gain (before ++ [n]) n.address = gain nodes n.address ∧
      (∀ m ∈ before, credits.of m.address + gain before m.address
        < credits.of n.address + gain nodes n.address) ∧
      ∀ m ∈ nodes, credits.of m.address + gain nodes m.address
        ≤ credits.of n.address + gain nodes n.address := by
  have hw := walked_payAll credits nodes
  have hturn := turn_of_pick h
  rw [pick, Option.map_eq_some_iff] at h
  obtain ⟨⟨m, best⟩, hl, heq⟩ := h
  obtain ⟨rfl, -⟩ := Prod.mk.inj heq
  obtain ⟨before, rest, hsplit, hbest, hlt⟩ := ahead_payAll credits nodes m best hl
  have htop : best = credits.of m.address + gain nodes m.address := by
    rw [← hw.of]
    exact (hw.leads m best hl).2.1
  refine ⟨before, rest, hsplit, ?_, ?_, hturn.leads⟩
  · rw [hbest] at htop
    exact add_left_cancel htop
  · rw [← htop]
    exact hlt

/-! ## Candidates without weight -/

/-- Some candidate that is paid nothing has as much as anybody has when all are paid, and more than
anybody before it in the list. -/
def Outbid (credits : Credits) (nodes : List WeightedNode) : Prop :=
  ∃ before z rest, nodes = before ++ z :: rest ∧ gain nodes z.address = 0 ∧
    (∀ m ∈ before, credits.of m.address + gain before m.address < credits.of z.address) ∧
    ∀ m ∈ nodes, credits.of m.address + gain nodes m.address ≤ credits.of z.address

/-- A winner without weight is at an address that is paid nothing at all. -/
theorem gain_eq_zero_of_pick {credits after : Credits} {nodes : List WeightedNode} {n : WeightedNode}
    (h : pick credits nodes = some (n, after)) (hn : n.effective = 0) :
    gain nodes n.address = 0 := by
  obtain ⟨before, rest, -, hgain, hlt, -⟩ := first_of_pick h
  have hsplit : gain (before ++ [n]) n.address = gain before n.address := by
    rw [gain_append, gain_singleton, hn, add_zero]
  have hnew : n.address ∉ before.map WeightedNode.address := by
    intro hmem
    obtain ⟨m, hm, heq⟩ := List.mem_map.1 hmem
    have := hlt m hm
    rw [heq, ← hgain, hsplit] at this
    exact absurd this (lt_irrefl _)
  rw [← hgain, hsplit, gain_eq_zero hnew]

theorem eq_or_extends {β : Type} {l l' r r' : List β} {a b : β} (h : l ++ a :: r = l' ++ b :: r') :
    a = b ∨ (∃ e, l' = l ++ [a] ++ e) ∨ ∃ e, l = l' ++ [b] ++ e := by
  rw [List.append_eq_append_iff] at h
  rcases h with ⟨e, hl, he⟩ | ⟨e, hl, he⟩
  · cases e with
    | nil => exact Or.inl (List.cons.inj he).1
    | cons k e =>
      obtain ⟨rfl, -⟩ := List.cons.inj he
      exact Or.inr (Or.inl ⟨e, by rw [hl]; simp⟩)
  · cases e with
    | nil => exact Or.inl (List.cons.inj he).1.symm
    | cons k e =>
      obtain ⟨rfl, -⟩ := List.cons.inj he
      exact Or.inr (Or.inr ⟨e, by rw [hl]; simp⟩)

/-- **A pick chooses a candidate without weight exactly if one outbids the others.** -/
theorem effective_eq_zero_iff {credits after : Credits} {nodes : List WeightedNode} {n : WeightedNode}
    (h : pick credits nodes = some (n, after)) : n.effective = 0 ↔ Outbid credits nodes := by
  obtain ⟨before, rest, hsplit, hgain, hlt, hmax⟩ := first_of_pick h
  constructor
  · intro hn
    have hzero := gain_eq_zero_of_pick h hn
    rw [hzero, add_zero] at hlt hmax
    exact ⟨before, n, rest, hsplit, hzero, hlt, hmax⟩
  · rintro ⟨before', z, rest', hsplit', hzero, hlt', hmax'⟩
    have hn : n ∈ nodes := (turn_of_pick h).mem
    have hzn := hmax z (by rw [hsplit']; simp)
    have hnz := hmax' n hn
    rw [hzero, add_zero] at hzn
    -- the two have the same credit, and each is the first to reach it
    rcases eq_or_extends (hsplit.symm.trans hsplit') with rfl | ⟨e, rfl⟩ | ⟨e, rfl⟩
    · have := effective_le_gain hn
      have := n.effective_nonneg
      omega
    · have hlow := hlt' n (by simp)
      rw [gain_append, hgain] at hlow
      have := gain_nonneg e n.address
      omega
    · have hlow := hlt z (by simp)
      have := gain_nonneg (before' ++ [z] ++ e) z.address
      omega

end Steering.RoundRobin
