import Mathlib
import Steering.RoundRobin

/-!
# `Steering.Proofs.RoundRobin.Turn` — what one pick does to the credits

A pick walks its candidates once and keeps a leader as it goes, so what it has done is spread over
the walk: an address that occurs again after it took the lead is paid again, and the charge at the
end overwrites what the table holds. This file says what is left of all that, as one statement about
every address (`Turn`):

> an address gains what its occurrences are paid, the chosen one is charged the total, and the
> chosen one had, paid, at least as much as any other candidate.

Everything about sequences of picks — the bound on credits, the shares — is read off `Turn`; no
later file looks at the walk again. The one fact that the walk itself hangs on is that the leader's
remembered credit is always the one that the table holds (`Walked.leads`): whoever is paid more than
nothing while leading takes the lead anew.
-/

namespace Steering.RoundRobin

/-! ## What a list of candidates is paid -/

/-- What a list of candidates is paid in all. -/
def total (nodes : List WeightedNode) : Int := (nodes.map WeightedNode.effective).sum

/-- What an address is paid: the weights of all its occurrences. -/
def gain : List WeightedNode → String → Int
  | [], _ => 0
  | n :: rest, a => (if n.address = a then n.effective else 0) + gain rest a

@[simp] theorem total_nil : total [] = 0 := rfl

@[simp] theorem total_cons (n : WeightedNode) (rest : List WeightedNode) :
    total (n :: rest) = n.effective + total rest := by
  simp [total]

@[simp] theorem total_append (nodes more : List WeightedNode) :
    total (nodes ++ more) = total nodes + total more := by
  simp [total]

theorem total_nonneg (nodes : List WeightedNode) : 0 ≤ total nodes := by
  induction nodes with
  | nil => simp
  | cons n rest ih =>
    rw [total_cons]
    exact add_nonneg n.effective_nonneg ih

theorem gain_nonneg (nodes : List WeightedNode) (a : String) : 0 ≤ gain nodes a := by
  induction nodes with
  | nil => exact le_refl 0
  | cons n rest ih =>
    rw [gain]
    have := n.effective_nonneg
    split <;> omega

theorem gain_append (nodes more : List WeightedNode) (a : String) :
    gain (nodes ++ more) a = gain nodes a + gain more a := by
  induction nodes with
  | nil => simp [gain]
  | cons n rest ih =>
    rw [List.cons_append, gain, gain, ih, add_assoc]

theorem gain_eq_zero {nodes : List WeightedNode} {a : String}
    (h : a ∉ nodes.map WeightedNode.address) : gain nodes a = 0 := by
  induction nodes with
  | nil => rfl
  | cons n rest ih =>
    rw [List.map_cons, List.mem_cons, not_or] at h
    rw [gain, if_neg (Ne.symm h.1), ih h.2, add_zero]

/-- With distinct addresses an address is paid its one node's weight. -/
theorem gain_eq_effective {nodes : List WeightedNode} (hd : (nodes.map WeightedNode.address).Nodup)
    {m : WeightedNode} (hm : m ∈ nodes) : gain nodes m.address = m.effective := by
  induction nodes with
  | nil => exact absurd hm (by simp)
  | cons n rest ih =>
    rw [List.map_cons, List.nodup_cons] at hd
    rw [gain]
    rcases List.mem_cons.1 hm with rfl | hr
    · rw [if_pos rfl, gain_eq_zero hd.1, add_zero]
    · have hne : n.address ≠ m.address := fun he => hd.1 (he ▸ List.mem_map_of_mem hr)
      rw [if_neg hne, ih hd.2 hr, zero_add]

theorem gain_perm {nodes nodes' : List WeightedNode} (h : nodes.Perm nodes') (a : String) :
    gain nodes a = gain nodes' a := by
  induction h with
  | nil => rfl
  | cons n _ ih => rw [gain, gain, ih]
  | swap n m rest => simp only [gain]; omega
  | trans _ _ ih₁ ih₂ => exact ih₁.trans ih₂

theorem total_perm {nodes nodes' : List WeightedNode} (h : nodes.Perm nodes') :
    total nodes = total nodes' :=
  (h.map _).sum_eq

/-- Nobody outside the candidates is paid, so the addresses of any set get at most the total. -/
theorem sum_gain_le (nodes : List WeightedNode) (S : Finset String) :
    ∑ a ∈ S, gain nodes a ≤ total nodes := by
  induction nodes with
  | nil => simp [gain]
  | cons n rest ih =>
    simp only [gain, Finset.sum_add_distrib, Finset.sum_ite_eq, total_cons]
    have := n.effective_nonneg
    split <;> omega

/-- … and those of a set with all candidates in it get exactly the total. -/
theorem sum_gain_eq {nodes : List WeightedNode} {S : Finset String}
    (h : ∀ n ∈ nodes, n.address ∈ S) : ∑ a ∈ S, gain nodes a = total nodes := by
  induction nodes with
  | nil => simp [gain]
  | cons n rest ih =>
    rw [List.forall_mem_cons] at h
    simp only [gain, Finset.sum_add_distrib, Finset.sum_ite_eq, if_pos h.1, ih h.2, total_cons]

/-! ## The walk -/

/-- What a walk has done when it has seen a list of candidates. -/
structure Walked (credits : Credits) (seen : List WeightedNode) (r : Round) : Prop where
  of : ∀ a, r.credits.of a = credits.of a + gain seen a
  mem_keys : ∀ a, a ∈ r.credits.keys ↔ a ∈ credits.keys ∨ a ∈ seen.map WeightedNode.address
  paid : r.paid = total seen
  led : seen ≠ [] → r.leader?.isSome
  leads : ∀ n best, r.leader? = some (n, best) →
    n ∈ seen ∧ best = r.credits.of n.address ∧ ∀ m ∈ seen, r.credits.of m.address ≤ best

theorem walked_nil (credits : Credits) : Walked credits [] { credits } where
  of a := by simp [gain]
  mem_keys a := by simp
  paid := rfl
  led h := absurd rfl h
  leads _ _ h := absurd h (by simp)

/-- Who leads once a candidate has been paid. A leader that is paid itself goes on with the new
credit, so the remembered one never falls behind the table. -/
theorem leads_pay {credits : Credits} {seen : List WeightedNode} {r : Round}
    (h : Walked credits seen r) {n k : WeightedNode} {best : Int}
    (hk : (r.pay n).leader? = some (k, best)) :
    k ∈ seen ++ [n] ∧ best = (r.pay n).credits.of k.address ∧
      ∀ m ∈ seen ++ [n], (r.pay n).credits.of m.address ≤ best := by
  have hn := n.effective_nonneg
  have hof : ∀ a, (r.pay n).credits.of a
      = if n.address = a then r.credits.of n.address + n.effective else r.credits.of a :=
    fun a => Credits.of_insert _ _ _ _
  have hall : ∀ top, (∀ m ∈ seen, r.credits.of m.address ≤ top) →
      r.credits.of n.address + n.effective ≤ top →
      ∀ m ∈ seen ++ [n], (r.pay n).credits.of m.address ≤ top := by
    intro top hs ht m hm
    rw [hof]
    split
    · exact ht
    · rename_i hne
      rcases List.mem_append.1 hm with hm | hm
      · exact hs m hm
      · exact absurd (List.mem_singleton.1 hm ▸ rfl) hne
  simp only [Round.pay, Option.some.injEq] at hk
  cases hl : r.leader? with
  | none =>
    -- nobody has been seen yet
    rw [hl, lead, Prod.mk.injEq] at hk
    obtain ⟨rfl, rfl⟩ := hk
    have hs : seen = [] := by
      by_contra hne
      have := h.led hne
      rw [hl] at this
      exact absurd this (by simp)
    exact ⟨by simp, by rw [hof, if_pos rfl], hall _ (by simp [hs]) (le_refl _)⟩
  | some l =>
    obtain ⟨m, top⟩ := l
    obtain ⟨hm, htop, hmax⟩ := h.leads m top hl
    rw [hl, lead] at hk
    split at hk
    · rename_i hle
      rw [Prod.mk.injEq] at hk
      obtain ⟨rfl, rfl⟩ := hk
      refine ⟨List.mem_append_left _ hm, ?_, hall _ hmax hle⟩
      -- The candidate does not take the lead: at the leader's own address it was paid nothing.
      rw [hof]
      split
      · rename_i he
        rw [he] at hle ⊢
        omega
      · exact htop
    · rename_i hgt
      rw [Prod.mk.injEq] at hk
      obtain ⟨rfl, rfl⟩ := hk
      refine ⟨by simp, by rw [hof, if_pos rfl], hall _ (fun k hk => ?_) (le_refl _)⟩
      have := hmax k hk
      omega

theorem Walked.pay {credits : Credits} {seen : List WeightedNode} {r : Round}
    (h : Walked credits seen r) (n : WeightedNode) : Walked credits (seen ++ [n]) (r.pay n) where
  of a := by
    rw [gain_append, ← add_assoc, ← h.of a, Round.pay]
    simp only [gain, Credits.of_insert, add_zero]
    split
    · rename_i he
      rw [he]
    · rw [add_zero]
  mem_keys a := by
    have hk := h.mem_keys a
    simp only [Round.pay, Table.keys_insert, List.map_append, List.map_cons, List.map_nil,
      List.mem_append, List.mem_singleton]
    split
    · rename_i hin
      rw [hk]
      constructor
      · rintro (h1 | h1)
        · exact Or.inl h1
        · exact Or.inr (Or.inl h1)
      · rintro (h1 | h1 | rfl)
        · exact Or.inl h1
        · exact Or.inr h1
        · exact hk.1 hin
    · rw [List.mem_append, List.mem_singleton, hk, or_assoc]
  paid := by
    rw [total_append, ← h.paid, Round.pay]
    simp
  led _ := rfl
  leads _ _ := leads_pay h

theorem Walked.foldl {credits : Credits} {seen : List WeightedNode} {r : Round}
    (h : Walked credits seen r) (nodes : List WeightedNode) :
    Walked credits (seen ++ nodes) (nodes.foldl Round.pay r) := by
  induction nodes generalizing seen r with
  | nil => simpa using h
  | cons n rest ih =>
    have := ih (h.pay n)
    rwa [List.append_assoc, List.singleton_append] at this

theorem walked_payAll (credits : Credits) (nodes : List WeightedNode) :
    Walked credits nodes (payAll credits nodes) :=
  (walked_nil credits).foldl nodes

/-! ## One pick -/

/-- A turn of a node: what a pick that chooses it leaves behind. -/
structure Turn (credits : Credits) (nodes : List WeightedNode) (n : WeightedNode)
    (after : Credits) : Prop where
  mem : n ∈ nodes
  /-- Nobody had more than the chosen one when all were paid. -/
  leads : ∀ m ∈ nodes,
    credits.of m.address + gain nodes m.address ≤ credits.of n.address + gain nodes n.address
  of : ∀ a, after.of a
    = credits.of a + gain nodes a - if n.address = a then total nodes else 0
  mem_keys : ∀ a, a ∈ after.keys ↔ a ∈ credits.keys ∨ a ∈ nodes.map WeightedNode.address

theorem turn_of_pick {credits after : Credits} {nodes : List WeightedNode} {n : WeightedNode}
    (h : pick credits nodes = some (n, after)) : Turn credits nodes n after := by
  have hw := walked_payAll credits nodes
  rw [pick, Option.map_eq_some_iff] at h
  obtain ⟨⟨m, best⟩, hl, heq⟩ := h
  rw [Prod.mk.injEq] at heq
  obtain ⟨rfl, rfl⟩ := heq
  obtain ⟨hm, hbest, hmax⟩ := hw.leads m best hl
  rw [hw.of] at hbest
  refine ⟨hm, fun k hk => ?_, fun a => ?_, fun a => ?_⟩
  · rw [← hbest, ← hw.of]
    exact hmax k hk
  · rw [Credits.of_insert, hw.of, hw.paid]
    split
    · rename_i he
      rw [hbest, he]
    · rw [sub_zero]
  · -- the charge overwrites an entry that the walk has made
    have hin : m.address ∈ (payAll credits nodes).credits.keys :=
      (hw.mem_keys _).2 (Or.inr (List.mem_map_of_mem hm))
    rw [Table.keys_insert, if_pos hin]
    exact hw.mem_keys a

/-- There is a turn as soon as there is a candidate. -/
theorem pick_isSome {nodes : List WeightedNode} (h : nodes ≠ []) (credits : Credits) :
    (pick credits nodes).isSome := by
  rw [pick, Option.isSome_map]
  exact (walked_payAll credits nodes).led h

/-- A turn leaves any set with all candidates in it as rich as it was. -/
theorem Turn.sum_of {credits after : Credits} {nodes : List WeightedNode} {n : WeightedNode}
    (h : Turn credits nodes n after) {S : Finset String} (hS : ∀ m ∈ nodes, m.address ∈ S) :
    ∑ a ∈ S, after.of a = ∑ a ∈ S, credits.of a := by
  simp only [h.of, Finset.sum_sub_distrib, Finset.sum_add_distrib, Finset.sum_ite_eq]
  rw [sum_gain_eq hS, if_pos (hS n h.mem), add_sub_cancel_right]

end Steering.RoundRobin
