import Steering.Proofs.RoundRobin.Bound

/-!
# `Steering.Proofs.RoundRobin.Word` — credits fit a machine word

The library counts credits with integers that have no bound, a machine does not. `pickInWords` is a
pick in which every sum and every difference has to fit a signed word of 128 bits, and fails at the
first one that does not. What is to be shown is that it never fails: as long as weights are words of
64 bits, and a table and a list of candidates have fewer than `2 ^ 31` entries, it does what `pick`
does.

That is a matter of size once credits are known not to drift (`Steering.Proofs.RoundRobin.Bound`): a
pick pays less than `2 ^ 94`, so a credit stays below `2 ^ 125`, and all that a walk computes on the
way lies within one payment of a credit.
-/

namespace Steering.RoundRobin

/-! ## Picks in words -/

/-- The range of a signed word of 128 bits. -/
def Fits (x : Int) : Prop := -2 ^ 127 ≤ x ∧ x < 2 ^ 127

instance (x : Int) : Decidable (Fits x) := inferInstanceAs (Decidable (_ ∧ _))

/-- A number, if it fits a word. -/
def word? (x : Int) : Option Int := if Fits x then some x else none

/-- Pays one candidate, if both sums fit a word. -/
def Round.payInWords (r : Round) (n : WeightedNode) : Option Round := do
  let paid ← word? (r.paid + n.effective)
  let credit ← word? (r.credits.of n.address + n.effective)
  return { credits := r.credits.insert n.address credit
           paid
           leader? := some (lead r.leader? n credit) }

/-- A pick in words. It fails as soon as a sum or a difference does not fit. -/
def pickInWords (credits : Credits) (nodes : List WeightedNode) :
    Option (Option (WeightedNode × Credits)) := do
  let round ← nodes.foldlM Round.payInWords { credits }
  match round.leader? with
  | none => return none
  | some (n, best) =>
    let charged ← word? (best - round.paid)
    return some (n, round.credits.insert n.address charged)

theorem word?_eq {x : Int} (h : Fits x) : word? x = some x := if_pos h

theorem payInWords_eq {r : Round} {n : WeightedNode} (hp : Fits (r.paid + n.effective))
    (hc : Fits (r.credits.of n.address + n.effective)) : r.payInWords n = some (r.pay n) := by
  rw [Round.payInWords, word?_eq hp, word?_eq hc]
  rfl

theorem gain_le_total (nodes : List WeightedNode) (a : String) : gain nodes a ≤ total nodes := by
  have := sum_gain_le nodes {a}
  rwa [Finset.sum_singleton] at this

section

variable {B W : Int} {credits : Credits} (hB : ∀ a, -B ≤ credits.of a ∧ credits.of a ≤ B)
  (hroom : B + W < 2 ^ 127)
include hB hroom

/-- The walk never leaves the word: what it has paid is at most the total, and a credit on the way
is what the address came with and at most the total. -/
theorem foldlM_payInWords {seen nodes : List WeightedNode} {r : Round}
    (h : Walked credits seen r) (hW : total (seen ++ nodes) ≤ W) :
    nodes.foldlM Round.payInWords r = some (nodes.foldl Round.pay r) := by
  induction nodes generalizing seen r with
  | nil => rfl
  | cons n rest ih =>
    have hsplit : seen ++ n :: rest = seen ++ [n] ++ rest := by simp
    have hpay := h.pay n
    have hb := hB n.address
    have hpaid : r.paid + n.effective = total (seen ++ [n]) := by rw [← hpay.paid, Round.pay]
    have hcredit : r.credits.of n.address + n.effective
        = credits.of n.address + gain (seen ++ [n]) n.address := by
      rw [h.of, gain_append, gain, if_pos rfl, gain, add_zero, add_assoc]
    have hrest := total_nonneg rest
    have hgain := gain_nonneg (seen ++ [n]) n.address
    have hle := gain_le_total (seen ++ [n]) n.address
    have hseen := total_nonneg (seen ++ [n])
    rw [hsplit, total_append] at hW
    have hp : Fits (r.paid + n.effective) := by
      rw [hpaid]
      exact ⟨by omega, by omega⟩
    have hc : Fits (r.credits.of n.address + n.effective) := by
      rw [hcredit]
      exact ⟨by omega, by omega⟩
    rw [List.foldlM_cons, payInWords_eq hp hc]
    exact ih hpay (by rw [total_append]; exact hW)

theorem pickInWords_eq {nodes : List WeightedNode} (hW : total nodes ≤ W) :
    pickInWords credits nodes = some (pick credits nodes) := by
  have hw := walked_payAll credits nodes
  rw [pickInWords, foldlM_payInWords hB hroom (walked_nil credits) hW]
  show (match (payAll credits nodes).leader? with
    | none => some none
    | some (n, best) => _) = _
  rw [pick]
  cases hl : (payAll credits nodes).leader? with
  | none => rfl
  | some l =>
    obtain ⟨n, best⟩ := l
    obtain ⟨-, hbest, -⟩ := hw.leads n best hl
    rw [hw.of] at hbest
    have hb := hB n.address
    have hgain := gain_nonneg nodes n.address
    have hle := gain_le_total nodes n.address
    have htotal := total_nonneg nodes
    -- the charge takes the leader down by the total, never below the bound less one payment
    have hfits : Fits (best - (payAll credits nodes).paid) := by
      rw [hw.paid]
      exact ⟨by omega, by omega⟩
    show (word? (best - (payAll credits nodes).paid)).bind _ = _
    rw [word?_eq hfits]
    rfl

end

/-! ## Sizes -/

/-- Fewer than `2 ^ 31` candidates with weights of 64 bits are paid less than `2 ^ 94`. -/
theorem total_le_of_words {nodes : List WeightedNode} (hlen : nodes.length < 2 ^ 31)
    (hw : ∀ m ∈ nodes, -2 ^ 63 ≤ m.weight ∧ m.weight < 2 ^ 63) :
    total nodes ≤ (2 ^ 31 - 1) * 2 ^ 63 := by
  have heach : ∀ m ∈ nodes, m.effective ≤ 2 ^ 63 := fun m hm => by
    have := (hw m hm).2
    rw [WeightedNode.effective]
    omega
  have hsum : total nodes ≤ nodes.length * 2 ^ 63 := by
    clear hlen hw
    induction nodes with
    | nil => exact le_refl 0
    | cons n rest ih =>
      rw [List.forall_mem_cons] at heach
      have := ih heach.2
      rw [total_cons, List.length_cons, Nat.cast_succ]
      linarith [heach.1]
  omega

/-- **Credits are bounded, and no sum or difference of a pick leaves the word.** -/
theorem credits_bounded_within_words (calls : List Call) :
    (∀ (n : Nat) (W : Int), 1 ≤ n →
      (∀ p, p <+: calls → (after Table.empty p).size ≤ n) →
      (∀ nodes, Call.pick nodes ∈ calls → total nodes ≤ W) →
      ∀ p, p <+: calls → ∀ a c, (after Table.empty p).get? a = some c →
        -((n - 1) * W) ≤ c ∧ c ≤ (n - 1) * W) ∧
    ((∀ p, p <+: calls → (after Table.empty p).size < 2 ^ 31) →
      (∀ nodes, Call.pick nodes ∈ calls →
        nodes.length < 2 ^ 31 ∧ ∀ m ∈ nodes, -2 ^ 63 ≤ m.weight ∧ m.weight < 2 ^ 63) →
      ∀ p nodes, p ++ [Call.pick nodes] <+: calls →
        pickInWords (after Table.empty p) nodes = some (pick (after Table.empty p) nodes)) := by
  have level : ∀ (n : Nat) (W : Int), (∀ p, p <+: calls → (after Table.empty p).size ≤ n) →
      PaysAtMost W calls → ∀ p, p <+: calls → Level n W (after Table.empty p) :=
    fun n W hn hW p hp => (level_empty n W).after
      (fun nodes hm => hW nodes (hp.subset hm)) (fun q hq => hn q (hq.trans hp))
  refine ⟨fun n W _ hn hW p hp a c hc => (level n W hn hW p hp).abs_le hc, ?_⟩
  intro hn hwords p nodes hp
  -- the bound at the sizes that words of 64 bits allow leaves a factor of two
  have hW : PaysAtMost ((2 ^ 31 - 1) * 2 ^ 63) calls := fun nodes hm =>
    total_le_of_words (hwords nodes hm).1 (hwords nodes hm).2
  have hlevel := level (2 ^ 31 - 1) _ (fun q hq => Nat.le_sub_one_of_lt (hn q hq)) hW p
    ((List.prefix_append p _).trans hp)
  have hpick : Call.pick nodes ∈ calls := hp.subset (by simp)
  refine pickInWords_eq (B := (2 ^ 31 - 1 - 1) * ((2 ^ 31 - 1) * 2 ^ 63)) (fun a => ?_) ?_
    (hW nodes hpick)
  · cases hc : (after Table.empty p).get? a with
    | none =>
      rw [Credits.of, hc]
      exact ⟨by decide, by decide⟩
    | some c =>
      have := hlevel.abs_le hc
      rw [Credits.of_eq hc]
      exact this
  · decide

/-- A run in which an address leaves with credit, stays away for a pick and comes back, and in which
another occurs twice among the candidates, once with a negative weight. -/
def comings : List Call :=
  [.pick [plain "a" 5, plain "b" 1], .update [plain "b" 1], .pick [plain "b" 2, plain "b" (-3)],
    .pick [plain "a" 4, plain "b" 1]]

theorem credits_bounded_along_comings :
    (after Table.empty comings).get? "b" = some 2 ∧ -((2 - 1) * 6) ≤ (2 : Int) ∧
      (2 : Int) ≤ (2 - 1) * 6 ∧
      pickInWords (after Table.empty (comings.take 3)) [plain "a" 4, plain "b" 1]
        = some (pick (after Table.empty (comings.take 3)) [plain "a" 4, plain "b" 1]) := by
  have hsize : ∀ k ≤ comings.length, (after Table.empty (comings.take k)).size ≤ 2 := by decide
  have hn : ∀ p, p <+: comings → (after Table.empty p).size ≤ 2 := fun p hp => by
    obtain ⟨k, hk, rfl⟩ := exists_take_of_prefix hp
    exact hsize k hk
  have hW : ∀ nodes, Call.pick nodes ∈ comings → total nodes ≤ 6 := by
    intro nodes hm
    simp only [comings, List.mem_cons, Call.pick.injEq, reduceCtorEq, List.not_mem_nil, or_false,
      false_or] at hm
    rcases hm with rfl | rfl | rfl <;> decide
  have hwords : ∀ nodes, Call.pick nodes ∈ comings →
      nodes.length < 2 ^ 31 ∧ ∀ m ∈ nodes, -2 ^ 63 ≤ m.weight ∧ m.weight < 2 ^ 63 := by
    intro nodes hm
    simp only [comings, List.mem_cons, Call.pick.injEq, reduceCtorEq, List.not_mem_nil, or_false,
      false_or] at hm
    rcases hm with rfl | rfl | rfl <;> exact ⟨by decide, by decide⟩
  have hb : (after Table.empty comings).get? "b" = some 2 := by decide
  obtain ⟨hbound, hpick⟩ := credits_bounded_within_words comings
  have hall := hbound 2 6 (by decide) hn hW comings List.prefix_rfl "b" 2 hb
  exact ⟨hb, hall.1, hall.2, hpick (fun p hp => lt_of_le_of_lt (hn p hp) (by decide)) hwords _ _
    List.prefix_rfl⟩

end Steering.RoundRobin
