import Steering.Proofs.RoundRobin.Winner
import Steering.Proofs.RoundRobin.Word

/-!
# `Steering.Proofs.RoundRobin.Conservation` — a pick moves credit and makes none

Whatever a pick pays out it takes back from the one it chooses, so all the credit in a table is after it
what it was before (`Turn.credit_eq`). The account of a single address is as simple: nothing happens to
an address that is no candidate's, a candidate's address has what it had and the weights of all its
occurrences, and only the chosen one is charged (`Turn.get?_of_mem`, `Turn.get?_of_notMem`).

None of this minds how often an address occurs or where. What is special about *distinct* addresses is
the choice itself: the credit that decides is then the same when a candidate is met and at the end of
the walk, so the chosen one is the first in the list of those that have the most (`find?_of_pick`).

A pick in words that finishes is the same pick (`pick_of_pickInWords`).
-/

namespace Steering

/-- All the credit in a table. -/
def Credits.sum (t : Credits) : Int := (t.entries.map Prod.snd).sum

/-- Addresses that a table does not hold may be counted in, since they have nothing. -/
theorem Credits.sum_eq {t : Credits} {S : Finset String} (hS : ∀ a ∈ t.keys, a ∈ S) :
    t.sum = ∑ a ∈ S, t.of a := by
  have hentries : t.entries.map Prod.snd = t.keys.map t.of := by
    rw [Table.keys, List.map_map]
    refine List.map_congr_left fun e he => ?_
    exact (of_eq (Table.get?_eq_some_iff.2 he)).symm
  rw [sum, hentries, ← List.sum_toFinset _ t.nodup_keys]
  refine Finset.sum_subset (fun a ha => hS a (List.mem_toFinset.1 ha)) fun a _ ha => ?_
  exact of_eq_zero fun hk => ha (List.mem_toFinset.2 hk)

namespace RoundRobin

variable {credits after : Credits} {nodes : List WeightedNode} {n : WeightedNode}

/-! ## The account of a turn -/

theorem Turn.credit_eq (h : Turn credits nodes n after) : after.sum = credits.sum := by
  have hold : ∀ a ∈ credits.keys, a ∈ after.keys.toFinset := fun a ha =>
    List.mem_toFinset.2 ((h.mem_keys a).2 (Or.inl ha))
  have hpaid : ∀ m ∈ nodes, m.address ∈ after.keys.toFinset := fun m hm =>
    List.mem_toFinset.2 ((h.mem_keys _).2 (Or.inr (List.mem_map_of_mem hm)))
  rw [Credits.sum_eq fun a ha => List.mem_toFinset.2 ha, Credits.sum_eq hold, h.sum_of hpaid]

theorem Turn.get?_of_mem (h : Turn credits nodes n after) {a : String}
    (ha : a ∈ nodes.map WeightedNode.address) :
    after.get? a = some (raised credits nodes a - if n.address = a then total nodes else 0) :=
  Credits.get?_eq_some_iff.2 ⟨(h.mem_keys a).2 (Or.inr ha), h.of_raised a⟩

theorem Turn.get?_of_notMem (h : Turn credits nodes n after) {a : String}
    (ha : a ∉ nodes.map WeightedNode.address) : after.get? a = credits.get? a := by
  have hn : n.address ≠ a := fun he => ha (he ▸ List.mem_map_of_mem h.mem)
  refine Option.ext fun c => ?_
  rw [Credits.get?_eq_some_iff, Credits.get?_eq_some_iff, h.mem_keys, h.of, gain_eq_zero ha,
    if_neg hn, add_zero, sub_zero, or_iff_left ha]

/-! ## The first of those that have the most -/

/-- With distinct addresses nothing is paid to a candidate's address after it has been met. -/
theorem gain_of_before {before rest : List WeightedNode}
    (hd : ((before ++ rest).map WeightedNode.address).Nodup) {m : WeightedNode} (hm : m ∈ before) :
    gain before m.address = gain (before ++ rest) m.address := by
  have hbefore : (before.map WeightedNode.address).Nodup := by
    rw [List.map_append] at hd
    exact hd.of_append_left
  rw [gain_eq_effective hbefore hm, gain_eq_effective hd (List.mem_append_left rest hm)]

theorem find?_of_pick (h : pick credits nodes = some (n, after))
    (hd : (nodes.map WeightedNode.address).Nodup) :
    (nodes.find? fun m => decide (∀ k ∈ nodes,
      raised credits nodes k.address ≤ raised credits nodes m.address)) = some n := by
  obtain ⟨before, rest, hsplit, -, hlt, hmax⟩ := first_of_pick h
  rw [List.find?_eq_some_iff_append]
  refine ⟨decide_eq_true hmax, before, rest, hsplit, fun m hm => ?_⟩
  -- a candidate that was met earlier had less, and has got nothing since
  have hless := hlt m hm
  rw [hsplit] at hd
  rw [gain_of_before hd hm, ← hsplit] at hless
  rw [Bool.not_eq_true', decide_eq_false_iff_not]
  exact fun htop => absurd (htop n (turn_of_pick h).mem) (not_le.2 hless)

/-! ## Picks in words -/

theorem eq_of_word? {x y : Int} (h : word? x = some y) : y = x := by
  rw [word?, Option.ite_none_right_eq_some] at h
  exact (Option.some.inj h.2).symm

theorem pay_of_payInWords {r r' : Round} (h : r.payInWords n = some r') : r' = r.pay n := by
  obtain ⟨paid, hpaid, h⟩ := Option.bind_eq_some_iff.1 h
  obtain ⟨credit, hcredit, h⟩ := Option.bind_eq_some_iff.1 h
  rw [← Option.some.inj h, eq_of_word? hpaid, eq_of_word? hcredit]
  rfl

theorem payAll_of_payInWords {r r' : Round} (h : nodes.foldlM Round.payInWords r = some r') :
    r' = nodes.foldl Round.pay r := by
  induction nodes generalizing r with
  | nil => exact (Option.some.inj h).symm
  | cons m rest ih =>
    rw [List.foldlM_cons] at h
    obtain ⟨mid, hmid, hrest⟩ := Option.bind_eq_some_iff.1 h
    rw [ih hrest, pay_of_payInWords hmid]
    rfl

/-- A pick in words either leaves the word on the way or is the pick. -/
theorem pick_of_pickInWords {chosen? : Option (WeightedNode × Credits)}
    (h : pickInWords credits nodes = some chosen?) : pick credits nodes = chosen? := by
  obtain ⟨round, hround, h⟩ := Option.bind_eq_some_iff.1 h
  obtain rfl : round = payAll credits nodes := payAll_of_payInWords hround
  rw [pick]
  cases hl : (payAll credits nodes).leader? with
  | none =>
    rw [hl] at h
    exact Option.some.inj h
  | some l =>
    rw [hl] at h
    obtain ⟨charged, hcharged, h⟩ := Option.bind_eq_some_iff.1 h
    rw [← Option.some.inj h, eq_of_word? hcharged]
    rfl

/-- **A pick moves credit to nobody's gain.** On any table and any candidates, however often an address
occurs among them, a pick succeeds and leaves all the credit there is what it was. Addresses that are no
candidate's are left alone; every candidate's address is raised by the weights of all its occurrences,
and the chosen one is charged the total. Raised, the chosen one has at least as much as any candidate;
if the addresses are distinct, it is the first in the list of which that is true. A pick in words that
finishes does just this. -/
theorem credit_moves_to_leader (credits : Credits) {nodes : List WeightedNode} (h : nodes ≠ []) :
    ∃ n after, pick credits nodes = some (n, after) ∧
      after.sum = credits.sum ∧
      (∀ a, a ∉ nodes.map WeightedNode.address → after.get? a = credits.get? a) ∧
      (∀ a ∈ nodes.map WeightedNode.address,
        after.get? a = some (raised credits nodes a - if n.address = a then total nodes else 0)) ∧
      n ∈ nodes ∧
      (∀ m ∈ nodes, raised credits nodes m.address ≤ raised credits nodes n.address) ∧
      ((nodes.map WeightedNode.address).Nodup →
        (nodes.find? fun m => decide (∀ k ∈ nodes,
          raised credits nodes k.address ≤ raised credits nodes m.address)) = some n) ∧
      ∀ chosen?, pickInWords credits nodes = some chosen? → chosen? = some (n, after) := by
  obtain ⟨⟨n, after⟩, hpick⟩ := Option.isSome_iff_exists.1 (pick_isSome h credits)
  have hturn := turn_of_pick hpick
  refine ⟨n, after, hpick, hturn.credit_eq, fun a => hturn.get?_of_notMem,
    fun a => hturn.get?_of_mem, hturn.mem, hturn.leads, find?_of_pick hpick, fun chosen? hwords => ?_⟩
  rw [← pick_of_pickInWords hwords, hpick]

/-- `b` occurs three times, with two weights and with a negative one, and takes the lead twice: it is
paid three in all and charged twelve. `c` is no candidate, and `d` is new. -/
theorem credit_moves_to_leader_repeated :
    let credits : Credits := .ofList [("a", -2), ("b", 4), ("c", 7)]
    let nodes := [plain "b" 1, plain "a" 3, plain "b" (-5), plain "b" 2, plain "d" 6]
    nodes ≠ [] ∧ ∃ n after, pick credits nodes = some (n, after) ∧ n = plain "b" 2 ∧
      after.sum = 9 ∧ after.get? "a" = some 1 ∧ after.get? "b" = some (-5) ∧
      after.get? "c" = some 7 ∧ after.get? "d" = some 6 := by
  intro credits nodes
  have hne : nodes ≠ [] := by simp [nodes]
  obtain ⟨n, after, hpick, hsum, hothers, hpaid, -⟩ := credit_moves_to_leader credits hne
  have hn : (pick credits nodes).map Prod.fst = some (plain "b" 2) := rfl
  rw [hpick, Option.map_some] at hn
  obtain rfl := Option.some.inj hn
  exact ⟨hne, _, after, hpick, rfl, hsum.trans (by decide), (hpaid "a" (by decide)).trans (by decide),
    (hpaid "b" (by decide)).trans (by decide), (hothers "c" (by decide)).trans (by decide),
    (hpaid "d" (by decide)).trans (by decide)⟩

end RoundRobin

end Steering
