import Steering.Node
import Steering.Proofs.Text.Cut
import Steering.Proofs.Text.Decimal

/-!
# `Steering.Proofs.Weight` — what an instance weighs

The weight of a node comes from two places: the text that its instance has under the key `weight`, and the
default of the rule that weighs it. Which of the two it is, is a question about the text alone. It has to
*spell* a number, which is a matter of form — blanks, a sign or none, digits, blanks — and the number has to
be one that a weight can be, which is a matter of size. Everything else is no weight, and the default
counts, or zero if that is negative.

A negative number is kept out three times, where a text is read, where a node is weighed and where a rule is
made, and the three agree: what comes out is never negative, so that what the balancers count is what the
rule has settled (`weight_from_metadata`).
-/

namespace Steering

open Text

/-- A text is a number with white space around it. -/
def Spells (text : String) (w : Int) : Prop := ∃ body, Trims isBlank text.toList body ∧ Numeral body w

theorem isBlank_of_isDigit {c : Char} (h : c.isDigit = true) : isBlank c = false := by
  simp only [Char.isDigit, Bool.and_eq_true, decide_eq_true_eq] at h
  have hlow : 48 ≤ c.toNat := h.1
  have hhigh : c.toNat ≤ 57 := h.2
  simp [isBlank]
  omega

theorem spells_toString (w : Int) : Spells (toString w) w := by
  refine ⟨_, trims_self ?_, numeral_toString w⟩
  intro c hc
  rcases (numeral_toString w).mem hc with h | rfl | rfl
  · exact isBlank_of_isDigit h
  · decide
  · decide

/-! ## Reading -/

theorem spells_iff {text : String} {w : Int} :
    Spells text w ↔ readSigned? (trim text.toList) = some w := by
  constructor
  · rintro ⟨body, htrims, hnumeral⟩
    rw [trim, trimWhile_eq_of_trims htrims]
    exact readSigned?_eq_some_iff.2 hnumeral
  · intro h
    exact ⟨_, trims_trimWhile _ _, readSigned?_eq_some_iff.1 h⟩

/-- What a spelled number counts for. -/
theorem readWeight?_of_spells {text : String} {w : Int} (h : Spells text w) :
    readWeight? text = if 0 ≤ w ∧ w ≤ maxWeight then some w else none := by
  rw [readWeight?, spells_iff.1 h]

theorem spells_of_readWeight? {text : String} {w : Int} (h : readWeight? text = some w) :
    Spells text w ∧ 0 ≤ w ∧ w ≤ maxWeight := by
  unfold readWeight? at h
  split at h
  · rename_i v hread
    rw [Option.ite_none_right_eq_some, Option.some.injEq] at h
    obtain ⟨hrange, rfl⟩ := h
    exact ⟨spells_iff.2 hread, hrange⟩
  · simp at h

theorem Service.weight?_eq {s : Service} {text : String}
    (h : s.metadata.get? Service.weightKey = some text) : s.weight? = readWeight? text := by
  rw [weight?, h, Option.bind_some]

theorem Service.weight?_withWeight (s : Service) (w : Int) :
    (s.withWeight w).weight? = if 0 ≤ w ∧ w ≤ maxWeight then some w else none := by
  have hkey : (s.withWeight w).metadata.get? Service.weightKey = some (toString w) := by
    simp [withWeight, withMetadata]
  rw [weight?_eq hkey, readWeight?_of_spells (spells_toString w)]

/-! ## Weighing -/

/-- No negative wish gets as far as a node, so the rule only has to fill in for a missing one. -/
theorem weight_weigh_ofService (scheme address : String) (s : Service) (d : Int) :
    ((WeightRule.ofDefault d).weigh (Node.ofService scheme address s)).weight
      = s.weight?.getD (max d 0) := by
  show (WeightRule.ofDefault d).weightOf (Node.ofService scheme address s) = _
  unfold WeightRule.weightOf Node.ofService
  cases hw : s.weight? with
  | none => rfl
  | some w =>
    obtain ⟨text, -, hread⟩ := Option.bind_eq_some_iff.1 hw
    simp [(spells_of_readWeight? hread).2.1]

/-- **A node weighs what its instance asks for, exactly if that is a valid weight**, and the default of the
rule, or zero, if it is not. The weight is never negative, so it counts as it is. A weight that is written
into an instance is read from it again, unless it is negative. -/
theorem weight_from_metadata (s : Service) (scheme address : String) (d : Int) :
    let n := (WeightRule.ofDefault d).weigh (Node.ofService scheme address s)
    (0 ≤ n.weight ∧ n.effective = n.weight) ∧
      (∀ text w, s.metadata.get? "weight" = some text → Spells text w → 0 ≤ w → w < 2 ^ 63 →
        n.weight = w) ∧
      ((∀ text w, s.metadata.get? "weight" = some text → Spells text w → ¬(0 ≤ w ∧ w < 2 ^ 63)) →
        n.weight = max d 0) ∧
      ∀ w : Int, -2 ^ 63 ≤ w → w < 2 ^ 63 →
        (s.withWeight w).weight? = if 0 ≤ w then some w else none := by
  intro n
  have hmax : ∀ w : Int, w ≤ maxWeight ↔ w < 2 ^ 63 := by
    intro w
    unfold maxWeight
    omega
  have hn : n.weight = s.weight?.getD (max d 0) := weight_weigh_ofService scheme address s d
  have hnonneg : 0 ≤ n.weight := WeightRule.weightOf_nonneg _ _
  refine ⟨⟨hnonneg, max_eq_left hnonneg⟩, ?_, ?_, ?_⟩
  · intro text w hkey hspells hlow hhigh
    rw [hn, Service.weight?_eq hkey, readWeight?_of_spells hspells,
      if_pos ⟨hlow, (hmax w).2 hhigh⟩, Option.getD_some]
  · intro hnone
    rw [hn]
    cases hw : s.weight? with
    | none => rfl
    | some w =>
      obtain ⟨text, hkey, hread⟩ := Option.bind_eq_some_iff.1 hw
      obtain ⟨hspells, hlow, hhigh⟩ := spells_of_readWeight? hread
      exact absurd ⟨hlow, (hmax w).1 hhigh⟩ (hnone text w hkey hspells)
  · intro w _ hhigh
    rw [Service.weight?_withWeight]
    simp [(hmax w).2 hhigh]

/-- An instance with a text for its weight. -/
def labelled (text : String) : Service where
  id := "1"
  name := "order"
  endpoint := "grpc://h:1"
  metadata := .ofList [("weight", text)]

/-- A weight with a plus, zeros and white space of three kinds around it; and the least number that is none,
with a negative default. -/
theorem weight_from_metadata_padded :
    Spells "\u2003\t+007\n" 7 ∧
      ((WeightRule.ofDefault 3).weigh (Node.ofService "grpc" "h:1" (labelled "\u2003\t+007\n"))).weight
        = 7 ∧
      Spells "9223372036854775808" (2 ^ 63) ∧
      ((WeightRule.ofDefault (-3)).weigh
        (Node.ofService "grpc" "h:1" (labelled "9223372036854775808"))).weight = 0 := by
  have hpadded : Spells "\u2003\t+007\n" 7 := spells_iff.2 (by rfl)
  have hlarge : Spells "9223372036854775808" (2 ^ 63) := spells_iff.2 (by rfl)
  obtain ⟨-, hasked, -, -⟩ := weight_from_metadata (labelled "\u2003\t+007\n") "grpc" "h:1" 3
  obtain ⟨-, -, hdefault, -⟩ := weight_from_metadata (labelled "9223372036854775808") "grpc" "h:1" (-3)
  refine ⟨hpadded, hasked _ _ rfl hpadded (by decide) (by decide), hlarge, ?_⟩
  rw [hdefault]
  · rfl
  · intro text w hkey hspells
    obtain rfl : "9223372036854775808" = text := Option.some.inj hkey
    obtain rfl : 2 ^ 63 = w := Option.some.inj ((spells_iff.1 hlarge).symm.trans (spells_iff.1 hspells))
    decide

end Steering
