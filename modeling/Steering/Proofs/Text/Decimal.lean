import Mathlib
import Steering.Text.Decimal

/-!
# `Steering.Proofs.Text.Decimal` — reading numbers and writing them

Reading goes digit by digit and gives up at the first character that is none, so a text is a number exactly
if it is not empty and all digits, and the number is the value of its digits (`readNat?_eq_some_iff`).
Writing gives such a text, and no shorter text of digits has the same value: what is read and written again
is no longer than it was.

A number with a sign is a `Numeral`: digits, with one sign in front or none. It may be written in many ways,
with a plus or without, with any number of zeros, and zero with a minus as well.
-/

namespace Steering.Text

variable {cs : List Char} {n : Nat}

theorem readDigitsFrom_eq (start : Nat) (cs : List Char) : readDigitsFrom start cs
    = if cs.all Char.isDigit then some (Nat.ofDigitChars 10 cs start) else none := by
  induction cs generalizing start with
  | nil => rfl
  | cons c rest ih =>
    rw [readDigitsFrom, digit?, List.all_cons, Nat.ofDigitChars_cons, Nat.mul_comm 10 start]
    by_cases hc : c.isDigit = true
    · rw [if_pos hc, Option.bind_some, ih, hc, Bool.true_and]
    · rw [if_neg hc, Option.bind_none, Bool.eq_false_iff.2 hc, Bool.false_and]
      rfl

theorem readNat?_eq_some_iff : readNat? cs = some n ↔
    cs ≠ [] ∧ (∀ c ∈ cs, c.isDigit = true) ∧ Nat.ofDigitChars 10 cs 0 = n := by
  cases cs with
  | nil => simp [readNat?]
  | cons c rest =>
    have hread : readNat? (c :: rest) = readDigitsFrom 0 (c :: rest) := rfl
    rw [hread, readDigitsFrom_eq]
    simp only [List.all_eq_true, Option.ite_none_right_eq_some, Option.some.injEq, ne_eq, reduceCtorEq,
      not_false_eq_true, true_and]

theorem toList_toString (n : Nat) : (toString n).toList = Nat.toDigits 10 n := by
  rw [Nat.toString_eq_ofList_toDigits, String.toList_ofList]

theorem isDigit_of_mem_toString {c : Char} (h : c ∈ (toString n).toList) : c.isDigit = true := by
  rw [toList_toString] at h
  exact Nat.isDigit_of_mem_toDigits (by decide) (by decide) h

theorem readNat?_toString (n : Nat) : readNat? (toString n).toList = some n := by
  rw [readNat?_eq_some_iff]
  refine ⟨?_, fun c => isDigit_of_mem_toString, ?_⟩
  · rw [toList_toString]
    exact Nat.toDigits_ne_nil
  · rw [toList_toString]
    exact Nat.ofDigitChars_ten_toDigits

/-- A text without a sign is read as it stands. -/
theorem readUnsigned?_of_notMem (h : '+' ∉ cs) : readUnsigned? cs = readNat? cs := by
  unfold readUnsigned?
  split
  · exact absurd List.mem_cons_self h
  · rfl

theorem readUnsigned?_toString (n : Nat) : readUnsigned? (toString n).toList = some n := by
  rw [readUnsigned?_of_notMem, readNat?_toString]
  intro hplus
  exact absurd (isDigit_of_mem_toString hplus) (by decide)

/-- What is read is the digits behind a sign, if there is one. -/
theorem exists_readNat?_of_readUnsigned? (h : readUnsigned? cs = some n) :
    ∃ digits, (cs = digits ∨ cs = '+' :: digits) ∧ readNat? digits = some n := by
  unfold readUnsigned? at h
  split at h
  · exact ⟨_, Or.inr rfl, h⟩
  · exact ⟨cs, Or.inl rfl, h⟩

theorem isDigit_or_plus_of_readUnsigned? (h : readUnsigned? cs = some n) {c : Char} (hc : c ∈ cs) :
    c.isDigit = true ∨ c = '+' := by
  obtain ⟨digits, hcs, hread⟩ := exists_readNat?_of_readUnsigned? h
  have hdigits := (readNat?_eq_some_iff.1 hread).2.1
  rcases hcs with rfl | rfl
  · exact Or.inl (hdigits c hc)
  · rcases List.mem_cons.1 hc with rfl | hc
    · exact Or.inr rfl
    · exact Or.inl (hdigits c hc)

/-- Digits behind a number move it up by as many places. -/
theorem ofDigitChars_lt (start : Nat) (h : ∀ c ∈ cs, c.isDigit = true) :
    Nat.ofDigitChars 10 cs start < (start + 1) * 10 ^ cs.length := by
  induction cs generalizing start with
  | nil => simp [Nat.ofDigitChars]
  | cons c rest ih =>
    have hc : c.toNat - '0'.toNat ≤ 9 := by
      have hdigit := h c List.mem_cons_self
      simp only [Char.isDigit, Bool.and_eq_true, decide_eq_true_eq] at hdigit
      have hhigh : c.toNat ≤ 57 := hdigit.2
      have hzero : '0'.toNat = 48 := rfl
      omega
    rw [Nat.ofDigitChars_cons, List.length_cons, Nat.pow_succ']
    refine (ih _ fun d hd => h d (List.mem_cons_of_mem c hd)).trans_le ?_
    rw [← Nat.mul_assoc]
    exact Nat.mul_le_mul_right _ (by omega)

theorem length_toString_le (h : readUnsigned? cs = some n) : (toString n).toList.length ≤ cs.length := by
  obtain ⟨digits, hcs, hread⟩ := exists_readNat?_of_readUnsigned? h
  obtain ⟨hne, hdigits, hvalue⟩ := readNat?_eq_some_iff.1 hread
  have hlt : n < 10 ^ digits.length := by
    have := ofDigitChars_lt 0 hdigits
    rwa [hvalue, Nat.zero_add, Nat.one_mul] at this
  have hshort : (toString n).toList.length ≤ digits.length := by
    rw [toList_toString]
    exact (Nat.length_toDigits_le_iff (by decide) (List.length_pos_iff.2 hne)).2 hlt
  rcases hcs with rfl | rfl
  · exact hshort
  · exact hshort.trans (Nat.le_succ _)

/-! ## Signs -/

/-- One or more digits. -/
def IsDigits (ds : List Char) : Prop := ds ≠ [] ∧ ∀ c ∈ ds, c.isDigit = true

/-- A number in decimal, with at most one sign. -/
inductive Numeral : List Char → Int → Prop where
  | bare {ds : List Char} : IsDigits ds → Numeral ds (Nat.ofDigitChars 10 ds 0)
  | plus {ds : List Char} : IsDigits ds → Numeral ('+' :: ds) (Nat.ofDigitChars 10 ds 0)
  | minus {ds : List Char} : IsDigits ds → Numeral ('-' :: ds) (-(Nat.ofDigitChars 10 ds 0 : Int))

theorem readNat?_of_isDigits {ds : List Char} (h : IsDigits ds) :
    readNat? ds = some (Nat.ofDigitChars 10 ds 0) :=
  readNat?_eq_some_iff.2 ⟨h.1, h.2, rfl⟩

theorem isDigits_of_readNat? (h : readNat? cs = some n) :
    IsDigits cs ∧ Nat.ofDigitChars 10 cs 0 = n := by
  obtain ⟨hne, hdigits, hvalue⟩ := readNat?_eq_some_iff.1 h
  exact ⟨⟨hne, hdigits⟩, hvalue⟩

theorem isDigits_toString (n : Nat) : IsDigits (toString n).toList :=
  (isDigits_of_readNat? (readNat?_toString n)).1

/-- A text that begins with a digit is read as it stands. -/
theorem readSigned?_of_isDigits {ds : List Char} (h : IsDigits ds) :
    readSigned? ds = (readNat? ds).map Int.ofNat := by
  unfold readSigned?
  split
  · exact absurd (h.2 '+' (by simp)) (by decide)
  · exact absurd (h.2 '-' (by simp)) (by decide)
  · rfl

/-- **Numerals are what is read**, and have the value that is read. -/
theorem readSigned?_eq_some_iff {w : Int} : readSigned? cs = some w ↔ Numeral cs w := by
  constructor
  · intro h
    unfold readSigned? at h
    split at h
    · obtain ⟨n, hn, rfl⟩ := Option.map_eq_some_iff.1 h
      obtain ⟨hdigits, rfl⟩ := isDigits_of_readNat? hn
      exact .plus hdigits
    · obtain ⟨m, hm, rfl⟩ := Option.map_eq_some_iff.1 h
      obtain ⟨n, hn, heq⟩ := Option.bind_eq_some_iff.1 hm
      obtain ⟨hdigits, rfl⟩ := isDigits_of_readNat? hn
      obtain rfl := Option.some.inj heq
      exact .minus hdigits
    · obtain ⟨n, hn, rfl⟩ := Option.map_eq_some_iff.1 h
      obtain ⟨hdigits, rfl⟩ := isDigits_of_readNat? hn
      exact .bare hdigits
  · intro h
    cases h with
    | bare h => rw [readSigned?_of_isDigits h, readNat?_of_isDigits h]; rfl
    | plus h => simp [readSigned?, readNat?_of_isDigits h]
    | minus h => simp [readSigned?, readNat?_of_isDigits h]

theorem numeral_toString (w : Int) : Numeral (toString w).toList w := by
  cases w with
  | ofNat n =>
    have h := Numeral.bare (isDigits_toString n)
    rwa [(isDigits_of_readNat? (readNat?_toString n)).2] at h
  | negSucc n =>
    have h := Numeral.minus (isDigits_toString (n + 1))
    rw [(isDigits_of_readNat? (readNat?_toString (n + 1))).2] at h
    have htext : (toString (Int.negSucc n)).toList = '-' :: (toString (n + 1)).toList :=
      String.toList_append
    rw [htext]
    exact h

/-- No character but a sign and digits. -/
theorem Numeral.mem {w : Int} (h : Numeral cs w) {c : Char} (hc : c ∈ cs) :
    c.isDigit = true ∨ c = '+' ∨ c = '-' := by
  cases h with
  | bare h => exact Or.inl (h.2 c hc)
  | plus h =>
    rcases List.mem_cons.1 hc with rfl | hc
    · exact Or.inr (Or.inl rfl)
    · exact Or.inl (h.2 c hc)
  | minus h =>
    rcases List.mem_cons.1 hc with rfl | hc
    · exact Or.inr (Or.inr rfl)
    · exact Or.inl (h.2 c hc)

end Steering.Text
