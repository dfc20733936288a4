import Steering.Proofs.Uri.Scan

/-!
# `Steering.Proofs.Uri.Parse` — how a scheme is taken off

A scheme is found in one of two ways: as one of the two common words in any case, or as a run of scheme
characters in front of a colon and two slashes. What can come out is `IsScheme`, and in front of a text that is
not empty each of these is taken off again as it is (`IsScheme.takeScheme`). The only subtle case is a common
word in another case, which is found but named in lower case, so that it is no scheme itself.
-/

namespace Steering.Uri

variable {cs rest scheme word : List Char} {c : Char}

/-! ## Bytes -/

theorem byteLength_append (cs more : List Char) :
    byteLength (cs ++ more) = byteLength cs + byteLength more := by
  induction cs with
  | nil => simp [byteLength]
  | cons c rest ih => simp [byteLength, ih, Nat.add_assoc]

/-- A character of one byte. -/
def IsAscii (c : Char) : Prop := c.toNat ≤ 127

instance (c : Char) : Decidable (IsAscii c) := inferInstanceAs (Decidable (c.toNat ≤ 127))

theorem byteLength_eq_length (h : ∀ c ∈ cs, IsAscii c) : byteLength cs = cs.length := by
  induction cs with
  | nil => rfl
  | cons c rest ih =>
    have hc : c.val ≤ 127 := UInt32.le_iff_toNat_le.2 (h c List.mem_cons_self)
    rw [byteLength, Char.utf8Size_eq_one_iff.2 hc, ih fun d hd => h d (List.mem_cons_of_mem c hd),
      List.length_cons, Nat.add_comm]

theorem isAscii_of_isAlphanum (h : c.isAlphanum = true) : IsAscii c := by
  simp only [Char.isAlphanum, Char.isAlpha, Char.isUpper, Char.isLower, Char.isDigit, Bool.or_eq_true,
    Bool.and_eq_true, decide_eq_true_eq, ge_iff_le, UInt32.le_iff_toNat_le] at h
  have hz : ('z'.val).toNat = 122 := rfl
  have hZ : ('Z'.val).toNat = 90 := rfl
  have h9 : ('9'.val).toNat = 57 := rfl
  have hc : c.toNat = c.val.toNat := rfl
  rw [IsAscii]
  omega

theorem IsAuthorityChar.isAscii (h : IsAuthorityChar c) : IsAscii c := by
  rcases h with h | h
  · rw [isPlainChar, Bool.or_eq_true] at h
    rcases h with h | h
    · exact isAscii_of_isAlphanum h
    · have hall : ∀ d ∈ "!$&'()*+,-.;=_~".toList, IsAscii d := by simp [IsAscii]
      exact hall c (List.contains_iff_mem.1 h)
  · have hall : ∀ d ∈ [':', '[', ']', '@', '%'], IsAscii d := by simp [IsAscii]
    exact hall c h

theorem IsAuthorityChar.not_endsAuthority (h : IsAuthorityChar c) : endsAuthority c = false := by
  rw [Bool.eq_false_iff]
  intro hends
  simp only [endsAuthority, Bool.or_eq_true, decide_eq_true_eq] at hends
  rcases hends with (rfl | rfl) | rfl <;> exact absurd h (by decide)

/-! ## Schemes -/

theorem isAscii_of_isSchemeChar (h : isSchemeChar c = true) : IsAscii c := by
  simp only [isSchemeChar, Bool.or_eq_true, decide_eq_true_eq] at h
  rcases h with (((h | rfl) | rfl) | rfl) | rfl
  · exact isAscii_of_isAlphanum h
  · decide
  · decide
  · decide
  · decide

theorem toLower_eq_or (c : Char) : c.toLower = c ∨ (c.isAlpha = true ∧ c.toLower.isAlpha = true) := by
  by_cases h : c.isUpper = true
  · have halpha : c.isAlpha = true := by rw [Char.isAlpha, h, Bool.true_or]
    exact Or.inr ⟨halpha, by rw [Char.isAlpha_toLower_eq_isAlpha, halpha]⟩
  · exact Or.inl (Char.toLower_eq_of_not_isUpper (by simpa using h))

theorem isAscii_of_toLower (h : IsAscii c.toLower) : IsAscii c := by
  rcases toLower_eq_or c with hc | ⟨halpha, -⟩
  · rwa [hc] at h
  · exact isAscii_of_isAlphanum (by rw [Char.isAlphanum, halpha, Bool.true_or])

theorem toLower_ne_colon (h : isSchemeChar c = true) : c.toLower ≠ ':' := by
  intro hlower
  rcases toLower_eq_or c with hc | ⟨-, halpha⟩
  · rw [← hc, hlower] at h
    exact absurd h (by decide)
  · rw [hlower] at halpha
    exact absurd halpha (by decide)

/-- What ends every scheme. -/
def separator : List Char := [':', '/', '/']

/-- A word and the separator are found in front of a text just if its scheme is that word in some case. -/
theorem dropWord?_append_separator (rest : List Char) (hword : ':' ∉ word) (hscheme : ∀ c ∈ scheme, isSchemeChar c = true) :
    dropWord? (word ++ separator) (scheme ++ separator ++ rest)
      = if scheme.map Char.toLower = word then some rest else none := by
  induction word generalizing scheme with
  | nil =>
    cases scheme with
    | nil => rfl
    | cons c more =>
      have hc := toLower_ne_colon (hscheme c List.mem_cons_self)
      simp [separator, dropWord?, hc]
  | cons w word ih =>
    rw [List.mem_cons, not_or] at hword
    cases scheme with
    | nil =>
      have hlower : ':'.toLower = ':' := by decide
      simp [separator, dropWord?, hlower, hword.1]
    | cons c more =>
      have hmore := ih hword.2 fun d hd => hscheme d (List.mem_cons_of_mem c hd)
      simp only [List.cons_append, dropWord?, List.map_cons, List.cons.injEq]
      by_cases hc : c.toLower = w
      · rw [if_pos hc, hmore]
        simp [hc]
      · rw [if_neg hc]
        simp [hc]

theorem exists_of_dropWord? (h : dropWord? word cs = some rest) :
    ∃ front, cs = front ++ rest ∧ front.map Char.toLower = word := by
  induction word generalizing cs with
  | nil =>
    cases h
    exact ⟨[], rfl, rfl⟩
  | cons w word ih =>
    cases cs with
    | nil => cases h
    | cons c cs =>
      rw [dropWord?] at h
      split at h
      · rename_i hc
        obtain ⟨front, rfl, hfront⟩ := ih h
        exact ⟨c :: front, rfl, by rw [List.map_cons, hc, hfront]⟩
      · cases h

theorem splitScheme?_eq_some_iff : splitScheme? cs = some (scheme, rest) ↔
    cs = scheme ++ separator ++ rest ∧ ∀ c ∈ scheme, isSchemeChar c = true := by
  constructor
  · intro h
    fun_induction splitScheme? cs generalizing scheme with
    | case1 => cases h
    | case2 more =>
      cases h
      exact ⟨rfl, by simp⟩
    | case3 c more hmore hc ih =>
      obtain ⟨⟨scheme', rest'⟩, hsplit, heq⟩ := Option.map_eq_some_iff.1 h
      cases heq
      obtain ⟨rfl, hscheme⟩ := ih hsplit
      exact ⟨rfl, List.forall_mem_cons.2 ⟨hc, hscheme⟩⟩
    | case4 => cases h
  · rintro ⟨rfl, hscheme⟩
    induction scheme with
    | nil => rfl
    | cons c scheme ih =>
      obtain ⟨hc, hmore⟩ := List.forall_mem_cons.1 hscheme
      have hcolon : c ≠ ':' := by
        rintro rfl
        exact absurd hc (by decide)
      have hsplit := ih hmore
      simp only [List.cons_append]
      rw [splitScheme?, if_pos hc, hsplit]
      · rfl
      · intro more hhead
        exact absurd hhead hcolon

/-- **What a scheme is**: characters that a scheme may have, not too many, and none of the two common ones in
another case. -/
structure IsScheme (scheme : List Char) : Prop where
  known : ∀ c ∈ scheme, isSchemeChar c = true
  short : scheme.length ≤ maxSchemeLength
  http : scheme.map Char.toLower = "http".toList → scheme = "http".toList
  https : scheme.map Char.toLower = "https".toList → scheme = "https".toList

theorem isScheme_http : IsScheme "http".toList :=
  ⟨List.all_eq_true.1 (by decide), by decide, fun _ => rfl, fun h => absurd h (by decide)⟩

theorem isScheme_https : IsScheme "https".toList :=
  ⟨List.all_eq_true.1 (by decide), by decide, fun h => absurd h (by decide), fun _ => rfl⟩

theorem IsScheme.byteLength_append (h : IsScheme scheme) (rest : List Char) :
    byteLength (scheme ++ separator ++ rest) = scheme.length + 3 + byteLength rest := by
  have hscheme : byteLength scheme = scheme.length :=
    byteLength_eq_length fun c hc => isAscii_of_isSchemeChar (h.known c hc)
  rw [Uri.byteLength_append, Uri.byteLength_append, hscheme]
  rfl

theorem IsScheme.takeScheme (h : IsScheme scheme) (hrest : rest ≠ []) :
    takeScheme (scheme ++ separator ++ rest) = .ok (some scheme, rest) := by
  have hhttp := @dropWord?_append_separator scheme "http".toList rest (by decide) h.known
  have hhttps := @dropWord?_append_separator scheme "https".toList rest (by decide) h.known
  have hlong : ¬ byteLength (scheme ++ separator ++ rest) ≤ 3 := by
    have hpos : 0 < byteLength rest := by
      cases rest with
      | nil => exact absurd rfl hrest
      | cons c more => exact Nat.add_pos_left c.utf8Size_pos _
    rw [h.byteLength_append]
    omega
  have hsplit : splitScheme? (scheme ++ separator ++ rest) = some (scheme, rest) :=
    splitScheme?_eq_some_iff.2 ⟨rfl, h.known⟩
  have hword : "http://".toList = "http".toList ++ separator := by decide
  have hwords : "https://".toList = "https".toList ++ separator := by decide
  rw [Uri.takeScheme, hword, hwords, hhttp, hhttps]
  by_cases hlower : scheme.map Char.toLower = "http".toList
  · rw [if_pos hlower, h.http hlower]
  · rw [if_neg hlower]
    by_cases hlowers : scheme.map Char.toLower = "https".toList
    · rw [if_pos hlowers, h.https hlowers]
    · rw [if_neg hlowers]
      dsimp only
      rw [if_neg hlong, hsplit]
      exact if_neg (Nat.not_lt.2 h.short)

theorem byteLength_of_map_toLower {front : List Char} (h : front.map Char.toLower = word)
    (hword : ∀ c ∈ word, IsAscii c) : byteLength front = word.length := by
  rw [byteLength_eq_length, ← h, List.length_map]
  intro c hc
  exact isAscii_of_toLower (hword _ (h ▸ List.mem_map_of_mem hc))

/-- **A scheme that was found is one**, and took as many bytes as it has characters. -/
theorem isScheme_of_takeScheme (h : Uri.takeScheme cs = .ok (some scheme, rest)) : IsScheme scheme ∧
    byteLength cs = scheme.length + 3 + byteLength rest := by
  have hword : "http://".toList = "http".toList ++ separator := by decide
  have hwords : "https://".toList = "https".toList ++ separator := by decide
  rw [Uri.takeScheme] at h
  split at h
  · rename_i hhttp
    cases h
    obtain ⟨front, rfl, hfront⟩ := exists_of_dropWord? hhttp
    refine ⟨isScheme_http, ?_⟩
    rw [byteLength_append, byteLength_of_map_toLower hfront (by simp [IsAscii])]
    rfl
  · rename_i hhttps
    cases h
    obtain ⟨front, rfl, hfront⟩ := exists_of_dropWord? hhttps
    refine ⟨isScheme_https, ?_⟩
    rw [byteLength_append, byteLength_of_map_toLower hfront (by simp [IsAscii])]
    rfl
  · rename_i hhttp hhttps
    split at h
    · cases h
    split at h
    · cases h
    rename_i hsplit
    split at h
    · cases h
    rename_i hshort
    cases h
    obtain ⟨rfl, hknown⟩ := splitScheme?_eq_some_iff.1 hsplit
    -- neither common scheme was recognised, so this is none of the two in another case
    rw [hword, dropWord?_append_separator rest (by decide) hknown] at hhttp
    rw [hwords, dropWord?_append_separator rest (by decide) hknown] at hhttps
    have hscheme : IsScheme scheme :=
      { known := hknown
        short := Nat.not_lt.1 hshort
        http := fun hlower => by rw [if_pos hlower] at hhttp; cases hhttp
        https := fun hlower => by rw [if_pos hlower] at hhttps; cases hhttps }
    exact ⟨hscheme, hscheme.byteLength_append rest⟩

end Steering.Uri
