import Mathlib
import Steering.Text.Blank
import Steering.Text.Split

/-!
# `Steering.Proofs.Text.Cut` — where a text is cut

Texts are cut at the first occurrence of a separator, and what is cut off is often trimmed. Both are
computed from the left to the right, and both have a description that does not say how: a text is cut
where no occurrence is earlier (`FirstCut`), and trimming leaves what has nothing to be trimmed at its ends
and stands between things to be trimmed (`Trims`). `splitAt?_eq_some_iff` and `trimWhile_eq_iff` say that
the descriptions determine what is computed.

That a cut is the first one is a matter of what stands before it: whatever stands behind it can be
replaced (`FirstCut.replace`), also by something that has the separator in it.
-/

namespace Steering.Text

/-! ## The first occurrence of a separator -/

/-- A text is cut at the first occurrence of a separator. -/
structure FirstCut (sep cs before rest : List Char) : Prop where
  eq : cs = before ++ sep ++ rest
  first : ∀ b r, cs = b ++ sep ++ r → before.length ≤ b.length

variable {sep cs before rest : List Char}

theorem FirstCut.unique (h : FirstCut sep cs before rest) {before' rest' : List Char}
    (h' : FirstCut sep cs before' rest') : before = before' ∧ rest = rest' := by
  have hlen : before.length = before'.length := le_antisymm (h.first _ _ h'.eq) (h'.first _ _ h.eq)
  have heq := h.eq.symm.trans h'.eq
  rw [List.append_assoc, List.append_assoc] at heq
  obtain ⟨hbefore, hrest⟩ := List.append_inj heq hlen
  exact ⟨hbefore, List.append_cancel_left hrest⟩

/-- An earlier occurrence would lie before the end of this one, so what follows has no part in it. -/
theorem FirstCut.replace (h : FirstCut sep cs before rest) (rest' : List Char) :
    FirstCut sep (before ++ sep ++ rest') before rest' where
  eq := rfl
  first b r hcut := by
    by_contra hearlier
    have hinside : b ++ sep <+: before ++ sep := by
      refine List.prefix_of_prefix_length_le ⟨r, hcut.symm⟩ (List.prefix_append _ _) ?_
      rw [List.length_append, List.length_append]
      omega
    obtain ⟨e, he⟩ := hinside
    have hearly := h.first b (e ++ rest) (by rw [h.eq, ← he, List.append_assoc])
    exact hearlier hearly

theorem firstCut_singleton_iff {c : Char} :
    FirstCut [c] cs before rest ↔ cs = before ++ c :: rest ∧ c ∉ before := by
  constructor
  · intro h
    refine ⟨by rw [h.eq, List.append_assoc]; rfl, fun hc => ?_⟩
    obtain ⟨b, r, rfl⟩ := List.append_of_mem hc
    have := h.first b (r ++ [c] ++ rest) (by rw [h.eq]; simp)
    rw [List.length_append, List.length_cons] at this
    omega
  · rintro ⟨rfl, hc⟩
    refine ⟨by rw [List.append_assoc]; rfl, fun b r hcut => ?_⟩
    by_contra hearlier
    have hin : b ++ [c] <+: before := by
      refine List.prefix_of_prefix_length_le ⟨r, hcut.symm⟩ (List.prefix_append _ _) ?_
      rw [List.length_append, List.length_singleton]
      omega
    exact hc (hin.subset (by simp))

theorem splitAt?_isSome_iff (hsep : sep ≠ []) : (splitAt? sep cs).isSome ↔ sep <:+: cs := by
  induction cs with
  | nil => simp [splitAt?, hsep]
  | cons c cs ih =>
    rw [splitAt?, List.infix_cons_iff]
    by_cases hp : sep <+: c :: cs
    · rw [if_pos (List.isPrefixOf_iff_prefix.2 hp)]
      simp [hp]
    · rw [if_neg fun h => hp (List.isPrefixOf_iff_prefix.1 h), Option.isSome_map, ih, or_iff_right hp]

theorem firstCut_of_splitAt? (h : splitAt? sep cs = some (before, rest)) :
    FirstCut sep cs before rest := by
  refine ⟨splitAt?_eq_some h, ?_⟩
  induction cs generalizing before with
  | nil => exact absurd h (by simp [splitAt?])
  | cons c cs ih =>
    intro b r hcut
    rw [splitAt?] at h
    split at h
    · obtain ⟨rfl, -⟩ := Prod.mk.inj (Option.some.inj h)
      exact Nat.zero_le _
    · rename_i hp
      obtain ⟨⟨before, rest⟩, hp', heq⟩ := Option.map_eq_some_iff.1 h
      obtain ⟨rfl, rfl⟩ := Prod.mk.inj heq
      cases b with
      | nil => exact absurd (List.isPrefixOf_iff_prefix.2 ⟨r, hcut.symm⟩) hp
      | cons d b =>
        rw [List.length_cons, List.length_cons]
        exact Nat.succ_le_succ (ih hp' b r (List.cons.inj hcut).2)

theorem splitAt?_eq_some_iff (hsep : sep ≠ []) :
    splitAt? sep cs = some (before, rest) ↔ FirstCut sep cs before rest := by
  refine ⟨firstCut_of_splitAt?, fun h => ?_⟩
  have hsome : (splitAt? sep cs).isSome :=
    (splitAt?_isSome_iff hsep).2 ⟨before, rest, h.eq.symm⟩
  obtain ⟨⟨before', rest'⟩, hsplit⟩ := Option.isSome_iff_exists.1 hsome
  obtain ⟨rfl, rfl⟩ := h.unique (firstCut_of_splitAt? hsplit)
  exact hsplit

/-! ## What is trimmed -/

section

variable {α : Type} {p : α → Bool} {xs body : List α}

/-- What is left of a list when its ends are trimmed. -/
structure Trims (p : α → Bool) (xs body : List α) : Prop where
  around : ∃ left right, xs = left ++ body ++ right ∧ (∀ x ∈ left, p x = true) ∧
    ∀ x ∈ right, p x = true
  head : ∀ x ∈ body.head?, p x = false
  last : ∀ x ∈ body.getLast?, p x = false

theorem dropWhile_eq_self (h : ∀ x ∈ xs.head?, p x = false) : xs.dropWhile p = xs := by
  cases xs with
  | nil => rfl
  | cons x rest => exact List.dropWhile_cons_of_neg (by simpa using h x rfl)

theorem trims_trimWhile (p : α → Bool) (xs : List α) : Trims p xs (trimWhile p xs) := by
  have hfront := List.takeWhile_append_dropWhile (p := p) (l := xs)
  have hback := List.takeWhile_append_dropWhile (p := p) (l := (xs.dropWhile p).reverse)
  -- what is left when the front has been trimmed is the result and its own blank end
  have hrest : trimWhile p xs ++ ((xs.dropWhile p).reverse.takeWhile p).reverse = xs.dropWhile p := by
    rw [trimWhile, ← List.reverse_append, hback, List.reverse_reverse]
  refine ⟨⟨xs.takeWhile p, ((xs.dropWhile p).reverse.takeWhile p).reverse, ?_, ?_, ?_⟩, ?_, ?_⟩
  · rw [List.append_assoc, hrest, hfront]
  · exact fun x hx => List.mem_takeWhile_imp hx
  · exact fun x hx => List.mem_takeWhile_imp (List.mem_reverse.1 hx)
  · intro x hx
    have hhead : (xs.dropWhile p).head? = some x := by
      rw [← hrest, List.head?_append, hx]
      rfl
    have := List.head?_dropWhile_not p xs
    rw [hhead] at this
    simpa using this
  · intro x hx
    rw [trimWhile, List.getLast?_reverse] at hx
    have := List.head?_dropWhile_not p (xs.dropWhile p).reverse
    rw [hx] at this
    simpa using this

theorem trimWhile_eq_of_trims (h : Trims p xs body) : trimWhile p xs = body := by
  obtain ⟨left, right, rfl, hleft, hright⟩ := h.around
  have hreverse : body.reverse.dropWhile p = body.reverse :=
    dropWhile_eq_self fun x hx => h.last x (by rwa [List.head?_reverse] at hx)
  rw [trimWhile, List.append_assoc, List.dropWhile_append_of_pos hleft]
  cases body with
  | nil =>
    rw [List.nil_append, List.dropWhile_eq_nil_iff.2 hright]
    rfl
  | cons c rest =>
    have hstart : (c :: rest ++ right).dropWhile p = c :: rest ++ right :=
      dropWhile_eq_self h.head
    rw [hstart, List.reverse_append, List.dropWhile_append_of_pos, hreverse, List.reverse_reverse]
    exact fun x hx => hright x (List.mem_reverse.1 hx)

theorem trimWhile_eq_iff : trimWhile p xs = body ↔ Trims p xs body :=
  ⟨fun h => h ▸ trims_trimWhile p xs, trimWhile_eq_of_trims⟩

/-- What has been trimmed has nothing more to be trimmed. -/
theorem Trims.again (h : Trims p xs body) : Trims p body body :=
  ⟨⟨[], [], by simp, by simp, by simp⟩, h.head, h.last⟩

theorem trims_self (h : ∀ x ∈ xs, p x = false) : Trims p xs xs := by
  refine ⟨⟨[], [], by simp, by simp, by simp⟩, ?_, ?_⟩
  · intro x hx
    exact h x (List.mem_of_mem_head? hx)
  · intro x hx
    exact h x (List.mem_of_mem_getLast? hx)

/-- Nothing is left exactly of what is trimmed altogether. -/
theorem trimWhile_eq_nil_iff : trimWhile p xs = [] ↔ ∀ x ∈ xs, p x = true := by
  rw [trimWhile_eq_iff]
  constructor
  · intro h x hx
    obtain ⟨left, right, rfl, hleft, hright⟩ := h.around
    rw [List.append_nil] at hx
    rcases List.mem_append.1 hx with hx | hx
    · exact hleft x hx
    · exact hright x hx
  · exact fun h => ⟨⟨xs, [], by simp, h, by simp⟩, by simp, by simp⟩

end

end Steering.Text
