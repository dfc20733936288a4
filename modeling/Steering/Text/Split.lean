/-!
# `Steering.Text.Split` — cutting a text at a separator

Target texts, queries and settings are all cut at the *first* occurrence of a separator; a piece
keeps every later occurrence. `splitAt?_eq_some` is the law: what comes out joins back to what went
in.
-/

namespace Steering.Text

/-- What stands before and after the first occurrence of a separator. -/
def splitAt? (separator : List Char) : List Char → Option (List Char × List Char)
  | [] => none
  | c :: rest =>
    if separator.isPrefixOf (c :: rest) then some ([], (c :: rest).drop separator.length)
    else (splitAt? separator rest).map fun p => (c :: p.1, p.2)

/-- The pieces between the occurrences of a character. -/
def pieces (separator : Char) : List Char → List (List Char)
  | [] => [[]]
  | c :: rest =>
    if c = separator then [] :: pieces separator rest
    else
      match pieces separator rest with
      | [] => [[c]]
      | p :: more => (c :: p) :: more

theorem splitAt?_eq_some {sep cs before rest : List Char}
    (h : splitAt? sep cs = some (before, rest)) : cs = before ++ sep ++ rest := by
  induction cs generalizing before rest with
  | nil => simp [splitAt?] at h
  | cons c cs ih =>
    rw [splitAt?] at h
    split at h
    · rename_i hp
      obtain ⟨t, ht⟩ := List.isPrefixOf_iff_prefix.1 hp
      simp only [Option.some.injEq, Prod.mk.injEq] at h
      rw [← h.1, ← h.2, ← ht]
      simp
    · rw [Option.map_eq_some_iff] at h
      obtain ⟨p, hp, hq⟩ := h
      simp only [Prod.mk.injEq] at hq
      rw [← hq.1, ← hq.2, ih hp]
      simp

end Steering.Text
