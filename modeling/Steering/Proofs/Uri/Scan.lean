import Mathlib
import Steering.Uri

/-!
# `Steering.Proofs.Uri.Scan` — what a scan of an authority knows

A scan reads an authority from left to right and looks at every character once. What it knows afterwards is
little, and each piece of it is a fact about the text that was read: whether a bracket was opened and whether
one was closed, which happens at most once each; and, since the last `@` or `]`, how many colons there were
and whether there was a percent sign. One character's effect (`next`) and the condition under which it is let
through (`Admits`) are said once, and `Read` says what a whole text does, by one induction over it.

A scan behind an `@` and one that has just begun differ in nothing but the brackets that they remember.
-/

namespace Steering.Uri

/-- Whether a character may stand in an authority at all. -/
def IsAuthorityChar (c : Char) : Prop := isPlainChar c = true ∨ c ∈ [':', '[', ']', '@', '%']

instance (c : Char) : Decidable (IsAuthorityChar c) := inferInstanceAs (Decidable (_ ∨ _))

namespace Scan

variable {s t u : Scan} {c : Char} {cs more : List Char}

/-! ## One character -/

/-- What a scan makes of a character that it lets through. -/
def next (s : Scan) (c : Char) : Scan where
  colons := if c = ':' then s.colons + 1 else if c = ']' ∨ c = '@' then 0 else s.colons
  opened := s.opened || c = '['
  closed := s.closed || c = ']'
  percent := if c = '%' then true else if c = ']' ∨ c = '@' then false else s.percent
  atEnd := c = '@'

/-- When a scan lets a character through. -/
@[mk_iff] structure Admits (s : Scan) (c : Char) : Prop where
  known : IsAuthorityChar c
  colon : c = ':' → s.colons < maxColons
  opening : c = '[' → s.percent = false ∧ s.opened = false
  closing : c = ']' → s.opened = true ∧ s.closed = false

theorem ne_of_isPlainChar (h : isPlainChar c = true) :
    c ≠ ':' ∧ c ≠ '[' ∧ c ≠ ']' ∧ c ≠ '@' ∧ c ≠ '%' := by
  refine ⟨?_, ?_, ?_, ?_, ?_⟩ <;> rintro rfl <;> exact absurd h (by decide)

/-- **What one character does.** -/
theorem step_eq_ok_iff : s.step c = .ok t ↔ s.Admits c ∧ t = s.next c := by
  rw [step, admits_iff]
  by_cases hplain : isPlainChar c = true
  · obtain ⟨hcolon, hopen, hclose, hat, hpercent⟩ := ne_of_isPlainChar hplain
    simp [next, IsAuthorityChar, hplain, hcolon, hopen, hclose, hat, hpercent, @eq_comm Scan t]
  · by_cases hcolon : c = ':'
    · subst hcolon
      by_cases hmany : maxColons ≤ s.colons
      · simp [hmany, Nat.not_lt.2 hmany]
      · simp [hmany, Nat.lt_of_not_ge hmany, next, IsAuthorityChar, @eq_comm Scan t]
    by_cases hopen : c = '['
    · subst hopen
      cases hpercent : s.percent <;> cases hopened : s.opened <;>
        simp [next, IsAuthorityChar, hpercent, hopened, @eq_comm Scan t]
    by_cases hclose : c = ']'
    · subst hclose
      cases hopened : s.opened <;> cases hclosed : s.closed <;>
        simp [next, IsAuthorityChar, hopened, hclosed, @eq_comm Scan t]
    by_cases hat : c = '@'
    · subst hat
      simp [next, IsAuthorityChar, @eq_comm Scan t]
    by_cases hpercent : c = '%'
    · subst hpercent
      simp [next, IsAuthorityChar, @eq_comm Scan t]
    simp [IsAuthorityChar, hplain, hcolon, hopen, hclose, hat, hpercent]

theorem accepts_iff : s.accepts = true ↔
    s.opened = s.closed ∧ s.colons ≤ 1 ∧ s.atEnd = false ∧ s.percent = false := by
  simp [accepts, and_assoc]

/-! ## A text -/

/-- What a scan makes of a text that it lets through. -/
def through (s : Scan) (cs : List Char) : Except Refusal Scan := cs.foldlM step s

theorem through_cons_eq_ok_iff :
    s.through (c :: cs) = .ok t ↔ s.Admits c ∧ (s.next c).through cs = .ok t := by
  rw [through, List.foldlM_cons]
  cases hstep : s.step c with
  | error e =>
    refine iff_of_false (by rintro ⟨⟩) fun h => ?_
    rw [step_eq_ok_iff.2 ⟨h.1, rfl⟩] at hstep
    cases hstep
  | ok u =>
    obtain ⟨hadmits, rfl⟩ := step_eq_ok_iff.1 hstep
    exact (and_iff_right hadmits).symm

theorem through_append_eq_ok_iff : s.through (cs ++ more) = .ok u ↔
    ∃ t, s.through cs = .ok t ∧ t.through more = .ok u := by
  rw [through, List.foldlM_append]
  show (s.through cs >>= fun t => t.through more) = .ok u ↔ _
  cases s.through cs with
  | error e => exact iff_of_false (by rintro ⟨⟩) (by rintro ⟨t, ⟨⟩, -⟩)
  | ok t => exact ⟨fun h => ⟨t, rfl, h⟩, by rintro ⟨t, ⟨⟩, h⟩; exact h⟩

theorem run_eq_ok_iff : s.run cs = .ok () ↔ ∃ t, s.through cs = .ok t ∧ t.accepts = true := by
  induction cs generalizing s with
  | nil =>
    rw [run, through, List.foldlM_nil]
    constructor
    · intro h
      split at h
      · exact ⟨s, rfl, by assumption⟩
      · cases h
    · rintro ⟨t, ⟨⟩, haccepts⟩
      exact if_pos haccepts
  | cons c rest ih =>
    rw [run]
    simp only [through_cons_eq_ok_iff]
    cases hstep : s.step c with
    | error e =>
      refine iff_of_false (by rintro ⟨⟩) ?_
      rintro ⟨t, ⟨hadmits, -⟩, -⟩
      rw [step_eq_ok_iff.2 ⟨hadmits, rfl⟩] at hstep
      cases hstep
    | ok u =>
      obtain ⟨hadmits, rfl⟩ := step_eq_ok_iff.1 hstep
      simp only [hadmits, true_and]
      exact ih

/-- **What a text does to a scan that lets it through.** -/
structure Read (s : Scan) (cs : List Char) (t : Scan) : Prop where
  known : ∀ c ∈ cs, IsAuthorityChar c
  opened : t.opened = (s.opened || '[' ∈ cs)
  opensOnce : '[' ∈ cs → s.opened = false
  closed : t.closed = (s.closed || ']' ∈ cs)
  closesOnce : ']' ∈ cs → s.closed = false
  colons : ']' ∉ cs → '@' ∉ cs → t.colons = s.colons + cs.count ':'
  percent : ']' ∉ cs → '@' ∉ cs → t.percent = (s.percent || '%' ∈ cs)
  atEnd : '@' ∉ cs → cs ≠ [] → t.atEnd = false
  paired : (s.closed = true → s.opened = true) → t.closed = true → t.opened = true

theorem read_of_through (h : s.through cs = .ok t) : Read s cs t := by
  induction cs generalizing s with
  | nil =>
    cases h
    exact
      { known := by simp
        opened := by simp
        opensOnce := by simp
        closed := by simp
        closesOnce := by simp
        colons := by simp
        percent := by simp
        atEnd := by simp
        paired := id }
  | cons c rest ih =>
    obtain ⟨hadmits, hrest⟩ := through_cons_eq_ok_iff.1 h
    have hread := ih hrest
    exact
      { known := List.forall_mem_cons.2 ⟨hadmits.known, hread.known⟩
        opened := by simp [hread.opened, next, Bool.or_assoc, eq_comm]
        opensOnce := fun hmem => by
          rcases List.mem_cons.1 hmem with hc | hmem
          · exact (hadmits.opening hc.symm).2
          · exact (Bool.or_eq_false_iff.1 (hread.opensOnce hmem)).1
        closed := by simp [hread.closed, next, Bool.or_assoc, eq_comm]
        closesOnce := fun hmem => by
          rcases List.mem_cons.1 hmem with hc | hmem
          · exact (hadmits.closing hc.symm).2
          · exact (Bool.or_eq_false_iff.1 (hread.closesOnce hmem)).1
        colons := fun hclose hat => by
          rw [List.mem_cons, not_or] at hclose hat
          rw [hread.colons hclose.2 hat.2, List.count_cons]
          simp only [next, Ne.symm hclose.1, Ne.symm hat.1, or_self, if_false, beq_iff_eq]
          split <;> omega
        percent := fun hclose hat => by
          rw [List.mem_cons, not_or] at hclose hat
          rw [hread.percent hclose.2 hat.2]
          by_cases hc : c = '%'
          · simp [next, hc]
          · simp [next, hc, Ne.symm hc, Ne.symm hclose.1, Ne.symm hat.1]
        atEnd := fun hat _ => by
          rw [List.mem_cons, not_or] at hat
          by_cases hnil : rest = []
          · subst hnil
            cases hrest
            exact decide_eq_false (Ne.symm hat.1)
          · exact hread.atEnd hat.2 hnil
        paired := fun hpair => by
          refine hread.paired fun hclosed => ?_
          simp only [next, Bool.or_eq_true, decide_eq_true_eq] at hclosed ⊢
          rcases hclosed with hclosed | hc
          · exact Or.inl (hpair hclosed)
          · exact Or.inl (hadmits.closing hc).1 }

/-- Behind an `@` nothing but the brackets is remembered. -/
theorem through_at {before : List Char} (h : s.through (before ++ ['@']) = .ok t) :
    t.colons = 0 ∧ t.percent = false := by
  obtain ⟨u, -, hlast⟩ := through_append_eq_ok_iff.1 h
  obtain ⟨-, hend⟩ := through_cons_eq_ok_iff.1 hlast
  cases hend
  exact ⟨rfl, rfl⟩

/-- Whether the last character before it was an `@` makes no difference to a text. -/
theorem through_of_atEnd (s : Scan) (b : Bool) (hne : cs ≠ []) :
    { s with atEnd := b }.through cs = s.through cs := by
  cases cs with
  | nil => exact absurd rfl hne
  | cons c rest => rfl

/-- Plain characters pass and leave everything as it is. -/
theorem through_plain (s : Scan) (hplain : ∀ c ∈ cs, isPlainChar c = true) (hne : cs ≠ []) :
    s.through cs = .ok { s with atEnd := false } := by
  induction cs generalizing s with
  | nil => exact absurd rfl hne
  | cons c rest ih =>
    have hc := hplain c List.mem_cons_self
    obtain ⟨hcolon, hopen, hclose, hat, hpercent⟩ := ne_of_isPlainChar hc
    have hnext : s.next c = { s with atEnd := false } := by
      simp [next, hcolon, hopen, hclose, hat, hpercent]
    have hadmits : s.Admits c := ⟨Or.inl hc, fun h => absurd h hcolon, fun h => absurd h hopen,
      fun h => absurd h hclose⟩
    rw [through_cons_eq_ok_iff, hnext, and_iff_right hadmits]
    by_cases hnil : rest = []
    · rw [hnil]
      rfl
    · exact ih _ (fun d hd => hplain d (List.mem_cons_of_mem c hd)) hnil

end Scan

end Steering.Uri
