import Steering.Proofs.Uri.Host

/-!
# `Steering.Proofs.Uri.Whole` — hosts that can stand for themselves

A host is read as a part of its authority, and what a scan has seen before it counts. Cut out and put in front
of a port, it has to do alone. It does so exactly if it is *whole*: with brackets in pairs, and with a percent
sign only if there are brackets. The port adds nothing but a colon and digits, so it does not matter to that,
and what was put together is cut at the same place again.
-/

namespace Steering.Uri

variable {authority cs : List Char} {c : Char}

/-- Whether brackets come in pairs and a percent sign only with them. -/
def IsWhole (cs : List Char) : Prop := ('[' ∈ cs ↔ ']' ∈ cs) ∧ ('%' ∈ cs → ']' ∈ cs)

instance (cs : List Char) : Decidable (IsWhole cs) := inferInstanceAs (Decidable (_ ∧ _))

/-- How a port is written behind a host. -/
def portText : Option Nat → List Char
  | some n => ':' :: (toString n).toList
  | none => []

/-! ## Characters -/

theorem isPlainChar_of_isDigit (h : c.isDigit = true) : isPlainChar c = true := by
  simp [isPlainChar, Char.isAlphanum, h]

theorem mem_portText {p : Option Nat} (h : c ∈ portText p) : c = ':' ∨ c.isDigit = true := by
  cases p with
  | none => cases h
  | some n => exact (List.mem_cons.1 h).imp_right Text.isDigit_of_mem_toString

/-- Behind a host, a port adds nothing but a colon and digits. -/
theorem mem_append_portText_iff (hcolon : c ≠ ':') (hdigit : c.isDigit = false) {p : Option Nat} :
    c ∈ cs ++ portText p ↔ c ∈ cs := by
  rw [List.mem_append]
  refine or_iff_left fun h => ?_
  rcases mem_portText h with h | h
  · exact hcolon h
  · rw [h] at hdigit
    cases hdigit

theorem isWhole_append_portText {p : Option Nat} : IsWhole (cs ++ portText p) ↔ IsWhole cs := by
  rw [IsWhole, IsWhole, mem_append_portText_iff (by decide) (by decide),
    mem_append_portText_iff (by decide) (by decide), mem_append_portText_iff (by decide) (by decide)]

/-! ## What can stand for itself -/

/-- An authority without user information is whole. -/
theorem IsAuthority.isWhole (h : IsAuthority cs) (hat : '@' ∉ cs) : IsWhole cs := by
  obtain ⟨t, hthrough, haccepts⟩ := Scan.run_eq_ok_iff.1 h
  obtain ⟨hpair, -, -, hpercent⟩ := Scan.accepts_iff.1 haccepts
  have hread := Scan.read_of_through hthrough
  rw [hread.opened, hread.closed, Bool.false_or, Bool.false_or, decide_eq_decide] at hpair
  refine ⟨hpair, fun hmem => ?_⟩
  by_contra hclose
  rw [hread.percent hclose hat] at hpercent
  simp [hmem] at hpercent

theorem IsAuthority.at_notMem_host (h : IsAuthority authority) : '@' ∉ hostOf authority := by
  intro hmem
  refine notMem_afterLast '@' authority ?_
  rw [h.host_cases.1]
  exact List.mem_append_left _ hmem

theorem IsAuthority.at_notMem_tail (h : IsAuthority authority) : '@' ∉ tailOf authority := by
  intro hmem
  refine notMem_afterLast '@' authority ?_
  rw [h.host_cases.1]
  exact List.mem_append_right _ hmem

/-- A whole host without brackets has nothing but plain characters. -/
theorem IsAuthority.isPlainChar_host (h : IsAuthority authority) (hwhole : IsWhole (hostOf authority))
    (hopen : '[' ∉ hostOf authority) : ∀ c ∈ hostOf authority, isPlainChar c = true := by
  have hclose : ']' ∉ hostOf authority := fun hmem => hopen (hwhole.1.2 hmem)
  have hfree : ':' ∉ hostOf authority := by
    rcases h.host_cases.2 with ⟨q, hq, -⟩ | ⟨hfree, -, -⟩
    · exact absurd (hq ▸ List.mem_cons_self) hopen
    · exact hfree
  intro c hc
  rcases h.isAuthorityChar c (h.mem_of_mem_host hc) with hplain | hspecial
  · exact hplain
  · simp only [List.mem_cons, List.not_mem_nil, or_false] at hspecial
    rcases hspecial with rfl | rfl | rfl | rfl | rfl
    · exact absurd hc hfree
    · exact absurd hc hopen
    · exact absurd hc hclose
    · exact absurd hc h.at_notMem_host
    · exact absurd (hwhole.2 hc) hclose

/-- A host with both brackets is read alone: they are its own, so the scan has seen none before it, and sees
none behind it. -/
theorem IsAuthority.through_host_of_brackets (h : IsAuthority authority) (hopen : '[' ∈ hostOf authority)
    (hclose : ']' ∈ hostOf authority) : ∃ t : Scan, ({} : Scan).through (hostOf authority) = .ok t ∧
      t.accepts = true ∧ (':' ∈ tailOf authority → t.colons = 0) := by
  obtain ⟨s, u, hcolons, hpercent, -, hthrough, haccepts⟩ := h.exists_scan
  rw [h.host_cases.1, Scan.through_append_eq_ok_iff] at hthrough
  obtain ⟨t, hhost, htail⟩ := hthrough
  have hread := Scan.read_of_through hhost
  have hmore := Scan.read_of_through htail
  have hstart : s = { ({} : Scan) with atEnd := s.atEnd } := by
    obtain ⟨colons, opened, closed, percent, atEnd⟩ := s
    cases hcolons
    cases hpercent
    cases hread.opensOnce hopen
    cases hread.closesOnce hclose
    rfl
  have hne : hostOf authority ≠ [] := List.ne_nil_of_mem hopen
  rw [hstart, Scan.through_of_atEnd _ _ hne] at hhost
  have hopened : t.opened = true := by simp [hread.opened, hopen]
  have hclosed : t.closed = true := by simp [hread.closed, hclose]
  have hnoclose : ']' ∉ tailOf authority := fun hmem => by
    have := hmore.closesOnce hmem
    rw [hclosed] at this
    cases this
  obtain ⟨-, hfew, -, hdone⟩ := Scan.accepts_iff.1 haccepts
  rw [hmore.percent hnoclose h.at_notMem_tail] at hdone
  rw [hmore.colons hnoclose h.at_notMem_tail] at hfew
  have hend : t.atEnd = false := hread.atEnd h.at_notMem_host hne
  refine ⟨t, hhost, Scan.accepts_iff.2 ⟨hopened.trans hclosed.symm, by omega, hend,
    (Bool.or_eq_false_iff.1 hdone).1⟩, fun hcolon => ?_⟩
  have := List.count_pos_iff.2 hcolon
  omega

/-- **A whole host is read alone as it is read behind user information.** -/
theorem IsAuthority.through_host (h : IsAuthority authority) (hne : hostOf authority ≠ [])
    (hwhole : IsWhole (hostOf authority)) : ∃ t : Scan, ({} : Scan).through (hostOf authority) = .ok t ∧
      t.accepts = true ∧ (':' ∈ tailOf authority → t.colons = 0) := by
  by_cases hopen : '[' ∈ hostOf authority
  · exact h.through_host_of_brackets hopen (hwhole.1.1 hopen)
  · exact ⟨{}, Scan.through_plain _ (h.isPlainChar_host hwhole hopen) hne, rfl, fun _ => rfl⟩

/-- A port behind a scan that may end and has counted no colon. -/
theorem exists_through_portText {s : Scan} (haccepts : s.accepts = true) {p : Option Nat}
    (hcolons : p ≠ none → s.colons = 0) :
    ∃ t : Scan, s.through (portText p) = .ok t ∧ t.accepts = true := by
  cases p with
  | none => exact ⟨s, rfl, haccepts⟩
  | some n =>
    have hnone := hcolons (Option.some_ne_none n)
    have hadmits : s.Admits ':' := by
      rw [Scan.admits_iff, hnone]
      exact ⟨Or.inr (by decide), fun _ => by decide, fun h => absurd h (by decide),
        fun h => absurd h (by decide)⟩
    have hdigits : ∀ c ∈ (toString n).toList, isPlainChar c = true := fun c hc =>
      isPlainChar_of_isDigit (Text.isDigit_of_mem_toString hc)
    have hnil : (toString n).toList ≠ [] := by
      rw [Text.toList_toString]
      exact Nat.toDigits_ne_nil
    refine ⟨_, Scan.through_cons_eq_ok_iff.2 ⟨hadmits, Scan.through_plain _ hdigits hnil⟩,
      Scan.accepts_iff.2 ?_⟩
    obtain ⟨hpair, -, -, hpercent⟩ := Scan.accepts_iff.1 haccepts
    simp [Scan.next, hpair, hpercent, hnone]

/-- A whole host and a port are an authority. -/
theorem IsAuthority.host_append_portText (h : IsAuthority authority) (hne : hostOf authority ≠ [])
    (hwhole : IsWhole (hostOf authority)) :
    IsAuthority (hostOf authority ++ portText (portOf? authority)) := by
  obtain ⟨t, hhost, haccepts, hnone⟩ := h.through_host hne hwhole
  have hcolons : portOf? authority ≠ none → t.colons = 0 := by
    intro hport
    refine hnone ?_
    by_contra hfree
    rw [h.portOf?_eq, Uri.portOf?_eq, if_neg hfree] at hport
    exact hport rfl
  obtain ⟨u, hport, hdone⟩ := exists_through_portText haccepts hcolons
  exact Scan.run_eq_ok_iff.2 ⟨u, Scan.through_append_eq_ok_iff.2 ⟨t, hhost, hport⟩, hdone⟩

/-! ## Read back -/

/-- A host and a port are cut where they were put together. -/
theorem IsAuthority.hostOf_host_append_portText (h : IsAuthority authority)
    (hne : hostOf authority ≠ []) (p : Option Nat) :
    hostOf (hostOf authority ++ portText p) = hostOf authority := by
  have hat : '@' ∉ hostOf authority ++ portText p := by
    rw [mem_append_portText_iff (by decide) (by decide)]
    exact h.at_notMem_host
  have hrest := afterLast_of_notMem hat
  obtain ⟨hcut, ⟨q, hq, hclose⟩ | ⟨hfree, hopen, -⟩⟩ := h.host_cases
  · have hbracket : afterLast '@' (hostOf authority ++ portText p) = '[' :: (q ++ [']'] ++ portText p) := by
      rw [hrest, hq]
      rfl
    have htake : (q ++ [']'] ++ portText p).takeWhile (· ≠ ']') = q := by
      rw [List.append_assoc, List.takeWhile_append_of_pos]
      · simp
      · intro c hc
        simpa using fun heq : c = ']' => hclose (heq ▸ hc)
    rw [hostOf_of_bracket hbracket, htake, hq]
  · have hhead : (afterLast '@' (hostOf authority ++ portText p)).head? ≠ some '[' := by
      rw [hcut] at hopen
      rw [hrest]
      cases hhost : hostOf authority with
      | nil => exact absurd hhost hne
      | cons c rest =>
        rw [hhost] at hopen
        exact hopen
    rw [hostOf_of_open hhead, hrest, List.takeWhile_append_of_pos]
    · cases p <;> simp [portText]
    · intro c hc
      simpa using fun heq : c = ':' => hfree (heq ▸ hc)

theorem colon_notMem_toString (n : Nat) : ':' ∉ (toString n).toList := fun h =>
  absurd (Text.isDigit_of_mem_toString h) (by decide)

theorem IsAuthority.portOf?_host (h : IsAuthority authority) : portOf? (hostOf authority) = none := by
  obtain ⟨-, ⟨q, hq, -⟩ | ⟨hfree, -, -⟩⟩ := h.host_cases
  · rw [hq, ← List.cons_append]
    exact portOf?_eq_none List.not_mem_nil (by decide) (by decide) (by decide)
  · rw [Uri.portOf?_eq, if_neg hfree]

theorem portOf?_append_portText {n : Nat} (h : n ≤ maxPort) :
    portOf? (cs ++ portText (some n)) = some n := by
  rw [portOf?_append_of_mem (by exact List.mem_cons_self), portText,
    portOf?_cons (colon_notMem_toString n), portNumber?_eq_some_iff]
  exact ⟨Text.readUnsigned?_toString n, h⟩

theorem portNumber?_of_portOf? {n : Nat} (h : portOf? cs = some n) :
    ':' ∈ cs ∧ portNumber? (afterLast ':' cs) = some n := by
  rw [portOf?_eq] at h
  split at h
  · rename_i hcolon
    exact ⟨hcolon, h⟩
  · cases h

theorem IsAuthority.portOf?_host_append_portText (h : IsAuthority authority) :
    portOf? (hostOf authority ++ portText (portOf? authority)) = portOf? authority := by
  cases hport : portOf? authority with
  | none =>
    rw [portText, List.append_nil]
    exact h.portOf?_host
  | some n =>
    exact portOf?_append_portText (portNumber?_eq_some_iff.1 (portNumber?_of_portOf? hport).2).2

/-! ## Lengths -/

/-- A port is written with no more characters than it was read from. -/
theorem length_portText_le (cs : List Char) : (portText (portOf? cs)).length ≤ cs.length := by
  cases hport : portOf? cs with
  | none => exact Nat.zero_le _
  | some n =>
    obtain ⟨hcolon, hread⟩ := portNumber?_of_portOf? hport
    have hshort := Text.length_toString_le (portNumber?_eq_some_iff.1 hread).1
    have hlast : (afterLast ':' cs).length < cs.length := by
      obtain ⟨before, hcs, rfl | ⟨u, rfl⟩⟩ := exists_eq_append_afterLast ':' cs
      · rw [List.nil_append] at hcs
        rw [hcs] at hcolon
        exact absurd hcolon (notMem_afterLast ':' cs)
      · have hlength := congrArg List.length hcs
        simp only [List.length_append, List.length_singleton] at hlength
        omega
    rw [portText, List.length_cons]
    omega

theorem IsAuthority.length_host_append_portText_le (h : IsAuthority authority) :
    (hostOf authority ++ portText (portOf? authority)).length ≤ authority.length := by
  obtain ⟨before, hbefore, -⟩ := exists_eq_append_afterLast '@' authority
  have hlength := congrArg List.length hbefore
  rw [h.host_cases.1] at hlength
  have hport := length_portText_le (tailOf authority)
  rw [← h.portOf?_eq] at hport
  simp only [List.length_append] at hlength ⊢
  omega

end Steering.Uri
