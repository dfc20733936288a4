import Steering.Proofs.Text.Decimal
import Steering.Proofs.Uri.Scan

/-!
# `Steering.Proofs.Uri.Host` — how an authority is cut

User information ends at the last `@`. What follows is the *host* and then the *tail* (`tailOf`): a host in
brackets ends where its bracket does, and any other host ends at the first colon (`IsAuthority.host_cases`).
The host is cut from the left and the port is read from the right, behind the last colon of everything, and
these meet in the tail: a last colon elsewhere has a bracket or an `@` behind it, which no port text has
(`IsAuthority.portOf?_eq`).
-/

namespace Steering.Uri

variable {authority cs more : List Char} {c : Char}

/-! ## The last occurrence of a character -/

/-- What is left of a text is nothing or starts with the character that it was searched for. -/
theorem dropWhile_ne_cases (c : Char) (cs : List Char) :
    cs.dropWhile (· ≠ c) = [] ∨ ∃ more, cs.dropWhile (· ≠ c) = c :: more := by
  cases hdrop : cs.dropWhile (· ≠ c) with
  | nil => exact Or.inl rfl
  | cons d more =>
    have hhead := List.head?_dropWhile_not (· ≠ c) cs
    rw [hdrop] at hhead
    have hd : d = c := by simpa using hhead
    exact Or.inr ⟨more, by rw [hd]⟩

theorem exists_eq_append_afterLast (c : Char) (cs : List Char) : ∃ before,
    cs = before ++ afterLast c cs ∧ (before = [] ∨ ∃ u, before = u ++ [c]) := by
  refine ⟨(cs.reverse.dropWhile (· ≠ c)).reverse, ?_, ?_⟩
  · rw [afterLast, ← List.reverse_append, List.takeWhile_append_dropWhile, List.reverse_reverse]
  · refine (dropWhile_ne_cases c cs.reverse).imp (fun hnil => ?_) ?_
    · rw [hnil]
      rfl
    · rintro ⟨more, hmore⟩
      exact ⟨more.reverse, by rw [hmore, List.reverse_cons]⟩

theorem notMem_afterLast (c : Char) (cs : List Char) : c ∉ afterLast c cs := by
  rw [afterLast, List.mem_reverse]
  intro h
  simpa using List.mem_takeWhile_imp h

theorem afterLast_append_of_notMem (h : c ∉ more) :
    afterLast c (cs ++ more) = afterLast c cs ++ more := by
  rw [afterLast, List.reverse_append, List.takeWhile_append_of_pos, List.reverse_append,
    List.reverse_reverse, afterLast]
  intro d hd
  rw [List.mem_reverse] at hd
  simpa using fun heq : d = c => h (heq ▸ hd)

theorem afterLast_of_notMem (h : c ∉ cs) : afterLast c cs = cs :=
  @afterLast_append_of_notMem [] cs c h

theorem afterLast_cons_self (h : c ∉ cs) : afterLast c (c :: cs) = cs := by
  have := @afterLast_append_of_notMem [c] cs c h
  simpa [afterLast] using this

theorem afterLast_append_of_mem (h : c ∈ more) : afterLast c (cs ++ more) = afterLast c more := by
  obtain ⟨before, heq, hbefore⟩ := exists_eq_append_afterLast c more
  have hfree := notMem_afterLast c more
  rcases hbefore with rfl | ⟨u, rfl⟩
  · rw [heq] at h
    exact absurd h hfree
  · conv_lhs => rw [heq, ← List.append_assoc, ← List.append_assoc]
    rw [afterLast_append_of_notMem hfree]
    simp [afterLast]

/-! ## Ports -/

/-- The number of a port text, if it is one. -/
def portNumber? (text : List Char) : Option Nat :=
  (Text.readUnsigned? text).bind fun n => if n ≤ maxPort then some n else none

theorem portNumber?_eq_some_iff {text : List Char} {n : Nat} :
    portNumber? text = some n ↔ Text.readUnsigned? text = some n ∧ n ≤ maxPort := by
  rw [portNumber?, Option.bind_eq_some_iff]
  constructor
  · rintro ⟨m, hread, hm⟩
    split at hm
    · cases hm
      exact ⟨hread, by assumption⟩
    · cases hm
  · rintro ⟨hread, hn⟩
    exact ⟨n, hread, if_pos hn⟩

theorem portOf?_eq (cs : List Char) :
    portOf? cs = if ':' ∈ cs then portNumber? (afterLast ':' cs) else none := by
  rw [portOf?, portNumber?]
  simp only [List.contains_iff_mem]
  split
  · cases Text.readUnsigned? (afterLast ':' cs) <;> rfl
  · rfl

theorem portOf?_cons {text : List Char} (h : ':' ∉ text) : portOf? (':' :: text) = portNumber? text := by
  rw [portOf?_eq, if_pos List.mem_cons_self, afterLast_cons_self h]

/-- Nothing but digits and a sign stands in a port text. -/
theorem portNumber?_eq_none {text : List Char} (hc : c ∈ text) (hdigit : c.isDigit = false)
    (hplus : c ≠ '+') : portNumber? text = none := by
  rw [Option.eq_none_iff_forall_ne_some]
  intro n hn
  have hread := (portNumber?_eq_some_iff.1 hn).1
  rcases Text.isDigit_or_plus_of_readUnsigned? hread hc with h | h
  · rw [h] at hdigit
    cases hdigit
  · exact hplus h

theorem notMem_of_portNumber? {text : List Char} {n : Nat} (h : portNumber? text = some n)
    (hdigit : c.isDigit = false) (hplus : c ≠ '+') : c ∉ text := by
  intro hc
  rw [portNumber?_eq_none hc hdigit hplus] at h
  cases h

/-- A last colon in front of a character that no port text has declares no port. -/
theorem portOf?_eq_none (hmore : ':' ∉ more) (hcolon : c ≠ ':') (hdigit : c.isDigit = false)
    (hplus : c ≠ '+') : portOf? (cs ++ c :: more) = none := by
  have hfree : ':' ∉ c :: more := by
    rw [List.mem_cons, not_or]
    exact ⟨Ne.symm hcolon, hmore⟩
  rw [portOf?_eq, afterLast_append_of_notMem hfree]
  split
  · exact portNumber?_eq_none (List.mem_append_right _ List.mem_cons_self) hdigit hplus
  · rfl

theorem portOf?_append_of_mem (h : ':' ∈ more) : portOf? (cs ++ more) = portOf? more := by
  rw [portOf?_eq, portOf?_eq, if_pos (List.mem_append_right _ h), if_pos h, afterLast_append_of_mem h]

/-! ## The cuts -/

/-- The text is an authority. -/
def IsAuthority (cs : List Char) : Prop := Scan.run {} cs = .ok ()

theorem IsAuthority.isAuthorityChar (h : IsAuthority authority) : ∀ c ∈ authority, IsAuthorityChar c := by
  obtain ⟨t, hthrough, -⟩ := Scan.run_eq_ok_iff.1 h
  exact (Scan.read_of_through hthrough).known

/-- What a scan knows of the part behind the user information. -/
theorem IsAuthority.exists_scan (h : IsAuthority authority) : ∃ s t : Scan,
    s.colons = 0 ∧ s.percent = false ∧ (s.closed = true → s.opened = true) ∧
      s.through (afterLast '@' authority) = .ok t ∧ t.accepts = true := by
  obtain ⟨t, hthrough, haccepts⟩ := Scan.run_eq_ok_iff.1 h
  obtain ⟨before, heq, hbefore⟩ := exists_eq_append_afterLast '@' authority
  rw [heq, Scan.through_append_eq_ok_iff] at hthrough
  obtain ⟨s, hs, hrest⟩ := hthrough
  have hpair : s.closed = true → s.opened = true := (Scan.read_of_through hs).paired (by rintro ⟨⟩)
  rcases hbefore with rfl | ⟨u, rfl⟩
  · cases hs
    exact ⟨{}, t, rfl, rfl, hpair, hrest, haccepts⟩
  · obtain ⟨hcolons, hpercent⟩ := Scan.through_at hs
    exact ⟨s, t, hcolons, hpercent, hpair, hrest, haccepts⟩

/-- Where nothing is closed behind the user information, nothing is opened there and no percent sign is
left. -/
theorem IsAuthority.notMem_of_not_closed (h : IsAuthority authority)
    (hclose : ']' ∉ afterLast '@' authority) :
    '[' ∉ afterLast '@' authority ∧ '%' ∉ afterLast '@' authority := by
  obtain ⟨s, t, -, -, hpair, hthrough, haccepts⟩ := h.exists_scan
  obtain ⟨hsame, -, -, hdone⟩ := Scan.accepts_iff.1 haccepts
  have hread := Scan.read_of_through hthrough
  constructor
  · intro hmem
    have hfresh := hread.opensOnce hmem
    rw [hread.opened, hread.closed, hfresh] at hsame
    have hclosed : s.closed = true := by simpa [hmem, hclose] using hsame.symm
    rw [hpair hclosed] at hfresh
    cases hfresh
  · intro hmem
    rw [hread.percent hclose (notMem_afterLast '@' authority)] at hdone
    simp [hmem] at hdone

/-- What stands behind the host of an authority. -/
def tailOf (authority : List Char) : List Char :=
  (afterLast '@' authority).drop (hostOf authority).length

theorem hostOf_of_bracket {r : List Char} (h : afterLast '@' authority = '[' :: r) :
    hostOf authority = '[' :: (r.takeWhile (· ≠ ']') ++ [']']) := by
  rw [hostOf, h]
  rfl

theorem hostOf_of_open (h : (afterLast '@' authority).head? ≠ some '[') :
    hostOf authority = (afterLast '@' authority).takeWhile (· ≠ ':') := by
  unfold hostOf
  dsimp only
  split
  · rename_i r heq
    rw [heq] at h
    exact absurd rfl h
  · rfl

theorem tailOf_eq {tail : List Char} (h : afterLast '@' authority = hostOf authority ++ tail) :
    tailOf authority = tail := by
  rw [tailOf, h, List.drop_left]

/-- A host in brackets has both of them. -/
theorem IsAuthority.close_mem (h : IsAuthority authority) {r : List Char}
    (hr : afterLast '@' authority = '[' :: r) : ']' ∈ r := by
  by_contra hclose
  have hfree : ']' ∉ afterLast '@' authority := by
    rw [hr, List.mem_cons, not_or]
    exact ⟨by decide, hclose⟩
  refine (h.notMem_of_not_closed hfree).1 ?_
  rw [hr]
  exact List.mem_cons_self

/-- **How an authority is cut.** Behind the user information stands the host and then the tail. A host is
either a bracketed text, or it holds no colon and ends where the first colon is. -/
theorem IsAuthority.host_cases (h : IsAuthority authority) :
    afterLast '@' authority = hostOf authority ++ tailOf authority ∧
      ((∃ q, hostOf authority = '[' :: (q ++ [']']) ∧ ']' ∉ q) ∨
        (':' ∉ hostOf authority ∧ (afterLast '@' authority).head? ≠ some '[' ∧
          (tailOf authority = [] ∨ ∃ text, tailOf authority = ':' :: text))) := by
  by_cases hopen : (afterLast '@' authority).head? = some '['
  · obtain ⟨r, hr⟩ : ∃ r, afterLast '@' authority = '[' :: r := List.head?_eq_some_iff.1 hopen
    have hhost := hostOf_of_bracket hr
    have hcut : r.takeWhile (· ≠ ']') ++ r.dropWhile (· ≠ ']') = r := List.takeWhile_append_dropWhile
    obtain hnil | ⟨tail, htail⟩ := dropWhile_ne_cases ']' r
    · rw [hnil, List.append_nil] at hcut
      have hclose := h.close_mem hr
      rw [← hcut] at hclose
      exact absurd (List.mem_takeWhile_imp hclose) (by decide)
    · have hwhole : afterLast '@' authority = hostOf authority ++ tail := by
        rw [hr, hhost, List.cons_append, List.append_assoc, List.singleton_append, ← htail, hcut]
      rw [tailOf_eq hwhole]
      exact ⟨hwhole, Or.inl ⟨_, hhost, fun hmem => by simpa using List.mem_takeWhile_imp hmem⟩⟩
  · have hhost := hostOf_of_open hopen
    have hwhole : afterLast '@' authority
        = hostOf authority ++ (afterLast '@' authority).dropWhile (· ≠ ':') := by
      rw [hhost, List.takeWhile_append_dropWhile]
    rw [tailOf_eq hwhole]
    refine ⟨hwhole, Or.inr ⟨?_, hopen, dropWhile_ne_cases ':' _⟩⟩
    rw [hhost]
    intro hmem
    simpa using List.mem_takeWhile_imp hmem

theorem IsAuthority.mem_of_mem_host (h : IsAuthority authority) (hc : c ∈ hostOf authority) :
    c ∈ authority := by
  obtain ⟨before, heq, -⟩ := exists_eq_append_afterLast '@' authority
  rw [h.host_cases.1] at heq
  rw [heq]
  exact List.mem_append_right _ (List.mem_append_left _ hc)

/-- **The port is read off the tail.** The last colon of an authority can stand in the user information or
between the brackets of the host, but then a character follows it that no port text has. -/
theorem IsAuthority.portOf?_eq (h : IsAuthority authority) :
    portOf? authority = portOf? (tailOf authority) := by
  obtain ⟨before, hauthority, hbefore⟩ := exists_eq_append_afterLast '@' authority
  obtain ⟨hcut, hcases⟩ := h.host_cases
  by_cases hcolon : ':' ∈ tailOf authority
  · rw [hcut, ← List.append_assoc] at hauthority
    conv_lhs => rw [hauthority]
    exact portOf?_append_of_mem hcolon
  · have hnone : portOf? (tailOf authority) = none := by
      rw [Uri.portOf?_eq, if_neg hcolon]
    rw [hnone]
    rcases hcases with ⟨q, hhost, -⟩ | ⟨hfree, -, -⟩
    · have hsplit : authority = (before ++ '[' :: q) ++ ']' :: tailOf authority := by
        rw [hcut, hhost] at hauthority
        simpa using hauthority
      rw [hsplit]
      exact portOf?_eq_none hcolon (by decide) (by decide) (by decide)
    · have hrest : ':' ∉ afterLast '@' authority := by
        rw [hcut, List.mem_append, not_or]
        exact ⟨hfree, hcolon⟩
      rcases hbefore with rfl | ⟨u, rfl⟩
      · rw [List.nil_append] at hauthority
        rw [← hauthority] at hrest
        rw [Uri.portOf?_eq, if_neg hrest]
      · rw [List.append_assoc, List.singleton_append] at hauthority
        rw [hauthority]
        exact portOf?_eq_none hrest (by decide) (by decide) (by decide)

end Steering.Uri
