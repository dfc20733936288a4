import Steering.Proofs.Endpoint.Address

/-!
# `Steering.Proofs.Endpoint.Port` — what becomes of a declared port

A port is declared by what stands behind the host. If that is a colon and the number of a port, in decimal
and with any number of leading zeros, then the address ends in the same number, written the short way. If it
is anything else, then the endpoint is accepted all the same and the address does without a port, or with
the one behind a later colon: there is no text of ordinary characters for whose sake an endpoint is refused.
So two endpoints at one host that declare different numbers never share an address, and two that declare
something else always do.
-/

namespace Steering.Endpoint

open Uri (IsAuthority IsAuthorityChar isPlainChar hostOf tailOf portOf? portNumber? portText)

variable {raw scheme a : String} {host tail text authority : List Char} {n : Nat}

/-- The text is the number of a port: digits behind a plus sign or none, with a value of 16 bits. -/
def DenotesPort (text : List Char) (n : Nat) : Prop :=
  ∃ digits, (text = digits ∨ text = '+' :: digits) ∧ digits ≠ [] ∧ (∀ c ∈ digits, c.isDigit = true) ∧
    Nat.ofDigitChars 10 digits 0 = n ∧ n ≤ Uri.maxPort

theorem denotesPort_iff : DenotesPort text n ↔ portNumber? text = some n := by
  rw [Uri.portNumber?_eq_some_iff]
  constructor
  · rintro ⟨digits, htext, hne, hdigits, hvalue, hn⟩
    have hread : Text.readNat? digits = some n := Text.readNat?_eq_some_iff.2 ⟨hne, hdigits, hvalue⟩
    refine ⟨?_, hn⟩
    rcases htext with rfl | rfl
    · rwa [Text.readUnsigned?_of_notMem]
      intro hplus
      exact absurd (hdigits '+' hplus) (by decide)
    · exact hread
  · rintro ⟨hread, hn⟩
    obtain ⟨digits, htext, hdigits⟩ := Text.exists_readNat?_of_readUnsigned? hread
    obtain ⟨hne, hknown, hvalue⟩ := Text.readNat?_eq_some_iff.1 hdigits
    exact ⟨digits, htext, hne, hknown, hvalue, hn⟩

theorem colon_notMem_of_denotesPort (h : DenotesPort text n) : ':' ∉ text :=
  Uri.notMem_of_portNumber? (denotesPort_iff.1 h) (by decide) (by decide)

/-! ## Hosts and ports of ordinary characters -/

theorem isAuthority_plain (hhost : host ≠ []) (hhostPlain : ∀ c ∈ host, isPlainChar c = true)
    (htext : text ≠ []) (htextPlain : ∀ c ∈ text, isPlainChar c = true) :
    IsAuthority (host ++ ':' :: text) := by
  rw [IsAuthority, Uri.Scan.run_eq_ok_iff]
  refine ⟨{ colons := 1 }, ?_, rfl⟩
  rw [Uri.Scan.through_append_eq_ok_iff]
  refine ⟨{}, Uri.Scan.through_plain _ hhostPlain hhost, ?_⟩
  rw [Uri.Scan.through_cons_eq_ok_iff]
  refine ⟨⟨by decide, by decide, by decide, by decide⟩, ?_⟩
  exact Uri.Scan.through_plain _ htextPlain htext

theorem afterLast_plain (hhost : ∀ c ∈ host, isPlainChar c = true)
    (htext : ∀ c ∈ text, isPlainChar c = true) :
    Uri.afterLast '@' (host ++ ':' :: text) = host ++ ':' :: text := by
  refine Uri.afterLast_of_notMem fun hmem => ?_
  rcases List.mem_append.1 hmem with hmem | hmem
  · exact (Uri.Scan.ne_of_isPlainChar (hhost _ hmem)).2.2.2.1 rfl
  · rcases List.mem_cons.1 hmem with heq | hmem
    · exact absurd heq (by decide)
    · exact (Uri.Scan.ne_of_isPlainChar (htext _ hmem)).2.2.2.1 rfl

theorem hostOf_plain (hne : host ≠ []) (hhost : ∀ c ∈ host, isPlainChar c = true)
    (htext : ∀ c ∈ text, isPlainChar c = true) : hostOf (host ++ ':' :: text) = host := by
  rw [Uri.hostOf_of_open, afterLast_plain hhost htext, List.takeWhile_append_of_pos]
  · simp
  · intro c hc
    simpa using (Uri.Scan.ne_of_isPlainChar (hhost c hc)).1
  · rw [afterLast_plain hhost htext]
    cases host with
    | nil => exact absurd rfl hne
    | cons c rest =>
      rintro ⟨⟩
      exact (Uri.Scan.ne_of_isPlainChar (hhost '[' List.mem_cons_self)).2.1 rfl

/-- **No port text is refused.** -/
theorem parse_plain {text : String} (hscheme : Uri.IsScheme scheme.toList) (hne : host ≠ [])
    (hhost : ∀ c ∈ host, isPlainChar c = true) (htext : text ≠ "")
    (hplain : ∀ c ∈ text.toList, isPlainChar c = true)
    (hfits : scheme.length + 3 + (host.length + 1 + text.length) ≤ Uri.maxLength) :
    parse (scheme ++ "://" ++ (String.ofList host ++ ":" ++ text)) scheme
      = .ok (addressOf host (portNumber? text.toList)) := by
  have htoList : (String.ofList host ++ ":" ++ text).toList = host ++ ':' :: text.toList := by simp
  have htextNe : text.toList ≠ [] := by simpa using htext
  have hcolon : ':' ∉ text.toList := fun hmem => (Uri.Scan.ne_of_isPlainChar (hplain _ hmem)).1 rfl
  have hauthority := isAuthority_plain hne hhost htextNe hplain
  rw [parse_append_eq_ok_iff hscheme (by rw [htoList]; simp)
    (by rw [htoList]; exact hauthority.isAuthorityChar), htoList, hostOf_plain hne hhost hplain,
    Uri.portOf?_append_of_mem List.mem_cons_self, Uri.portOf?_cons hcolon]
  refine ⟨?_, hauthority, hne, rfl⟩
  simp only [String.length_append, String.length_ofList]
  exact hfits

/-! ## Every accepted endpoint -/

theorem Origin.eq_of_denotesPort (h : Origin raw scheme a authority)
    (htail : tailOf authority = ':' :: text) (hport : DenotesPort text n) :
    a = String.ofList (hostOf authority) ++ ":" ++ toString n := by
  rw [h.address, h.isAuthority.portOf?_eq, htail,
    Uri.portOf?_cons (colon_notMem_of_denotesPort hport), denotesPort_iff.1 hport]
  rfl

theorem Origin.eq_host (h : Origin raw scheme a authority) (htail : tailOf authority = ':' :: text)
    (hcolon : ':' ∉ text) (hport : ¬ ∃ n, DenotesPort text n) : a = String.ofList (hostOf authority) := by
  have hnone : portNumber? text = none := by
    rw [Option.eq_none_iff_forall_ne_some]
    exact fun n hn => hport ⟨n, denotesPort_iff.2 hn⟩
  rw [h.address, h.isAuthority.portOf?_eq, htail, Uri.portOf?_cons hcolon, hnone]
  rfl

/-- **What becomes of a declared port.** Behind the host of an accepted endpoint stands a tail, and the
address has the port that is read off it. If the tail is a colon and a text, then the address ends in the
number that the text denotes exactly if it denotes one; if it does not and has no further colon, the address
is the host. Two accepted endpoints have the same address exactly if the hosts and the ports that are read
agree. And with ordinary characters for a host, every text of ordinary characters is accepted in the place
of the port. -/
theorem declared_port (raw scheme a : String) (h : parse raw scheme = .ok a) :
    ∃ host tail, Names raw host tail ∧ host ≠ [] ∧ a = addressOf host (portOf? tail) ∧
      (∀ text, tail = ':' :: text →
        ((∃ n, DenotesPort text n ∧ a = String.ofList host ++ ":" ++ toString n) ↔
          ∃ n, DenotesPort text n) ∧
        (':' ∉ text → (¬ ∃ n, DenotesPort text n) → a = String.ofList host)) ∧
      (∀ raw' scheme' b host' tail', parse raw' scheme' = .ok b → Names raw' host' tail' →
        (a = b ↔ host = host' ∧ portOf? tail = portOf? tail')) ∧
      ((∀ c ∈ host, isPlainChar c = true) → ∀ text : String, text ≠ "" →
        (∀ c ∈ text.toList, isPlainChar c = true) →
        scheme.length + 3 + (host.length + 1 + text.length) ≤ Uri.maxLength →
        parse (scheme ++ "://" ++ (String.ofList host ++ ":" ++ text)) scheme
          = .ok (addressOf host (portNumber? text.toList))) := by
  obtain ⟨authority, horigin⟩ := exists_origin h
  refine ⟨hostOf authority, tailOf authority, horigin.names, horigin.host_ne, ?_, ?_, ?_, ?_⟩
  · rw [horigin.address, horigin.isAuthority.portOf?_eq]
  · intro text htail
    refine ⟨⟨fun ⟨n, hn, _⟩ => ⟨n, hn⟩, fun ⟨n, hn⟩ => ⟨n, hn, horigin.eq_of_denotesPort htail hn⟩⟩, ?_⟩
    exact horigin.eq_host htail
  · intro raw' scheme' b host' tail' h' hnames
    obtain ⟨other, horigin'⟩ := exists_origin h'
    obtain ⟨rfl, rfl⟩ := horigin'.eq_of_names hnames
    rw [horigin.address_eq_iff horigin', horigin.isAuthority.portOf?_eq, horigin'.isAuthority.portOf?_eq]
  · exact fun hhost text htext hplain hfits =>
      parse_plain horigin.isScheme horigin.host_ne hhost htext hplain hfits

/-- The colon of the user information declares nothing, and the number is written the short way. -/
theorem declared_port_behind_user : ∃ host tail, Names "grpc://u:1@h:+0443" host tail ∧
    "h:443" = addressOf host (portOf? tail) := by
  obtain ⟨host, tail, hnames, -, haddress, -⟩ :=
    declared_port "grpc://u:1@h:+0443" "grpc" "h:443" (by decide +kernel)
  exact ⟨host, tail, hnames, haddress⟩

/-- Two ports that are none by a little, at one host: both endpoints are accepted, and both are the host. -/
theorem port_dropped :
    (parse "grpc://h:65536" "grpc" = .ok "h" ∧ Names "grpc://h:65536" ['h'] (':' :: "65536".toList)) ∧
      (parse "grpc://h:65537" "grpc" = .ok "h" ∧ Names "grpc://h:65537" ['h'] (':' :: "65537".toList)) ∧
      ¬ ∃ n, DenotesPort "65536".toList n := by
  refine ⟨⟨by decide +kernel, ?_⟩, ⟨by decide +kernel, ?_⟩, ?_⟩
  · exact ⟨{ scheme? := some "grpc".toList, authority? := some "h:65536".toList }, "h:65536".toList,
      by decide +kernel, rfl, by decide, by decide⟩
  · exact ⟨{ scheme? := some "grpc".toList, authority? := some "h:65537".toList }, "h:65537".toList,
      by decide +kernel, rfl, by decide, by decide⟩
  · rintro ⟨n, hn⟩
    have hnone : portNumber? "65536".toList = none := by decide +kernel
    rw [denotesPort_iff, hnone] at hn
    cases hn

end Steering.Endpoint
