import Steering.Proofs.ChangeStream.Plan
import Steering.Proofs.Client.Channels
import Steering.Proofs.Endpoint.Address

/-!
# `Steering.Proofs.Endpoint.Usable` — which addresses can be called

An endpoint is judged by its whole text, and an address is put together from parts that were cut out of it.
The cuts do not care for brackets: a host ends at the first colon, and what is in front of the last `@` is
dropped. So an address can have one bracket without the other, or a percent sign that stood between
brackets, and then it is no authority. If it is *whole*, then everything else about it is in order: it is
accepted again and gives itself, and it can be called if the prefix leaves room for it. All questions about
the use of an address come down to this one and to its length.
-/

namespace Steering

namespace Endpoint

open Uri (IsScheme IsAuthority IsAuthorityChar IsWhole hostOf tailOf portOf? portText)

variable {raw scheme a : String} {authority : List Char}

/-- A scheme and the address are a URI with the address as its authority. -/
def IsCallable (scheme a : String) : Prop :=
  ∃ uri, Uri.parse (scheme ++ "://" ++ a) = .ok uri ∧ uri.authority? = some a.toList

/-- The scheme that an address is called under. -/
def callScheme (secure : Bool) : String := if secure then "https" else "http"

theorem isScheme_callScheme (secure : Bool) : IsScheme (callScheme secure).toList := by
  cases secure with
  | false => exact Uri.isScheme_http
  | true => exact Uri.isScheme_https

theorem channelUri_eq (address endpoint : String) (secure : Bool) : channelUri address endpoint secure
    = callScheme (secure || isSecure endpoint) ++ "://" ++ address := by
  rw [channelUri, callScheme]
  cases secure || isSecure endpoint <;> rfl

namespace Origin

theorem isAuthorityChar (h : Origin raw scheme a authority) : ∀ c ∈ a.toList, IsAuthorityChar c := by
  intro c hc
  rw [h.toList_address, List.mem_append] at hc
  rcases hc with hc | hc
  · exact h.isAuthority.isAuthorityChar c (h.isAuthority.mem_of_mem_host hc)
  · rcases Uri.mem_portText hc with rfl | hdigit
    · decide
    · exact Or.inl (Uri.isPlainChar_of_isDigit hdigit)

theorem toList_ne_nil (h : Origin raw scheme a authority) : a.toList ≠ [] := by
  rw [h.toList_address]
  exact List.append_ne_nil_of_left_ne_nil h.host_ne _

/-- **An address is an authority just if it is whole.** -/
theorem isAuthority_iff (h : Origin raw scheme a authority) : IsAuthority a.toList ↔ IsWhole a.toList := by
  rw [h.toList_address]
  constructor
  · intro hauthority
    refine hauthority.isWhole ?_
    rw [Uri.mem_append_portText_iff (by decide) (by decide)]
    exact h.isAuthority.at_notMem_host
  · intro hwhole
    rw [Uri.isWhole_append_portText] at hwhole
    exact h.isAuthority.host_append_portText h.host_ne hwhole

theorem parse_address_iff (h : Origin raw scheme a authority) :
    parse (scheme ++ "://" ++ a) scheme = .ok a ↔ IsWhole a.toList := by
  rw [parse_append_eq_ok_iff h.isScheme h.toList_ne_nil h.isAuthorityChar, h.isAuthority_iff,
    h.hostOf_toList, h.portOf?_toList]
  constructor
  · exact fun hall => hall.2.1
  · exact fun hwhole => ⟨h.length_le, hwhole, h.host_ne, h.address⟩

theorem parse_call_iff (h : Origin raw scheme a authority) {called : String}
    (hcalled : IsScheme called.toList) {uri : Uri} : Uri.parse (called ++ "://" ++ a) = .ok uri ↔
      called.length + 3 + a.length ≤ Uri.maxLength ∧ IsWhole a.toList ∧
        uri = { scheme? := some called.toList, authority? := some a.toList } := by
  rw [Uri.parse, toList_append, Uri.ofChars_append_eq_ok_iff hcalled h.toList_ne_nil h.isAuthorityChar,
    h.isAuthority_iff, String.length_toList, String.length_toList]

/-- **What can be called is what is whole and not too long.** -/
theorem isCallable_iff (h : Origin raw scheme a authority) {called : String}
    (hcalled : IsScheme called.toList) :
    IsCallable called a ↔ IsWhole a.toList ∧ called.length + 3 + a.length ≤ Uri.maxLength := by
  rw [IsCallable]
  simp only [h.parse_call_iff hcalled]
  constructor
  · rintro ⟨uri, ⟨hfits, hwhole, -⟩, -⟩
    exact ⟨hwhole, hfits⟩
  · rintro ⟨hwhole, hfits⟩
    exact ⟨_, ⟨hfits, hwhole, rfl⟩, rfl⟩

/-- An address is called by a text that is read just if the address can be called. -/
theorem isOk_parse_channelUri (h : Origin raw scheme a authority) (endpoint : String) (secure : Bool) :
    (Uri.parse (channelUri a endpoint secure)).isOk = true ↔
      IsCallable (callScheme (secure || isSecure endpoint)) a := by
  have hcalled := isScheme_callScheme (secure || isSecure endpoint)
  rw [channelUri_eq, h.isCallable_iff hcalled]
  constructor
  · intro hok
    cases hparse : Uri.parse (callScheme (secure || isSecure endpoint) ++ "://" ++ a) with
    | error e =>
      rw [hparse] at hok
      cases hok
    | ok uri =>
      obtain ⟨hfits, hwhole, -⟩ := (h.parse_call_iff hcalled).1 hparse
      exact ⟨hwhole, hfits⟩
  · rintro ⟨hwhole, hfits⟩
    rw [(h.parse_call_iff hcalled).2 ⟨hfits, hwhole, rfl⟩]
    rfl

/-- Where brackets are closed only to end a host that they began, every address is whole. -/
theorem isWhole_of_head? (h : Origin raw scheme a authority)
    (hbracket : ']' ∈ Uri.afterLast '@' authority → (hostOf authority).head? = some '[') :
    IsWhole a.toList := by
  rw [h.toList_address, Uri.isWhole_append_portText]
  obtain ⟨hcut, hcases⟩ := h.isAuthority.host_cases
  by_cases hclose : ']' ∈ Uri.afterLast '@' authority
  · rcases hcases with ⟨q, hq, -⟩ | ⟨-, hopen, -⟩
    · rw [hq]
      simp [IsWhole]
    · refine absurd ?_ hopen
      rw [hcut, List.head?_append_of_ne_nil _ h.host_ne]
      exact hbracket hclose
  · obtain ⟨hopen, hfree⟩ := h.isAuthority.notMem_of_not_closed hclose
    rw [hcut] at hclose hopen hfree
    have hhost : ∀ c, c ∉ hostOf authority ++ tailOf authority → c ∉ hostOf authority :=
      fun c hc hmem => hc (List.mem_append_left _ hmem)
    exact ⟨iff_of_false (hhost _ hopen) (hhost _ hclose), fun hmem => absurd hmem (hhost _ hfree)⟩

end Origin

end Endpoint

/-! ## Who is refused -/

theorem ChannelCache.exists_channelFor_iff (c : ChannelCache) (nodes : List WeightedNode)
    (n : WeightedNode) : (∃ channel, (c.channelFor nodes n).1 = .ok channel) ↔
      (c.channels.get? n.address).isSome = true ∨
        (Uri.parse (Endpoint.channelUri n.address n.service.endpoint c.secure)).isOk = true := by
  rw [channelFor]
  cases c.channels.get? n.address with
  | some channel => exact iff_of_true ⟨channel, rfl⟩ (Or.inl rfl)
  | none =>
    dsimp only
    rw [make, narrow]
    cases Uri.parse (Endpoint.channelUri n.address n.service.endpoint c.secure) with
    | error e => exact iff_of_false (by rintro ⟨channel, ⟨⟩⟩) (by rintro (⟨⟨⟩⟩ | ⟨⟨⟩⟩))
    | ok uri => exact iff_of_true ⟨_, rfl⟩ (Or.inr rfl)

namespace ChangeStream

theorem exists_insert_mem_insertions_iff {secure : Bool} {present : List String} {as : List Address}
    {x : String} : (∃ uri, Change.insert x uri ∈ insertions secure present as) ↔
      x ∈ (insertions secure present as).map Change.address := by
  rw [List.mem_map]
  constructor
  · rintro ⟨uri, hmem⟩
    exact ⟨_, hmem, rfl⟩
  · rintro ⟨change, hmem, rfl⟩
    obtain ⟨e, -, rfl⟩ := List.mem_map.1 ((insertions_sublist secure present as).subset hmem)
    exact ⟨_, hmem⟩

/-- What an update inserts of what is not in place: whatever of the list can be called. -/
theorem exists_insert_mem_changesTo_iff {s : ChangeStream} {addresses : List Address} {x : String}
    (hx : x ∉ s.active) : (∃ uri, Change.insert x uri ∈ s.changesTo addresses) ↔
      ∃ e ∈ addresses, e.addr = x ∧ Callable s.secure e = true := by
  have hremovals : ∀ uri, Change.insert x uri ∈ s.changesTo addresses ↔
      Change.insert x uri ∈ insertions s.secure
        (s.active.filter fun address => address ∈ addresses.map Address.addr) addresses := by
    intro uri
    rw [changesTo, List.mem_append]
    exact or_iff_right (by simp)
  simp only [hremovals]
  rw [exists_insert_mem_insertions_iff, mem_insertions]
  exact and_iff_right fun hmem => hx (List.mem_filter.1 hmem).1

end ChangeStream

namespace Endpoint

open Uri (IsWhole)

/-- **Which addresses can be used.** An address that an endpoint was accepted with is accepted again under
its scheme and gives itself exactly if it is whole, and it is the authority of a URI behind either prefix
exactly if it is whole and leaves room for the prefix, which a long one may not even though it left room for
its own scheme. A client has a channel for a node at the address exactly if there is one already or the
address can be called, and a stream inserts it exactly if it can. Every address is whole of an endpoint that
closes no bracket behind its user information except to end a host in brackets. -/
theorem usable_iff_whole {σ : Type} (raw scheme a : String) (h : parse raw scheme = .ok a) :
    (parse (scheme ++ "://" ++ a) scheme = .ok a ↔ IsWhole a.toList) ∧
      (IsCallable "http" a ↔ IsWhole a.toList ∧ 7 + a.length ≤ Uri.maxLength) ∧
      (IsCallable "https" a ↔ IsWhole a.toList ∧ 8 + a.length ≤ Uri.maxLength) ∧
      scheme.length + 3 + a.length ≤ Uri.maxLength ∧
      (∀ (c : Client σ) (n : WeightedNode), n.address = a →
        ((∃ channel, (c.channelFor n).1 = .ok channel) ↔
          (c.cache.channels.get? a).isSome = true ∨
            IsCallable (callScheme (c.cache.secure || isSecure n.service.endpoint)) a)) ∧
      (∀ (s : ChangeStream) (addresses : List Address), a ∉ s.active →
        ((∃ uri, Change.insert a uri ∈ s.changesTo addresses) ↔
          ∃ e ∈ addresses, e.addr = a ∧
            IsCallable (callScheme (s.secure || isSecure e.service.endpoint)) a)) ∧
      ∀ host tail, Names raw host tail → (']' ∈ host ++ tail → host.head? = some '[') →
        IsWhole a.toList := by
  obtain ⟨authority, horigin⟩ := exists_origin h
  refine ⟨horigin.parse_address_iff, horigin.isCallable_iff Uri.isScheme_http,
    horigin.isCallable_iff Uri.isScheme_https, horigin.length_le, ?_, ?_, ?_⟩
  · rintro c n rfl
    rw [← horigin.isOk_parse_channelUri]
    exact c.cache.exists_channelFor_iff c.nodeSet.nodes n
  · intro s addresses hactive
    rw [ChangeStream.exists_insert_mem_changesTo_iff hactive]
    refine exists_congr fun e => and_congr_right fun _ => and_congr_right fun haddr => ?_
    rw [← horigin.isOk_parse_channelUri, ChangeStream.Callable, ChangeStream.uriOf, haddr]
  · rintro host tail hnames hbracket
    obtain ⟨rfl, rfl⟩ := horigin.eq_of_names hnames
    refine horigin.isWhole_of_head? ?_
    rwa [horigin.isAuthority.host_cases.1]

/-- A host in brackets, with a port written the long way. -/
theorem usable_iff_whole_brackets :
    parse ("grpc" ++ "://" ++ "[::1]:443") "grpc" = .ok "[::1]:443" ∧ IsCallable "http" "[::1]:443" ∧
      IsCallable "https" "[::1]:443" := by
  obtain ⟨hagain, hhttp, hhttps, -⟩ :=
    @usable_iff_whole Unit "grpc://u@[::1]:0443" "grpc" "[::1]:443" (by decide +kernel)
  have hwhole : IsWhole "[::1]:443".toList := by decide
  exact ⟨hagain.2 hwhole, hhttp.2 ⟨hwhole, by decide⟩, hhttps.2 ⟨hwhole, by decide⟩⟩

/-- The brackets do not begin the host, which is cut between them: the address is refused everywhere. -/
theorem cut_between_brackets :
    parse "grpc://x[::1]:80" "grpc" = .ok "x[:80" ∧
      parse "grpc://x[:80" "grpc" = .error (.invalidEndpoint "grpc://x[:80" "invalid authority") ∧
      Uri.parse "http://x[:80" = .error .badAuthority ∧ Uri.parse "https://x[:80" = .error .badAuthority := by
  refine ⟨?_, ?_, ?_, ?_⟩ <;> decide +kernel

end Endpoint

end Steering
