import Steering.Proofs.Uri.Absolute
import Steering.Proofs.Uri.Whole
import Steering.Endpoint

/-!
# `Steering.Proofs.Endpoint.Address` — what an address was read from

An endpoint text is accepted for its scheme and its host and gives an address that is written anew, from the
host and, if there is one, the number of the port. What it was read from is its `Origin`, and there is a way
back: an address is cut where it was put together, so its host and its port are still those of the origin,
and two origins give the same address only if they agree on both.
-/

namespace Steering.Endpoint

open Uri (IsScheme IsAuthority IsAuthorityChar hostOf tailOf portOf? portText)

variable {raw scheme a b : String} {host tail authority other : List Char} {port? : Option Nat}

theorem toList_addressOf (host : List Char) (port? : Option Nat) :
    (addressOf host port?).toList = host ++ portText port? := by
  cases port? with
  | none => simp [addressOf, portText]
  | some n => simp [addressOf, portText]

theorem exists_of_resolve (h : resolve raw scheme = .ok a) :
    ∃ uri authority, Uri.parse raw = .ok uri ∧ uri.scheme? = some scheme.toList ∧
      uri.authority? = some authority ∧ hostOf authority ≠ [] ∧
      a = addressOf (hostOf authority) (portOf? authority) := by
  rw [resolve] at h
  cases huri : Uri.parse raw with
  | error e =>
    rw [huri] at h
    cases h
  | ok uri =>
    rw [huri] at h
    dsimp only at h
    cases hscheme : uri.scheme? with
    | none =>
      rw [hscheme] at h
      cases h
    | some found =>
      rw [hscheme] at h
      dsimp only at h
      split at h
      · cases h
      · rename_i hfound
        rw [not_not] at hfound
        cases hauthority : uri.authority? with
        | none =>
          rw [hauthority] at h
          cases h
        | some authority =>
          rw [hauthority] at h
          dsimp only at h
          split at h
          · cases h
          · rename_i hhost
            rw [List.isEmpty_iff] at hhost
            cases h
            exact ⟨uri, authority, rfl, by rw [hscheme, ← hfound, String.toList_ofList], hauthority,
              hhost, rfl⟩

theorem parse_eq_ok_iff : parse raw scheme = .ok a ↔
    ∃ uri authority, Uri.parse raw = .ok uri ∧ uri.scheme? = some scheme.toList ∧
      uri.authority? = some authority ∧ hostOf authority ≠ [] ∧
      a = addressOf (hostOf authority) (portOf? authority) := by
  constructor
  · intro h
    rw [parse] at h
    cases hresolve : resolve raw scheme with
    | error e =>
      rw [hresolve] at h
      cases h
    | ok a' =>
      rw [hresolve] at h
      cases h
      exact exists_of_resolve hresolve
  · rintro ⟨uri, authority, huri, hscheme, hauthority, hhost, rfl⟩
    rw [parse, resolve, huri]
    dsimp only
    rw [hscheme, hauthority]
    simp only [String.ofList_toList, ne_eq, not_true_eq_false, if_false]
    rw [if_neg (by rwa [List.isEmpty_iff])]
    rfl

/-- What an endpoint text names: behind the user information of its authority stands the host, and then the
tail, which is the rest. -/
def Names (raw : String) (host tail : List Char) : Prop :=
  ∃ uri authority, Uri.parse raw = .ok uri ∧ uri.authority? = some authority ∧ hostOf authority = host ∧
    Uri.afterLast '@' authority = host ++ tail

/-- **What an address was read from.** -/
structure Origin (raw scheme a : String) (authority : List Char) : Prop where
  uri : ∃ uri, Uri.parse raw = .ok uri ∧ uri.authority? = some authority
  isScheme : IsScheme scheme.toList
  isAuthority : IsAuthority authority
  fits : scheme.length + 3 + authority.length ≤ Uri.maxLength
  host_ne : hostOf authority ≠ []
  address : a = addressOf (hostOf authority) (portOf? authority)

theorem exists_origin (h : parse raw scheme = .ok a) : ∃ authority, Origin raw scheme a authority := by
  obtain ⟨uri, authority, huri, hscheme, hauthority, hhost, haddress⟩ := parse_eq_ok_iff.1 h
  obtain ⟨authority', hauthority', hisScheme, hisAuthority, hfits⟩ := Uri.exists_authority huri hscheme
  cases hauthority.symm.trans hauthority'
  exact ⟨authority, ⟨uri, huri, hauthority⟩, hisScheme, hisAuthority, hfits, hhost, haddress⟩

namespace Origin

theorem toList_address (h : Origin raw scheme a authority) :
    a.toList = hostOf authority ++ portText (portOf? authority) := by
  rw [h.address, toList_addressOf]

theorem names (h : Origin raw scheme a authority) : Names raw (hostOf authority) (tailOf authority) := by
  obtain ⟨uri, huri, hauthority⟩ := h.uri
  exact ⟨uri, authority, huri, hauthority, rfl, h.isAuthority.host_cases.1⟩

/-- A text names one host and one tail. -/
theorem eq_of_names (h : Origin raw scheme a authority) (hnames : Names raw host tail) :
    host = hostOf authority ∧ tail = tailOf authority := by
  obtain ⟨uri, huri, hauthority⟩ := h.uri
  obtain ⟨uri', authority', huri', hauthority', rfl, hcut⟩ := hnames
  cases huri.symm.trans huri'
  cases hauthority.symm.trans hauthority'
  exact ⟨rfl, (Uri.tailOf_eq hcut).symm⟩

theorem length_le (h : Origin raw scheme a authority) :
    scheme.length + 3 + a.length ≤ Uri.maxLength := by
  have hshort := h.isAuthority.length_host_append_portText_le
  rw [← h.toList_address, String.length_toList] at hshort
  have hfits := h.fits
  omega

/-! ## The way back -/

theorem hostOf_toList (h : Origin raw scheme a authority) : hostOf a.toList = hostOf authority := by
  rw [h.toList_address, h.isAuthority.hostOf_host_append_portText h.host_ne]

theorem portOf?_toList (h : Origin raw scheme a authority) : portOf? a.toList = portOf? authority := by
  rw [h.toList_address, h.isAuthority.portOf?_host_append_portText]

/-- **An address tells its host and its port.** -/
theorem address_eq_iff {raw' scheme' : String} (h : Origin raw scheme a authority)
    (h' : Origin raw' scheme' b other) :
    a = b ↔ hostOf authority = hostOf other ∧ portOf? authority = portOf? other := by
  constructor
  · rintro rfl
    exact ⟨h.hostOf_toList.symm.trans h'.hostOf_toList, h.portOf?_toList.symm.trans h'.portOf?_toList⟩
  · rintro ⟨hhost, hport⟩
    rw [h.address, h'.address, hhost, hport]

end Origin

/-! ## A scheme in front of an authority -/

theorem toList_append (scheme text : String) :
    (scheme ++ "://" ++ text).toList = scheme.toList ++ Uri.separator ++ text.toList := by
  rw [String.toList_append, String.toList_append]
  rfl

theorem parse_append_eq_ok_iff {text : String} (hscheme : IsScheme scheme.toList) (hne : text.toList ≠ [])
    (hknown : ∀ c ∈ text.toList, IsAuthorityChar c) : parse (scheme ++ "://" ++ text) scheme = .ok a ↔
      scheme.length + 3 + text.length ≤ Uri.maxLength ∧ IsAuthority text.toList ∧
        hostOf text.toList ≠ [] ∧ a = addressOf (hostOf text.toList) (portOf? text.toList) := by
  rw [parse_eq_ok_iff]
  simp only [Uri.parse, toList_append, Uri.ofChars_append_eq_ok_iff hscheme hne hknown,
    String.length_toList]
  constructor
  · rintro ⟨uri, authority, ⟨hfits, hauthority, rfl⟩, -, ⟨⟩, hhost, haddress⟩
    exact ⟨hfits, hauthority, hhost, haddress⟩
  · rintro ⟨hfits, hauthority, hhost, haddress⟩
    exact ⟨_, text.toList, ⟨hfits, hauthority, rfl⟩, rfl, rfl, hhost, haddress⟩

end Steering.Endpoint
