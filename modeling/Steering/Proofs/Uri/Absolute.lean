import Steering.Proofs.Uri.Host
import Steering.Proofs.Uri.Parse

/-!
# `Steering.Proofs.Uri.Absolute` — URIs with a scheme

Two facts, one for each direction. A URI with a scheme has an authority too, and both are what they should
be and fit into the room there is (`exists_authority`). And a scheme in front of an authority is a URI with
just these two parts (`ofChars_append_eq_ok_iff`), so an address can be judged by the grammar of authorities
alone: which scheme it is called under matters only for the room it takes.
-/

namespace Steering.Uri

variable {cs rest scheme authority more : List Char} {uri : Uri}

/-! ## Readings that may fail -/

theorem exists_of_map_eq_ok {ε α β : Type} {f : α → β} {x : Except ε α} {b : β}
    (h : x.map f = .ok b) : ∃ a, x = .ok a ∧ f a = b := by
  cases x with
  | error e => cases h
  | ok a =>
    cases h
    exact ⟨a, rfl, rfl⟩

theorem exists_of_bind_eq_ok {ε α β : Type} {f : α → Except ε β} {x : Except ε α} {b : β}
    (h : x >>= f = .ok b) : ∃ a, x = .ok a ∧ f a = .ok b := by
  cases x with
  | error e => cases h
  | ok a => exact ⟨a, rfl, h⟩

/-! ## Authorities -/

theorem IsAuthority.byteLength_eq (h : IsAuthority authority) : byteLength authority = authority.length :=
  byteLength_eq_length fun c hc => (h.isAuthorityChar c hc).isAscii

theorem takeAuthority_eq_ok_iff : takeAuthority cs = .ok (authority, more) ↔
    cs ≠ [] ∧ authority = cs.takeWhile (!endsAuthority ·) ∧ more = cs.dropWhile (!endsAuthority ·) ∧
      IsAuthority authority := by
  rw [takeAuthority, IsAuthority]
  by_cases hnil : cs = []
  · subst hnil
    exact iff_of_false (by rintro ⟨⟩) fun h => h.1 rfl
  · rw [if_neg (by rwa [List.isEmpty_iff])]
    constructor
    · intro h
      obtain ⟨u, hrun, heq⟩ := exists_of_map_eq_ok h
      cases heq
      exact ⟨hnil, rfl, rfl, hrun⟩
    · rintro ⟨-, rfl, rfl, hrun⟩
      dsimp only
      rw [hrun]
      rfl

theorem length_le_of_takeAuthority (h : takeAuthority cs = .ok (authority, more)) :
    authority.length ≤ byteLength cs := by
  obtain ⟨-, hfront, -, hauthority⟩ := takeAuthority_eq_ok_iff.1 h
  have hcut := byteLength_append (cs.takeWhile (!endsAuthority ·)) (cs.dropWhile (!endsAuthority ·))
  rw [List.takeWhile_append_dropWhile, ← hfront, hauthority.byteLength_eq] at hcut
  omega

/-- A text in which nothing ends an authority is taken as one or not at all. -/
theorem takeAuthority_of_not_endsAuthority (hne : authority ≠ [])
    (hknown : ∀ c ∈ authority, endsAuthority c = false) :
    takeAuthority authority = (Scan.run {} authority).map fun _ => (authority, []) := by
  have htake : authority.takeWhile (!endsAuthority ·) = authority :=
    List.takeWhile_eq_self_iff.2 fun c hc => by rw [hknown c hc]; rfl
  have hdrop : authority.dropWhile (!endsAuthority ·) = [] :=
    List.dropWhile_eq_nil_iff.2 fun c hc => by rw [hknown c hc]; rfl
  rw [takeAuthority, if_neg (by rwa [List.isEmpty_iff])]
  dsimp only
  rw [htake, hdrop]

/-! ## What a URI with a scheme is made of -/

theorem exists_of_parseFull (h : parseFull cs = .ok uri) (hs : uri.scheme? = some scheme) :
    ∃ rest authority more, takeScheme cs = .ok (some scheme, rest) ∧
      takeAuthority rest = .ok (authority, more) ∧ authority ≠ [] ∧ uri.authority? = some authority := by
  rw [parseFull] at h
  obtain ⟨⟨scheme?, rest⟩, hscheme, h⟩ := exists_of_bind_eq_ok h
  obtain ⟨⟨authority, more⟩, hauthority, h⟩ := exists_of_bind_eq_ok h
  cases scheme? with
  | none =>
    dsimp only at h
    split at h
    · cases h
      cases hs
    · cases h
  | some found =>
    dsimp only at h
    split at h
    · cases h
    · rename_i hne
      rw [List.isEmpty_iff] at hne
      obtain ⟨query?, -, h⟩ := exists_of_bind_eq_ok h
      cases h
      cases hs
      exact ⟨rest, authority, more, hscheme, hauthority, hne, rfl⟩

/-- Only a URI that is read in full has a scheme. -/
theorem parseFull_of_ofChars (h : ofChars cs = .ok uri) (hs : uri.scheme? = some scheme) :
    byteLength cs ≤ maxLength ∧ parseFull cs = .ok uri := by
  unfold ofChars at h
  split at h
  · cases h
  rename_i hfit
  refine ⟨Nat.not_lt.1 hfit, ?_⟩
  split at h
  · cases h
  · cases h
    cases hs
  · cases h
    cases hs
  · obtain ⟨query?, -, rfl⟩ := exists_of_map_eq_ok h
    cases hs
  · split at h
    · cases h
    · obtain ⟨-, -, rfl⟩ := exists_of_map_eq_ok h
      cases hs
  · exact h

/-- **A URI with a scheme has an authority**, and there is room for both. -/
theorem exists_authority (h : ofChars cs = .ok uri) (hs : uri.scheme? = some scheme) :
    ∃ authority, uri.authority? = some authority ∧ IsScheme scheme ∧ IsAuthority authority ∧
      scheme.length + 3 + authority.length ≤ maxLength := by
  obtain ⟨hfit, hfull⟩ := parseFull_of_ofChars h hs
  obtain ⟨rest, authority, more, hscheme, htake, -, hauthority⟩ := exists_of_parseFull hfull hs
  obtain ⟨hknown, hlength⟩ := isScheme_of_takeScheme hscheme
  have hshort := length_le_of_takeAuthority htake
  exact ⟨authority, hauthority, hknown, (takeAuthority_eq_ok_iff.1 htake).2.2.2, by omega⟩

/-! ## A scheme in front of an authority -/

/-- A text that starts like no path and is longer than one character is read in full. -/
theorem ofChars_eq_parseFull {c d : Char} (hslash : c ≠ '/')
    (hfit : byteLength (c :: d :: cs) ≤ maxLength) : ofChars (c :: d :: cs) = parseFull (c :: d :: cs) := by
  unfold ofChars
  rw [if_neg (Nat.not_lt.2 hfit)]
  split
  · rename_i h
    cases h
  · rename_i h
    cases h
  · rename_i h
    cases h
  · rename_i h
    cases h
    exact absurd rfl hslash
  · rename_i h
    cases h
  · rfl

theorem IsScheme.exists_cons_cons (h : IsScheme scheme) (rest : List Char) :
    ∃ c d more, scheme ++ separator ++ rest = c :: d :: more ∧ c ≠ '/' := by
  have hslash : ∀ c ∈ scheme, c ≠ '/' := by
    rintro c hc rfl
    exact absurd (h.known '/' hc) (by decide)
  match scheme, hslash with
  | [], _ => exact ⟨':', '/', '/' :: rest, rfl, by decide⟩
  | [c], hslash => exact ⟨c, ':', '/' :: '/' :: rest, rfl, hslash c (by simp)⟩
  | c :: d :: more, hslash => exact ⟨c, d, more ++ separator ++ rest, rfl, hslash c (by simp)⟩

theorem parseFull_append_eq_ok_iff (hscheme : IsScheme scheme) (hne : authority ≠ [])
    (hknown : ∀ c ∈ authority, endsAuthority c = false) :
    parseFull (scheme ++ separator ++ authority) = .ok uri ↔
      IsAuthority authority ∧ uri = { scheme? := some scheme, authority? := some authority } := by
  rw [parseFull, hscheme.takeScheme hne, IsAuthority]
  simp only [bind, Except.bind, takeAuthority_of_not_endsAuthority hne hknown]
  cases Scan.run {} authority with
  | error e => exact iff_of_false (by rintro ⟨⟩) (by rintro ⟨⟨⟩, -⟩)
  | ok u =>
    simp only [Except.map]
    rw [if_neg (by rwa [List.isEmpty_iff])]
    constructor
    · rintro ⟨⟩
      exact ⟨trivial, rfl⟩
    · rintro ⟨-, rfl⟩
      rfl

/-- **A scheme and an authority are a URI** exactly if the authority is one and there is room for both. -/
theorem ofChars_append_eq_ok_iff (hscheme : IsScheme scheme) (hne : authority ≠ [])
    (hknown : ∀ c ∈ authority, IsAuthorityChar c) :
    ofChars (scheme ++ separator ++ authority) = .ok uri ↔
      scheme.length + 3 + authority.length ≤ maxLength ∧ IsAuthority authority ∧
        uri = { scheme? := some scheme, authority? := some authority } := by
  have hbytes : byteLength authority = authority.length :=
    byteLength_eq_length fun c hc => (hknown c hc).isAscii
  rw [← parseFull_append_eq_ok_iff hscheme hne fun c hc => (hknown c hc).not_endsAuthority, ← hbytes,
    ← hscheme.byteLength_append]
  obtain ⟨c, d, more, htext, hslash⟩ := hscheme.exists_cons_cons authority
  rw [htext]
  constructor
  · intro h
    have hfit : byteLength (c :: d :: more) ≤ maxLength := by
      by_contra hlong
      unfold ofChars at h
      rw [if_pos (Nat.lt_of_not_ge hlong)] at h
      cases h
    exact ⟨hfit, by rwa [ofChars_eq_parseFull hslash hfit] at h⟩
  · rintro ⟨hfit, h⟩
    rwa [ofChars_eq_parseFull hslash hfit]

end Steering.Uri
