import Steering.Proofs.Text.Cut
import Steering.Target

/-!
# `Steering.Proofs.Target` — what a target text denotes

A target text is cut twice and trimmed once: at the first `://`, at the first slash behind it, and by the
slashes around what is left. `Denotes` says what comes of that without doing it, and `parse_eq_ok_iff`
that reading does just this. A scheme may then hold colons and slashes and a service name further `://`,
as long as the places of the two cuts are the first ones.

So a text can be written from a target that was read, and be read again: the cuts depend only on what
stands before them (`FirstCut.replace`), and a trimmed name needs no trimming. A target has several
texts, which differ in the slashes around the service name; the one that is written has none
(`Denotes.text`).
-/

namespace Steering.Target

open Text

/-- A target is what a text is cut into. -/
structure Denotes (raw : String) (t : Target) : Prop where
  cut : ∃ path, FirstCut "://".toList raw.toList t.scheme.toList (t.authority.toList ++ '/' :: path) ∧
    Trims (· = '/') path t.endpoint.toList
  /-- The slash behind the authority is the first one. -/
  authority : '/' ∉ t.authority.toList
  scheme : t.scheme ≠ ""
  endpoint : t.endpoint ≠ ""

variable {raw : String} {t : Target}

/-! ## Reading -/

theorem ofChars_of_denotes (h : Denotes raw t) : ofChars raw.toList = .ok t := by
  obtain ⟨path, hcut, htrims⟩ := h.cut
  have hscheme : splitAt? [':', '/', '/'] raw.toList
      = some (t.scheme.toList, t.authority.toList ++ '/' :: path) :=
    (splitAt?_eq_some_iff (by simp)).2 hcut
  have hslash : splitAt? ['/'] (t.authority.toList ++ '/' :: path)
      = some (t.authority.toList, path) :=
    (splitAt?_eq_some_iff (by simp)).2 (firstCut_singleton_iff.2 ⟨rfl, h.authority⟩)
  have hname : trimWhile (fun c => decide (c = '/')) path = t.endpoint.toList :=
    trimWhile_eq_of_trims htrims
  simp [ofChars, hscheme, hslash, hname, h.scheme, h.endpoint]

theorem denotes_of_ofChars (h : ofChars raw.toList = .ok t) : Denotes raw t := by
  unfold ofChars at h
  split at h
  · simp at h
  · rename_i scheme rest hscheme
    split at h
    · simp at h
    · rename_i hne
      cases hslash : splitAt? ['/'] rest with
      | none => simp [hslash, trimWhile] at h
      | some cut =>
        obtain ⟨authority, path⟩ := cut
        simp only [hslash, Option.getD_some] at h
        split at h
        · simp at h
        · rename_i hname
          obtain rfl := Except.ok.inj h
          obtain ⟨rfl, hfirst⟩ := firstCut_singleton_iff.1 (firstCut_of_splitAt? hslash)
          constructor
          case cut =>
            refine ⟨path, ?_, ?_⟩
            · simpa using firstCut_of_splitAt? hscheme
            · simpa using trims_trimWhile _ path
          case authority => simpa using hfirst
          case scheme => simpa using hne
          case endpoint => simpa using hname

theorem parse_eq_ok_iff : parse raw = .ok t ↔ Denotes raw t := by
  have hsame : parse raw = .ok t ↔ ofChars raw.toList = .ok t := by
    unfold parse
    cases ofChars raw.toList <;> simp [Except.mapError]
  rw [hsame]
  exact ⟨denotes_of_ofChars, ofChars_of_denotes⟩

/-- Behind the first slash there is all that stands behind any other. -/
theorem suffix_of_firstCut {rest authority path between behind : List Char}
    (h : FirstCut ['/'] rest authority path) (heq : rest = between ++ '/' :: behind) :
    behind <:+ path := by
  have hfirst := h.first between behind (by rw [heq]; simp)
  have hbehind : behind <:+ rest := ⟨between ++ ['/'], by rw [heq]; simp⟩
  have hpath : path <:+ rest := ⟨authority ++ ['/'], h.eq.symm⟩
  have hlen := congrArg List.length (h.eq.symm.trans heq)
  simp only [List.length_append, List.length_cons, List.length_nil] at hlen
  apply List.suffix_of_suffix_length_le hbehind hpath
  omega

theorem exists_denotes_iff : (∃ t, Denotes raw t) ↔
    ∃ before rest, FirstCut "://".toList raw.toList before rest ∧ before ≠ [] ∧
      ∃ between behind, rest = between ++ '/' :: behind ∧ ∃ c ∈ behind, c ≠ '/' := by
  constructor
  · rintro ⟨t, h⟩
    obtain ⟨path, hcut, htrims⟩ := h.cut
    refine ⟨_, _, hcut, by simpa using h.scheme, _, _, rfl, ?_⟩
    by_contra hall
    push Not at hall
    -- nothing but slashes is no name
    have hnil := trimWhile_eq_nil_iff.2 fun c hc => decide_eq_true (hall c hc)
    rw [trimWhile_eq_of_trims htrims] at hnil
    exact h.endpoint (by simpa using hnil)
  · rintro ⟨before, rest, hcut, hne, between, behind, heq, c, hc, hslash⟩
    have hsome : (splitAt? ['/'] rest).isSome := by
      rw [splitAt?_isSome_iff (by simp)]
      exact ⟨between, behind, by rw [heq]; simp⟩
    obtain ⟨⟨authority, path⟩, hsplit⟩ := Option.isSome_iff_exists.1 hsome
    have hfirst := firstCut_of_splitAt? hsplit
    have hname : trimWhile (fun c => decide (c = '/')) path ≠ [] := by
      intro hnil
      have hin := (suffix_of_firstCut hfirst heq).subset hc
      exact hslash (of_decide_eq_true (trimWhile_eq_nil_iff.1 hnil c hin))
    obtain ⟨rfl, hauthority⟩ := firstCut_singleton_iff.1 hfirst
    refine ⟨⟨String.ofList before, String.ofList authority,
      String.ofList (trimWhile (fun c => decide (c = '/')) path)⟩, ⟨path, ?_, ?_⟩, ?_, ?_, ?_⟩
    · simpa using hcut
    · simpa using trims_trimWhile _ path
    · simpa using hauthority
    · simpa using hne
    · simpa using hname

/-! ## Writing -/

theorem toList_text (t : Target) : t.text.toList
    = t.scheme.toList ++ "://".toList ++ (t.authority.toList ++ '/' :: t.endpoint.toList) := by
  simp [text]

/-- What is written denotes what was read. -/
theorem Denotes.text (h : Denotes raw t) : Denotes t.text t := by
  obtain ⟨path, hcut, htrims⟩ := h.cut
  refine ⟨⟨t.endpoint.toList, ?_, htrims.again⟩, h.authority, h.scheme, h.endpoint⟩
  rw [toList_text]
  exact hcut.replace _

/-- **Target texts round-trip.** A text is accepted exactly if there is a `://` in it, something before the
first one, and behind it a slash with something other than slashes further on. What is read from an
accepted text is what it is cut into, and the text that is written from that is read as the same target
again, whose text it is. -/
theorem text_round_trips (raw : String) :
    ((∃ t, parse raw = .ok t) ↔
      ∃ before rest, FirstCut "://".toList raw.toList before rest ∧ before ≠ [] ∧
        ∃ between behind, rest = between ++ '/' :: behind ∧ ∃ c ∈ behind, c ≠ '/') ∧
      ∀ t, parse raw = .ok t →
        Denotes raw t ∧ ∃ t', parse t.text = .ok t' ∧ t' = t ∧ t'.text = t.text := by
  refine ⟨?_, fun t ht => ?_⟩
  · simp only [parse_eq_ok_iff]
    exact exists_denotes_iff
  · have h := parse_eq_ok_iff.1 ht
    exact ⟨h, t, parse_eq_ok_iff.2 h.text, rfl, rfl⟩

/-- The scheme holds a colon and a slash, the authority a colon at its end, and the service name, with
slashes around it, a `://` of its own. -/
theorem text_round_trips_through_slashes :
    parse "a:/b://x:80://svc/://v1//" = .ok ⟨"a:/b", "x:80:", "svc/://v1"⟩ ∧
      parse "a:/b://x:80:/svc/://v1" = .ok ⟨"a:/b", "x:80:", "svc/://v1"⟩ := by
  have hread : parse "a:/b://x:80://svc/://v1//" = .ok ⟨"a:/b", "x:80:", "svc/://v1"⟩ := rfl
  obtain ⟨-, hround⟩ := text_round_trips "a:/b://x:80://svc/://v1//"
  obtain ⟨-, t', hagain, rfl, -⟩ := hround _ hread
  exact ⟨hread, hagain⟩

end Steering.Target
