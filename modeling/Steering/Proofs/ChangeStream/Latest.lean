import Steering.Proofs.ChangeStream.Exact

/-!
# `Steering.Proofs.ChangeStream.Latest` — the last word about an address

What a receiver does with an address in place is settled by the last change about it, which is the
insertion that put it there. An update that comes to its end has the last word only about addresses that
it inserts itself; of several entries for one address that is the first that can be called. An address
that was in place already keeps the insertion that it had, whatever the list says of it now.
-/

namespace Steering

namespace ChangeStream

variable {a : String} {cs more : List Change} {c : Change}

/-- The last of some changes that is about an address. -/
def lastAbout? (a : String) (cs : List Change) : Option Change :=
  (cs.filter fun c => c.address = a).getLast?

theorem lastAbout?_append (a : String) (cs more : List Change) :
    lastAbout? a (cs ++ more) = (lastAbout? a more).or (lastAbout? a cs) := by
  rw [lastAbout?, List.filter_append, List.getLast?_append]
  rfl

theorem lastAbout?_eq_none (h : a ∉ cs.map Change.address) : lastAbout? a cs = none := by
  rw [lastAbout?, List.getLast?_eq_none_iff, List.filter_eq_nil_iff]
  intro c hc hca
  exact h (List.mem_map.2 ⟨c, hc, of_decide_eq_true hca⟩)

theorem lastAbout?_singleton (a : String) (c : Change) :
    lastAbout? a [c] = if c.address = a then some c else none := by
  rw [lastAbout?, List.filter_cons]
  by_cases h : c.address = a <;> simp [h]

theorem lastAbout?_of_nodup (h : (cs.map Change.address).Nodup) (hc : c ∈ cs) :
    lastAbout? c.address cs = some c := by
  obtain ⟨before, behind, rfl⟩ := List.append_of_mem hc
  rw [List.map_append, List.map_cons, List.nodup_middle, List.nodup_cons, List.mem_append,
    not_or] at h
  rw [List.append_cons, lastAbout?_append, lastAbout?_append, lastAbout?_eq_none h.1.2,
    lastAbout?_singleton, if_pos rfl]
  rfl

theorem mem_of_lastAbout? (h : lastAbout? a cs = some c) : c ∈ cs :=
  List.mem_of_mem_filter (List.mem_of_getLast? h)

/-- An address that changes have left in place was inserted by the last change about it. -/
theorem exists_lastAbout?_of_mem_replay (h : a ∈ replay ∅ cs) :
    ∃ uri, lastAbout? a cs = some (.insert a uri) := by
  induction cs using List.reverseRecOn with
  | nil => simp [replay] at h
  | append_singleton cs c ih =>
    rw [lastAbout?_append, lastAbout?_singleton]
    rw [replay_append] at h
    by_cases hc : c.address = a
    · subst hc
      cases c with
      | insert b uri => exact ⟨uri, by simp [Change.address]⟩
      | remove b => simp [replay, Change.address] at h
    · have hbefore : a ∈ replay ∅ cs := by
        cases c with
        | insert b uri => exact (Finset.mem_insert.1 h).resolve_left (Ne.symm hc)
        | remove b => exact (Finset.mem_erase.1 h).2
      simpa [hc] using ih hbefore

variable {secure : Bool} {present : List String} {addresses : List Address}

/-- The first entry for an address that can be called. -/
def firstCallable? (secure : Bool) (addresses : List Address) (a : String) : Option Address :=
  addresses.find? fun e => e.addr = a && Callable secure e

theorem firstCallable?_cons (secure : Bool) (e : Address) (rest : List Address) (a : String) :
    firstCallable? secure (e :: rest) a
      = if e.addr = a ∧ Callable secure e = true then some e else firstCallable? secure rest a := by
  rw [firstCallable?, List.find?_cons]
  by_cases h : e.addr = a ∧ Callable secure e = true
  · simp [h]
  · rw [if_neg h]
    simp only [not_and, Bool.not_eq_true] at h
    by_cases ha : e.addr = a
    · simp [h ha, firstCallable?]
    · simp [ha, firstCallable?]

theorem mem_of_firstCallable? {e : Address} (h : firstCallable? secure addresses a = some e) :
    e.addr = a ∧ e ∈ addresses := by
  have htest := List.find?_some h
  rw [Bool.and_eq_true, decide_eq_true_iff] at htest
  exact ⟨htest.1, List.mem_of_find?_eq_some h⟩

/-- What is inserted for an address is its first entry that can be called. -/
theorem firstCallable?_of_mem_insertions (h : c ∈ insertions secure present addresses) :
    ∃ e, firstCallable? secure addresses c.address = some e ∧ c = insertionOf secure e := by
  induction addresses generalizing present with
  | nil => cases h
  | cons e rest ih =>
    have hnew : c.address ∉ present := (mem_insertions.1 (List.mem_map_of_mem h)).1
    rw [firstCallable?_cons]
    rw [insertions_cons] at h
    split at h
    · rename_i hskip
      rw [if_neg]
      · exact ih h
      · rintro ⟨haddr, hcall⟩
        exact hskip.elim (haddr ▸ hnew) (by simp [hcall])
    · rename_i htake
      rw [not_or, Bool.not_eq_false] at htake
      obtain rfl | hlater := List.mem_cons.1 h
      · exact ⟨e, if_pos ⟨rfl, htake.2⟩, rfl⟩
      · rw [if_neg]
        · exact ih hlater
        · rintro ⟨haddr, -⟩
          exact (mem_insertions.1 (List.mem_map_of_mem hlater)).1 (haddr ▸ List.mem_cons_self)

theorem mem_insertions_of_mem_changesBy {s : ChangeStream} {dismiss : Shuffle String} {uri : String}
    (h : Change.insert a uri ∈ s.changesBy dismiss addresses) :
    Change.insert a uri ∈ insertions s.secure
      (s.active.filter fun a => a ∈ addresses.map Address.addr) addresses := by
  rw [changesBy, List.mem_append] at h
  exact h.resolve_left (by simp)

theorem mem_active_of_remove_mem_changesBy {s : ChangeStream} {dismiss : Shuffle String}
    (h : Change.remove a ∈ s.changesBy dismiss addresses) : a ∈ s.active := by
  rw [changesBy, List.mem_append] at h
  obtain hgone | hnew := h
  · obtain ⟨b, hb, heq⟩ := List.mem_map.1 hgone
    cases heq
    exact ((mem_dismissed dismiss addresses).1 hb).1
  · obtain ⟨e, -, heq⟩ := List.mem_map.1 ((insertions_sublist _ _ _).subset hnew)
    cases heq

namespace Account

variable {t : Account}

/-! ## Every insertion is of a listed address -/

/-- The addresses that an act lists. -/
def Act.listed : Act → List Address
  | .begin _ addresses => addresses
  | _ => []

/-- Every insertion that was sent or will be is of one of some addresses. -/
def InsertsOf (entries : List Address) (t : Account) : Prop :=
  ∀ a uri, Change.insert a uri ∈ t.sent ++ t.stream.pending →
    ∃ e ∈ entries, Change.insert a uri = insertionOf t.stream.secure e

theorem subset_of_act_step {a : Act} (hbegin : a.isBegin = false) (hresume : a ≠ .resume) :
    (t.act a).sent ++ (t.act a).stream.pending ⊆ t.sent ++ t.stream.pending := by
  obtain ⟨hsent, -, hpending⟩ | ⟨hsent, -, hpending, -⟩ | ⟨c, hsent, -, hpending⟩ :=
    t.act_cases hbegin hresume
  · rw [hsent, hpending]
    exact List.Subset.refl _
  · rw [hsent, hpending, List.append_nil]
    exact List.subset_append_left _ _
  · rw [hsent, hpending, ← List.append_cons]
    exact List.Subset.refl _

namespace InsertsOf

variable {entries : List Address}

theorem of_subset (h : t.InsertsOf entries) {u : Account} (hsecure : u.stream.secure = t.stream.secure)
    (hsubset : u.sent ++ u.stream.pending ⊆ t.sent ++ t.stream.pending) : u.InsertsOf entries := by
  intro a uri ha
  rw [hsecure]
  exact h a uri (hsubset ha)

theorem act_step (h : t.InsertsOf entries) {a : Act} (hbegin : a.isBegin = false)
    (hresume : a ≠ .resume) : (t.act a).InsertsOf entries :=
  h.of_subset (t.secure_act a) (subset_of_act_step hbegin hresume)

theorem mono (h : t.InsertsOf entries) {more : List Address} (hmore : entries ⊆ more) :
    t.InsertsOf more := by
  intro a uri ha
  obtain ⟨e, he, heq⟩ := h a uri ha
  exact ⟨e, hmore he, heq⟩

theorem act_begin (h : t.InsertsOf entries) (dismiss : Shuffle String) (addresses : List Address) :
    (t.act (.begin dismiss addresses)).InsertsOf (entries ++ addresses) := by
  cases hbusy : t.stream.isBusy with
  | true =>
    rw [Account.act, hbusy]
    exact h.mono (List.subset_append_left _ _)
  | false =>
    rw [act_begin_of_idle hbusy]
    intro a uri ha
    obtain hsent | hplan := List.mem_append.1 ha
    · obtain ⟨e, he, heq⟩ := h a uri (List.mem_append_left _ hsent)
      exact ⟨e, List.mem_append_left _ he, heq⟩
    · have hlisted := (insertions_sublist t.stream.secure _ addresses).subset
        (mem_insertions_of_mem_changesBy hplan)
      obtain ⟨e, he, heq⟩ := List.mem_map.1 hlisted
      exact ⟨e, List.mem_append_right _ he, heq.symm⟩

theorem act (h : t.InsertsOf entries) (a : Act) : (t.act a).InsertsOf (entries ++ a.listed) := by
  cases a with
  | begin dismiss addresses => exact h.act_begin dismiss addresses
  | _ => exact (act_induction rfl (fun h => h.act_step) h).mono (List.subset_append_left _ _)

theorem after (h : t.InsertsOf entries) (acts : List Act) :
    (t.after acts).InsertsOf (entries ++ acts.flatMap Act.listed) := by
  induction acts generalizing t entries with
  | nil => simpa using h
  | cons a rest ih => simpa using ih (h.act a)

end InsertsOf

theorem insertsOf_new (capacity : Nat) (secure : Bool) (acts : List Act) :
    ((new capacity secure).after acts).InsertsOf (acts.flatMap Act.listed) := by
  have hnew : (new capacity secure).InsertsOf [] := fun a uri ha => by cases ha
  exact hnew.after acts

/-! ## Kept or inserted -/

/-- An address in place was put there for one of the entries listed so far. -/
theorem exists_lastAbout?_of_mem_active (hsound : t.Sound) {entries : List Address}
    (hentries : t.InsertsOf entries) {a : String} (ha : a ∈ t.active) :
    ∃ e ∈ entries, e.addr = a ∧ lastAbout? a t.sent = some (insertionOf t.stream.secure e) := by
  have hreplay : a ∈ replay ∅ t.sent := by
    rw [hsound.replay_eq, List.mem_toFinset]
    exact ha
  obtain ⟨uri, hlast⟩ := exists_lastAbout?_of_mem_replay hreplay
  obtain ⟨e, he, heq⟩ := hentries a uri (List.mem_append_left _ (mem_of_lastAbout? hlast))
  exact ⟨e, he, (Change.insert.inj heq).1.symm, heq ▸ hlast⟩

/-- **What an update leaves behind for an address** is the insertion from before, if it was in place, and
that of its first entry that can be called, if it was not. -/
theorem lastAbout?_after_update (hsound : t.Sound) (hidle : t.stream.isBusy = false)
    (dismiss : Shuffle String) (addresses : List Address) {during : List Act}
    (hduring : ∀ a ∈ during, a.isBegin = false) (hkept : ∀ a ∈ during, a.isAbandon = false)
    (hopen : ((t.act (.begin dismiss addresses)).after during).stream.isOpen = true)
    (hdone : ((t.act (.begin dismiss addresses)).after during).stream.isBusy = false) {a : String}
    (ha : a ∈ ((t.act (.begin dismiss addresses)).after during).active) :
    let u := (t.act (.begin dismiss addresses)).after during
    (a ∈ t.active → lastAbout? a u.sent = lastAbout? a t.sent) ∧
      (a ∉ t.active → ∃ e, firstCallable? t.stream.secure addresses a = some e ∧
        lastAbout? a u.sent = some (insertionOf t.stream.secure e)) := by
  intro u
  obtain ⟨events, hsent, -, hall⟩ := exists_events hidle dismiss addresses hduring
  have hplan := hall hkept hopen hdone
  subst hplan
  have hlawful := lawful_changesBy dismiss addresses hsound.nodup
  have honce := nodup_changesBy dismiss addresses hsound.nodup
  have hactive : a ∈ replay t.active.toFinset (t.stream.changesBy dismiss addresses) := by
    have hafter : u.Sound := (hsound.act (.begin dismiss addresses)).after during
    rw [← hsound.replay_eq, ← replay_append, ← hsent, hafter.replay_eq, List.mem_toFinset]
    exact ha
  -- the addresses in the plan are those that are in place before the update or after it and not both
  have hchanged := hlawful.mem_symmDiff_iff honce a
  rw [Finset.mem_symmDiff, List.mem_toFinset] at hchanged
  rw [hsent, lastAbout?_append]
  constructor
  · intro hbefore
    rw [lastAbout?_eq_none fun h => ?_]
    · rfl
    · exact (hchanged.2 h).elim (fun h => h.2 hactive) fun h => h.2 hbefore
  · intro hnew
    obtain ⟨c, hc, rfl⟩ := List.mem_map.1 (hchanged.1 (Or.inr ⟨hactive, hnew⟩))
    have hinserted : c ∈ insertions t.stream.secure
        (t.active.filter fun a => a ∈ addresses.map Address.addr) addresses := by
      cases c with
      | insert b uri => exact mem_insertions_of_mem_changesBy hc
      | remove b => exact absurd (mem_active_of_remove_mem_changesBy hc) hnew
    obtain ⟨e, hfirst, heq⟩ := firstCallable?_of_mem_insertions hinserted
    refine ⟨e, hfirst, ?_⟩
    rw [lastAbout?_of_nodup honce hc, ← heq]
    rfl

end Account

end ChangeStream

end Steering
