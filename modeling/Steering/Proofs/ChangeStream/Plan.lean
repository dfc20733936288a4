import Mathlib
import Steering.ChangeStream
import Steering.Proofs.Ring.Refinement

/-!
# `Steering.Proofs.ChangeStream.Plan` — the changes that lead from one set to another

A receiver knows nothing but the changes that it was sent. What they leave in place it finds out by going
through them (`replay`), and a change is only worth sending if it is news: an insertion of what is not
there, a removal of what is (`Lawful`). Both are said here of lists of changes and of *sets* of addresses.
A stream's own bookkeeping is a list with an order of its own, and no answer depends on that.

A plan is what an update intends to send: removals of what is not listed any more, in whatever order the
set of active addresses is gone through, and then insertions in the order of the published list. It is
settled when the update begins, while the bookkeeping changes with every single change that is sent. That
the two come to the same is `lawful_changesBy`: as seen by the receiver, every change of the plan is news
when its turn comes.
-/

namespace Steering

/-- The address that a change is about. -/
def Change.address : Change → String
  | .insert a _ => a
  | .remove a => a

/-- Whether a change changes anything where these addresses are in place. -/
def Change.IsNews (S : Finset String) : Change → Prop
  | .insert a _ => a ∉ S
  | .remove a => a ∈ S

namespace ChangeStream

/-! ## Going through changes -/

/-- The addresses that changes leave in place. -/
def replay (S : Finset String) : List Change → Finset String
  | [] => S
  | .insert a _ :: rest => replay (insert a S) rest
  | .remove a :: rest => replay (S.erase a) rest

/-- Every change is news: nothing is inserted that is there, and nothing removed that is not. -/
def Lawful (S : Finset String) : List Change → Prop
  | [] => True
  | .insert a _ :: rest => a ∉ S ∧ Lawful (insert a S) rest
  | .remove a :: rest => a ∈ S ∧ Lawful (S.erase a) rest

variable {S : Finset String}

theorem replay_append (S : Finset String) (cs more : List Change) :
    replay S (cs ++ more) = replay (replay S cs) more := by
  induction cs generalizing S with
  | nil => rfl
  | cons c rest ih =>
    cases c with
    | insert a uri => exact ih _
    | remove a => exact ih _

theorem lawful_append {cs more : List Change} :
    Lawful S (cs ++ more) ↔ Lawful S cs ∧ Lawful (replay S cs) more := by
  induction cs generalizing S with
  | nil => simp [replay, Lawful]
  | cons c rest ih =>
    cases c with
    | insert a uri => exact (and_congr_right fun _ => ih).trans and_assoc.symm
    | remove a => exact (and_congr_right fun _ => ih).trans and_assoc.symm

/-- A change of a lawful list is news to whoever has gone through those before it. -/
theorem Lawful.news {cs : List Change} (h : Lawful S cs) {before rest : List Change} {c : Change}
    (hc : cs = before ++ c :: rest) : c.IsNews (replay S before) := by
  rw [hc, lawful_append] at h
  cases c with
  | insert a uri => exact h.2.1
  | remove a => exact h.2.1

/-- Bookkeeping by single changes keeps a list without repetitions that is the set. -/
theorem Lawful.apply {c : Change} {active : List String} (h : Lawful active.toFinset [c])
    (hactive : active.Nodup) :
    (c.apply active).Nodup ∧ (c.apply active).toFinset = replay active.toFinset [c] := by
  cases c with
  | insert a uri =>
    have hnew : a ∉ active := fun ha => h.1 (List.mem_toFinset.2 ha)
    refine ⟨hactive.append (List.nodup_singleton a) ?_, ?_⟩
    · simpa using hnew
    · rw [Change.apply, List.toFinset_append, Finset.union_comm]
      rfl
  | remove a =>
    refine ⟨hactive.erase a, ?_⟩
    ext b
    rw [Change.apply, List.mem_toFinset, hactive.mem_erase_iff, replay, replay, Finset.mem_erase,
      List.mem_toFinset]

/-- **As many changes as addresses change.** If no address occurs twice in a lawful list, the addresses
in it are just those that are in place before or after it and not both. -/
theorem Lawful.mem_symmDiff_iff {cs : List Change} (h : Lawful S cs)
    (honce : (cs.map Change.address).Nodup) (x : String) :
    x ∈ symmDiff S (replay S cs) ↔ x ∈ cs.map Change.address := by
  induction cs generalizing S with
  | nil => simp [replay]
  | cons c rest ih =>
    obtain ⟨hfirst, hrest⟩ := List.nodup_cons.1 honce
    cases c with
    | insert a uri =>
      have hx := ih h.2 hrest
      rw [Finset.mem_symmDiff] at hx ⊢
      rw [List.map_cons, List.mem_cons, ← hx, replay]
      have hnew := h.1
      by_cases hxa : x = a
      · -- nothing after the change is about its address, so that stays as the change leaves it
        subst hxa
        have hlater := hx.not.2 hfirst
        simp only [Finset.mem_insert_self, true_and, not_true, and_false, or_false,
          Classical.not_not] at hlater
        simp [hnew, hlater, Change.address]
      · simp [Finset.mem_insert, hxa, Change.address]
    | remove a =>
      have hx := ih h.2 hrest
      rw [Finset.mem_symmDiff] at hx ⊢
      rw [List.map_cons, List.mem_cons, ← hx, replay]
      have hold := h.1
      by_cases hxa : x = a
      · subst hxa
        have hlater := hx.not.2 hfirst
        simp only [Finset.mem_erase, ne_eq, not_true, false_and, not_false_eq_true, and_true,
          false_or] at hlater
        simp [hold, hlater, Change.address]
      · simp [Finset.mem_erase, hxa, Change.address]

theorem lawful_removals {gone : List String} (hnodup : gone.Nodup) (hgone : ∀ a ∈ gone, a ∈ S) :
    Lawful S (gone.map .remove) := by
  induction gone generalizing S with
  | nil => trivial
  | cons a rest ih =>
    obtain ⟨hfirst, hrest⟩ := List.nodup_cons.1 hnodup
    refine ⟨hgone a List.mem_cons_self, ih hrest fun b hb => ?_⟩
    refine Finset.mem_erase.2 ⟨fun hba => hfirst (hba ▸ hb), hgone b (List.mem_cons_of_mem a hb)⟩

theorem mem_replay_removals {gone : List String} {x : String} :
    x ∈ replay S (gone.map .remove) ↔ x ∈ S ∧ x ∉ gone := by
  induction gone generalizing S with
  | nil => simp [replay]
  | cons a rest ih =>
    rw [List.map_cons, replay, ih, Finset.mem_erase, List.mem_cons]
    tauto

/-! ## Insertions -/

/-- The URI under which an address is called. -/
def uriOf (secure : Bool) (e : Address) : String :=
  Endpoint.channelUri e.addr e.service.endpoint secure

/-- Whether an address can be called at all. -/
def Callable (secure : Bool) (e : Address) : Bool := (Uri.parse (uriOf secure e)).isOk

/-- The insertion of an address. -/
def insertionOf (secure : Bool) (e : Address) : Change := .insert e.addr (uriOf secure e)

variable {secure : Bool} {present : List String} {as : List Address}

theorem insertions_cons (a : Address) (rest : List Address) :
    insertions secure present (a :: rest)
      = if a.addr ∈ present ∨ Callable secure a = false then insertions secure present rest
        else insertionOf secure a :: insertions secure (a.addr :: present) rest := by
  rw [insertions]
  simp only [Callable, uriOf, insertionOf, Bool.or_eq_true, decide_eq_true_iff, Bool.not_eq_true']
  congr

theorem insertions_sublist (secure : Bool) (present : List String) (as : List Address) :
    (insertions secure present as).Sublist (as.map (insertionOf secure)) := by
  induction as generalizing present with
  | nil => exact List.Sublist.refl _
  | cons a rest ih =>
    rw [insertions_cons]
    split
    · exact (ih present).cons _
    · exact (ih _).cons_cons _

theorem lawful_insertions (hpresent : ∀ a, a ∈ present ↔ a ∈ S) :
    Lawful S (insertions secure present as) := by
  induction as generalizing present S with
  | nil => trivial
  | cons a rest ih =>
    rw [insertions_cons]
    split
    · exact ih hpresent
    · rename_i hnew
      refine ⟨fun ha => hnew (Or.inl ((hpresent _).2 ha)), ih fun b => ?_⟩
      rw [List.mem_cons, Finset.mem_insert, hpresent]

/-- Exactly those addresses are inserted that are not there and can be called. -/
theorem mem_insertions {x : String} :
    x ∈ (insertions secure present as).map Change.address ↔
      x ∉ present ∧ ∃ e ∈ as, e.addr = x ∧ Callable secure e = true := by
  induction as generalizing present with
  | nil => simp [insertions]
  | cons a rest ih =>
    rw [insertions_cons, List.exists_mem_cons_iff]
    by_cases hskip : a.addr ∈ present ∨ Callable secure a = false
    · rw [if_pos hskip, ih]
      refine and_congr_right fun hx => (or_iff_right ?_).symm
      rintro ⟨rfl, hcall⟩
      exact hskip.elim hx (by simp [hcall])
    · rw [if_neg hskip, List.map_cons, List.mem_cons, ih, List.mem_cons]
      rw [not_or, Bool.not_eq_false] at hskip
      obtain ⟨hnew, hcall⟩ := hskip
      simp only [insertionOf, Change.address, hcall, and_true]
      by_cases hx : x = a.addr
      · simp [hx, hnew]
      · simp [hx, Ne.symm hx]

theorem nodup_insertions (secure : Bool) (present : List String) (as : List Address) :
    ((insertions secure present as).map Change.address).Nodup := by
  induction as generalizing present with
  | nil => exact List.nodup_nil
  | cons a rest ih =>
    rw [insertions_cons]
    split
    · exact ih present
    · refine List.nodup_cons.2 ⟨fun ha => ?_, ih _⟩
      exact (mem_insertions.1 ha).1 List.mem_cons_self

/-! ## Plans -/

/-- The changes that lead from the active addresses to a list, with the removals in some order. -/
def changesBy (s : ChangeStream) (dismiss : Shuffle String) (addresses : List Address) :
    List Change :=
  (dismiss.order (s.active.filter fun a => a ∉ addresses.map Address.addr)).map .remove
    ++ insertions s.secure (s.active.filter fun a => a ∈ addresses.map Address.addr) addresses

/-- A stream's own plan removes addresses in the order in which they came. -/
theorem changesTo_eq (s : ChangeStream) (addresses : List Address) :
    s.changesTo addresses = s.changesBy (.keep _) addresses := rfl

section

variable {s : ChangeStream} (dismiss : Shuffle String) (addresses : List Address)

theorem mem_dismissed {x : String} :
    x ∈ dismiss.order (s.active.filter fun a => a ∉ addresses.map Address.addr) ↔
      x ∈ s.active ∧ x ∉ addresses.map Address.addr := by
  rw [(dismiss.perm _).mem_iff, List.mem_filter, decide_eq_true_iff]

/-- What is there once the removals of a plan are through. -/
theorem mem_kept {x : String} :
    x ∈ s.active.filter (fun a => a ∈ addresses.map Address.addr) ↔
      x ∈ replay s.active.toFinset
        ((dismiss.order (s.active.filter fun a => a ∉ addresses.map Address.addr)).map .remove) := by
  rw [mem_replay_removals, mem_dismissed, List.mem_filter, decide_eq_true_iff, List.mem_toFinset]
  tauto

/-- **Every change of a plan is news when its turn comes.** -/
theorem lawful_changesBy (h : s.active.Nodup) :
    Lawful s.active.toFinset (s.changesBy dismiss addresses) := by
  rw [changesBy, lawful_append]
  refine ⟨lawful_removals ?_ fun a ha => ?_, ?_⟩
  · exact (dismiss.perm _).nodup_iff.2 (h.filter _)
  · exact List.mem_toFinset.2 ((mem_dismissed dismiss addresses).1 ha).1
  · exact lawful_insertions fun a => mem_kept dismiss addresses

/-- No address occurs twice in a plan. -/
theorem nodup_changesBy (h : s.active.Nodup) :
    ((s.changesBy dismiss addresses).map Change.address).Nodup := by
  have hremovals : ∀ gone : List String, (gone.map Change.remove).map Change.address = gone := by
    intro gone
    rw [List.map_map]
    exact List.map_id _
  rw [changesBy, List.map_append, hremovals]
  refine List.Nodup.append ?_ (nodup_insertions _ _ _) fun x hgone hnew => ?_
  · exact (dismiss.perm _).nodup_iff.2 (h.filter _)
  · obtain ⟨-, e, he, rfl, -⟩ := mem_insertions.1 hnew
    exact ((mem_dismissed dismiss addresses).1 hgone).2 (List.mem_map_of_mem he)

end

end ChangeStream

end Steering
