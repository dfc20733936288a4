import Mathlib
import Steering.Proofs.Resolver.End

/-!
# `Steering.Proofs.Registry.Readership` — many watchers on one registry

Watchers meet in the registry that they follow: an error is queued for a name and handed to whoever looks
next, and it is gone for all the others. `Readership` is a registry with any number of watchers, and an
`Act` is anything that one of them or a writer does.

A look at a call comes to one of three things, whatever the stage of the watcher and whichever signal is
favoured: the call is refused, or it is answered with what the name has to offer (`Watcher.fetch`), or it
parks. Two results are read off that. Every error that is queued for a name is handed out once and in its
turn, or still in the queue (`errors_append_queued`): an equation in which each act enters what it has queued
and what it has handed out. And a stopped watcher refuses, except at one place (`refused_iff_not_slips`): a
call that was parked when its watcher was stopped, and that nobody has looked at since, may find that its
name has been written as well, and if the look favours the change, the call is answered as if nothing had
been stopped.
-/

namespace Steering

namespace Registry

variable {r r' : Registry} {name : String} {e : RegistryError}

/-- Taking an error of one name leaves the errors of the others. -/
theorem errors_of_takeError?_ne (h : r.takeError? name = some (e, r')) {other : String}
    (hne : name ≠ other) : r'.errors other = r.errors other := by
  rw [takeError?] at h
  obtain ⟨⟨e', slot⟩, -, heq⟩ := Option.map_eq_some_iff.1 h
  obtain ⟨-, rfl⟩ := Prod.mk.inj heq
  rw [errors, errors, slot_withSlot, if_neg hne]

theorem ne_of_takeError? (h : r.takeError? name = some (e, r')) : r' ≠ r := by
  rintro rfl
  exact absurd (errors_of_takeError? h).1 (by simp)

end Registry

/-- The error that a request was answered with. -/
def Reply.error? : Reply → Option RegistryError
  | .error e => some e
  | .ok _ => none

/-! ## One look -/

namespace Watcher

variable {w : Watcher} {favoured : Signal} {r : Registry}

/-- Whether a look at a call of a watcher is a refusal. The watcher must be stopped, and the one call that
is not refused then is a parked one that reacts to a change. -/
def refuses (w : Watcher) (favoured : Signal) (r : Registry) : Bool :=
  w.stopped && !(decide (w.stage = .parked) && decide (favoured = .change) && w.isBehind r)

/-- The error that a look at a call hands out. A refusal does not hand out any. -/
def error? (w : Watcher) (favoured : Signal) (r : Registry) : Option RegistryError :=
  if w.refuses favoured r then none else (w.poll favoured r).1.bind Reply.error?

theorem refuses_eq_false_iff (hstop : w.stopped = true) : w.refuses favoured r = false ↔
    w.stage = .parked ∧ favoured = .change ∧ w.seen < r.version w.name := by
  simp [refuses, hstop, isBehind, and_assoc]

theorem poll_of_refuses (h : w.refuses favoured r = true) :
    w.poll favoured r = (some (.error .canceled), w.abandon, r) := by
  obtain ⟨hstop, hnot⟩ := Bool.and_eq_true_iff.1 h
  rw [poll, abandon]
  by_cases hp : w.stage = .parked
  · have hcanceled : favoured = .stop ∨ w.isBehind r = false := by
      cases favoured <;> simp_all
    rw [if_pos hp, if_pos hp, wait, if_pos (by simpa [hstop] using hcanceled)]
  · rw [if_neg hp, if_neg hp, start, if_pos hstop]

/-- What a watcher is after a look does not depend on what the look has found. -/
def SameReader (w w' : Watcher) : Prop := w'.name = w.name ∧ w'.stopped = w.stopped

theorem stage_caughtUp (w : Watcher) (r : Registry) : (w.caughtUp r).stage ≠ .parked := by
  simp [caughtUp]

theorem wait_of_not_canceled (h : (w.stopped && (favoured = .stop || !w.isBehind r)) = false) :
    (w.stopped = false ∧ w.wait favoured r = (none, { w with stage := .parked }, r)) ∨
      w.wait favoured r = (some (w.fetch r).1, w.caughtUp r, (w.fetch r).2) := by
  rw [wait, if_neg (by simp [h])]
  by_cases hb : w.isBehind r = true
  · rw [if_pos hb]
    exact Or.inr rfl
  · rw [if_neg hb]
    rw [Bool.not_eq_true] at hb
    exact Or.inl ⟨by simpa [hb] using h, rfl⟩

/-- **A look that is not refused** parks the call, or answers it with what the name has to offer. -/
theorem poll_of_not_refuses (h : w.refuses favoured r = false) :
    (w.stopped = false ∧ w.poll favoured r = (none, { w with stage := .parked }, r)) ∨
      ∃ w', w.poll favoured r = (some (w.fetch r).1, w', (w.fetch r).2) ∧ SameReader w w' ∧
        w'.stage ≠ .parked := by
  rw [poll]
  by_cases hp : w.stage = .parked
  · rw [if_pos hp]
    have hgoes : (w.stopped && (favoured = .stop || !w.isBehind r)) = false := by
      cases favoured <;> simp_all [refuses]
    refine (wait_of_not_canceled hgoes).imp_right fun hwait => ?_
    exact ⟨w.caughtUp r, hwait, ⟨rfl, rfl⟩, w.stage_caughtUp r⟩
  · rw [if_neg hp]
    have hstop : w.stopped = false := by simpa [refuses, hp] using h
    rw [start, if_neg (by simp [hstop])]
    cases htake : r.takeError? w.name with
    | some x =>
      refine Or.inr ⟨w, ?_, ⟨rfl, rfl⟩, hp⟩
      rw [fetch, htake]
    | none =>
      dsimp only
      by_cases hf : w.stage = .fresh
      · refine Or.inr ⟨w.caughtUp r, ?_, ⟨rfl, rfl⟩, w.stage_caughtUp r⟩
        rw [if_pos hf, fetch, htake]
      · rw [if_neg hf]
        refine (wait_of_not_canceled (by simp [hstop])).imp_right fun hwait => ?_
        exact ⟨w.caughtUp r, hwait, ⟨rfl, rfl⟩, w.stage_caughtUp r⟩

/-- What a name has to offer never looks like a refusal: a refusal leaves the registry as it is, and the
error that it might be taken for is taken out. -/
theorem fetch_ne_refusal (w : Watcher) (r : Registry) : w.fetch r ≠ (.error .canceled, r) := by
  rw [fetch]
  cases htake : r.takeError? w.name with
  | none => simp
  | some x =>
    obtain ⟨e, r'⟩ := x
    simpa using fun _ => Registry.ne_of_takeError? htake

/-- **The account of one look**: an error that is handed out has been the first in the queue of its name. -/
theorem errors_poll (w : Watcher) (favoured : Signal) (r : Registry) (name : String) :
    r.errors name = (if w.name = name then w.error? favoured r else none).toList
      ++ (w.poll favoured r).2.2.errors name := by
  cases hrefuses : w.refuses favoured r with
  | true => simp [error?, hrefuses, poll_of_refuses hrefuses]
  | false =>
    have herror : w.error? favoured r = (w.poll favoured r).1.bind Reply.error? := by
      simp [error?, hrefuses]
    rw [herror]
    rcases poll_of_not_refuses hrefuses with ⟨-, hparks⟩ | ⟨w', hanswer, -⟩
    · simp [hparks]
    · rw [hanswer, fetch]
      cases htake : r.takeError? w.name with
      | none => simp [Reply.error?]
      | some x =>
        obtain ⟨e, r'⟩ := x
        by_cases hname : w.name = name
        · subst hname
          simpa [Reply.error?] using (Registry.errors_of_takeError? htake).1
        · simpa [hname] using (Registry.errors_of_takeError?_ne htake hname).symm

end Watcher

/-! ## Acts -/

/-- A registry and the watchers on it. -/
structure Readership where
  registry : Registry
  watchers : List Watcher := []

namespace Readership

/-- What a writer or a watcher does. Watchers are known by the order in which they came. -/
inductive Act where
  | write (w : Write)
  /-- A watcher comes. -/
  | follow (name : String)
  /-- One look at a watcher's call, which starts here if none is parked. -/
  | look (i : Nat) (favoured : Signal)
  | abandon (i : Nat)
  | stop (i : Nat)

namespace Act

/-- Whether an act puts an end to the call that a watcher has parked, if it is stopped. -/
def touches (i : Nat) : Act → Bool
  | look j _ | abandon j => j = i
  | _ => false

/-- The error that an act queues for a name. -/
def queued? (name : String) : Act → Option RegistryError
  | write w => w.error? name
  | _ => none

end Act

/-- The answer to an act, if it has one, and what it leaves. -/
def act (c : Readership) : Act → Option Reply × Readership
  | .write w => (none, { c with registry := w.apply c.registry })
  | .follow name => (none, { c with watchers := c.watchers ++ [.follow c.registry name] })
  | .look i favoured =>
    match c.watchers[i]? with
    | none => (none, c)
    | some w =>
      let (reply?, w, registry) := w.poll favoured c.registry
      (reply?, ⟨registry, c.watchers.set i w⟩)
  | .abandon i => (none, { c with watchers := c.watchers.modify i Watcher.abandon })
  | .stop i => (none, { c with watchers := c.watchers.modify i Watcher.stop })

def after (c : Readership) (acts : List Act) : Readership := acts.foldl (fun c a => (c.act a).2) c

/-- The error of a name that an act hands out. -/
def returned? (c : Readership) (name : String) : Act → Option RegistryError
  | .look i favoured =>
    match c.watchers[i]? with
    | some w => if w.name = name then w.error? favoured c.registry else none
    | none => none
  | _ => none

/-- The errors of a name that some acts hand out, one for each look that is answered with an error, in
the order of these looks. -/
def returned (c : Readership) (name : String) : List Act → List RegistryError
  | [] => []
  | a :: rest => (c.returned? name a).toList ++ (c.act a).2.returned name rest

variable {c : Readership} {w : Watcher} {i : Nat}

theorem act_look (h : c.watchers[i]? = some w) (favoured : Signal) :
    c.act (.look i favoured) = ((w.poll favoured c.registry).1,
      ⟨(w.poll favoured c.registry).2.2, c.watchers.set i (w.poll favoured c.registry).2.1⟩) := by
  rw [act, h]

/-! ## Errors -/

/-- **The account of one act**: what was queued, and what the act has queued, is what it has handed out
and what is queued now. -/
theorem errors_append_queued? (c : Readership) (name : String) (a : Act) :
    c.registry.errors name ++ (a.queued? name).toList
      = (c.returned? name a).toList ++ (c.act a).2.registry.errors name := by
  cases a with
  | write w => exact (Write.errors_apply w c.registry name).symm
  | look i favoured =>
    cases hw : c.watchers[i]? with
    | none => simp [returned?, Act.queued?, act, hw]
    | some w => simpa [returned?, Act.queued?, act_look, hw] using w.errors_poll favoured c.registry name
  | _ => simp [act, returned?, Act.queued?]

/-- **Every error is handed out once and in its turn, or still in the queue.** -/
theorem errors_append_queued (c : Readership) (name : String) (acts : List Act) :
    c.registry.errors name ++ acts.filterMap (Act.queued? name)
      = c.returned name acts ++ (c.after acts).registry.errors name := by
  induction acts generalizing c with
  | nil => simp [returned, after]
  | cons a rest ih =>
    calc c.registry.errors name ++ (a :: rest).filterMap (Act.queued? name)
        = (c.registry.errors name ++ (a.queued? name).toList)
            ++ rest.filterMap (Act.queued? name) := by
          cases h : a.queued? name <;> simp [h]
      _ = (c.returned? name a).toList
            ++ ((c.act a).2.registry.errors name ++ rest.filterMap (Act.queued? name)) := by
          rw [errors_append_queued?, List.append_assoc]
      _ = c.returned name (a :: rest) ++ (c.after (a :: rest)).registry.errors name := by
          rw [ih, ← List.append_assoc]
          rfl

/-! ## Stopped watchers -/

theorem getElem?_act_of_not_touches (h : c.watchers[i]? = some w) (hstop : w.stopped = true) {a : Act}
    (ha : a.touches i = false) : (c.act a).2.watchers[i]? = some w := by
  have hlt : i < c.watchers.length := (List.getElem?_eq_some_iff.1 h).1
  cases a with
  | write w' => exact h
  | follow name =>
    rw [act, List.getElem?_append_left hlt]
    exact h
  | look j favoured =>
    have hne : j ≠ i := by simpa [Act.touches] using ha
    rw [act]
    cases c.watchers[j]? with
    | none => exact h
    | some w' => exact (List.getElem?_set_ne hne).trans h
  | abandon j =>
    have hne : j ≠ i := by simpa [Act.touches] using ha
    simp [act, hne, h]
  | stop j =>
    by_cases hj : j = i
    · subst hj
      cases w
      cases hstop
      simp [act, h, Watcher.stop]
    · simp [act, hj, h]

/-- A stopped watcher whose call is looked at or given up has no call any more. -/
theorem exists_getElem?_act_of_touches (h : c.watchers[i]? = some w) (hstop : w.stopped = true) {a : Act}
    (ha : a.touches i = true) :
    ∃ w', (c.act a).2.watchers[i]? = some w' ∧ w.SameReader w' ∧ w'.stage ≠ .parked := by
  have hlt : i < c.watchers.length := (List.getElem?_eq_some_iff.1 h).1
  have habandon : w.SameReader w.abandon ∧ w.abandon.stage ≠ .parked := by
    rw [Watcher.abandon]
    split
    · exact ⟨⟨rfl, rfl⟩, by simp⟩
    · exact ⟨⟨rfl, rfl⟩, ‹_›⟩
  cases a with
  | look j favoured =>
    obtain rfl : j = i := by simpa [Act.touches] using ha
    rw [act_look h]
    refine ⟨_, List.getElem?_set_self hlt, ?_⟩
    cases hrefuses : w.refuses favoured c.registry with
    | true =>
      rw [Watcher.poll_of_refuses hrefuses]
      exact habandon
    | false =>
      rcases Watcher.poll_of_not_refuses hrefuses with ⟨hgoes, -⟩ | ⟨w', hanswer, hsame⟩
      · simp [hstop] at hgoes
      · rw [hanswer]
        exact hsame
  | abandon j =>
    obtain rfl : j = i := by simpa [Act.touches] using ha
    exact ⟨w.abandon, by simp [act, h], habandon⟩
  | _ => cases ha

/-- A stopped watcher after some acts: as it was, as long as nobody touches its call, and then without
a call for good. -/
theorem exists_getElem?_after (h : c.watchers[i]? = some w) (hstop : w.stopped = true)
    (acts : List Act) : ∃ w', (c.after acts).watchers[i]? = some w' ∧ w.SameReader w' ∧
      (acts.any (Act.touches i) = false → w' = w) ∧
      (w.stage ≠ .parked ∨ acts.any (Act.touches i) = true → w'.stage ≠ .parked) := by
  induction acts generalizing c w with
  | nil => exact ⟨w, h, ⟨rfl, rfl⟩, fun _ => rfl, fun hw => hw.resolve_right (by simp)⟩
  | cons a rest ih =>
    cases ha : a.touches i with
    | false =>
      rw [List.any_cons, ha, Bool.false_or]
      exact ih (getElem?_act_of_not_touches h hstop ha) hstop
    | true =>
      obtain ⟨w', hw', ⟨hname, hstopped⟩, hstage⟩ := exists_getElem?_act_of_touches h hstop ha
      obtain ⟨w'', hw'', ⟨hname', hstopped'⟩, -, hfree⟩ := ih hw' (hstopped.trans hstop)
      refine ⟨w'', hw'', ⟨hname'.trans hname, hstopped'.trans hstopped⟩, ?_, fun _ => hfree (Or.inl hstage)⟩
      simp [ha]

/-- The way in which a look at a stopped watcher slips past the stop: its call was parked when it was
stopped, nobody has touched the call since, its name has been written after what the watcher has seen, and
the look favours the change. -/
def Slips (w : Watcher) (i : Nat) (later : List Act) (favoured : Signal) (now : Registry) : Prop :=
  w.stage = .parked ∧ later.any (Act.touches i) = false ∧ favoured = .change ∧
    w.seen < now.version w.name

instance (w : Watcher) (i : Nat) (later : List Act) (favoured : Signal) (now : Registry) :
    Decidable (Slips w i later favoured now) := inferInstanceAs (Decidable (_ ∧ _ ∧ _ ∧ _))

/-- **A stopped watcher refuses, unless a parked call slips past the stop.** Stop a watcher at any time, in
a registry with any watchers, and let anything follow: writes, errors, other watchers, calls of this one.
Every look at a call of it is an answer, and the answer is a cancellation that leaves the registry as it
is, with every error still in its queue, exactly if the call does not slip past the stop. If it does, it is
answered with what the name has to offer, the oldest error or else the list. -/
theorem refused_iff_not_slips (c : Readership) (i : Nat) (w : Watcher) (h : c.watchers[i]? = some w)
    (later : List Act) (favoured : Signal) :
    let now := (c.act (.stop i)).2.after later
    let call := now.act (.look i favoured)
    (call.1 = some (.error .canceled) ∧ call.2.registry = now.registry ↔
        ¬ Slips w i later favoured now.registry) ∧
      (Slips w i later favoured now.registry →
        call.1 = some (w.fetch now.registry).1 ∧ call.2.registry = (w.fetch now.registry).2) := by
  intro now call
  have hstopped : (c.act (.stop i)).2.watchers[i]? = some w.stop := by simp [act, h]
  obtain ⟨w', hw', ⟨hname, hstop⟩, hkept, hfree⟩ := exists_getElem?_after hstopped rfl later
  have hcall : call.1 = (w'.poll favoured now.registry).1 ∧
      call.2.registry = (w'.poll favoured now.registry).2.2 := by
    have hlook := act_look (c := now) hw' favoured
    exact ⟨congrArg Prod.fst hlook, congrArg (fun x => x.2.registry) hlook⟩
  -- the watcher refuses now exactly if its call does not slip past the stop
  have hslips : w'.refuses favoured now.registry = false ↔ Slips w i later favoured now.registry := by
    rw [Watcher.refuses_eq_false_iff hstop, Slips]
    cases htouched : later.any (Act.touches i) with
    | true =>
      have hidle := hfree (Or.inr htouched)
      simp [hidle]
    | false =>
      rw [hkept htouched]
      simp [Watcher.stop]
  rw [hcall.1, hcall.2, ← hslips]
  cases hrefuses : w'.refuses favoured now.registry with
  | true => simp [Watcher.poll_of_refuses hrefuses]
  | false =>
    rcases Watcher.poll_of_not_refuses hrefuses with ⟨hgoes, -⟩ | ⟨w'', hanswer, -⟩
    · have hboth : true = false := hstop.symm.trans hgoes
      cases hboth
    · have hfetch : w'.fetch now.registry = w.fetch now.registry := by
        rw [Watcher.fetch, Watcher.fetch, show w'.name = w.name from hname]
      rw [hanswer, hfetch]
      refine ⟨⟨?_, fun hnot => absurd rfl hnot⟩, fun _ => ⟨rfl, rfl⟩⟩
      rintro ⟨hreply, hregistry⟩
      exact absurd (Prod.ext (Option.some.inj hreply) hregistry) (w.fetch_ne_refusal now.registry)

/-- A watcher has been handed the first list and waits. -/
def waiting : Readership :=
  after ⟨Registry.ofServices [Resolver.orderAt "1" "10.0.0.1"], []⟩
    [.follow "order", .look 0 .stop, .look 0 .stop]

theorem refused_iff_not_slips_waiting :
    let fails : List Act := [.write (.inject "order" (.backend "leader changed"))]
    let now := (waiting.act (.stop 0)).2.after fails
    waiting.watchers[0]? = some ⟨"order", 1, .parked, false⟩ ∧
      (now.act (.look 0 .stop)).1 = some (.error .canceled) ∧
      (now.act (.look 0 .stop)).2.registry = now.registry ∧
      (now.act (.look 0 .change)).1 = some (.error (.backend "leader changed")) := by
  intro fails now
  have hw : waiting.watchers[0]? = some ⟨"order", 1, .parked, false⟩ := rfl
  obtain ⟨hreply, hregistry⟩ :=
    (refused_iff_not_slips waiting 0 _ hw fails .stop).1.2 (by simp [Slips])
  have hslips : Slips ⟨"order", 1, .parked, false⟩ 0 fails .change now.registry := by decide
  exact ⟨hw, hreply, hregistry, ((refused_iff_not_slips waiting 0 _ hw fails .change).2 hslips).1⟩

/-- A stopped watcher takes an error out of the queue and hands it out. -/
theorem taken_after_the_stop :
    let stopped := (waiting.act (.stop 0)).2
    let now := stopped.after [.write (.inject "order" (.backend "leader changed"))]
    stopped.watchers[0]? = some ⟨"order", 1, .parked, true⟩ ∧
      now.registry.errors "order" = [.backend "leader changed"] ∧
      (now.act (.look 0 .change)).1 = some (.error (.backend "leader changed")) ∧
      (now.act (.look 0 .change)).2.registry.errors "order" = [] :=
  ⟨rfl, rfl, rfl, rfl⟩

end Readership

end Steering
