import Steering.Proofs.Resolver.Look
import Steering.Resolver

/-!
# `Steering.Proofs.Resolver.Handover` — which lists reach the loop

A watch loop is told of a change by a version number and fetches the list that goes with it. Is the
list that it fetched last the one that the registry holds, whenever it rests inside a call? Not
always. A parked call that wakes marks the newest version as seen *before* it looks at the errors, and
when it finds one, it answers with the error. A change that came together with the error is then
behind the mark and nobody has it; the next call finds nothing new and parks. The loop has the new list
only after the next write, which may never come.

This file says exactly when that is so. `Watched` follows a loop through any interleaving of its moves
with writes, the clock, the rest of the program and its end, and keeps books of what is written to the
name: what is still news to the loop, and what it has missed, batch by batch, because the wake-up that
the batch gave it was spent on an error. Handing over a list closes both. What is missed leaves the loop
*owed* a list if it changes the one that it has.

The invariant is that the books are in order (`Square`): the list that the registry holds is the one
that was handed over with everything written since, a marked version leaves no news, and an error was
injected in every batch that was missed. At rest inside a call there is no news, so the list is the
current one exactly when nothing that was missed changes it (`Square.current_iff`).
-/

namespace Steering

/-! ## What a step does to the feed -/

/-- The answer that an event is about. -/
def Event.reply? : Event → Option Reply
  | .heard reply => some reply
  | .published services _ => some (.ok services)
  | _ => none

namespace Resolver

section

variable {σ : Type}

/-- Two states of a loop that differ in what it publishes and when, but not in what it follows. -/
def SameFeed (r r' : Resolver σ) : Prop :=
  r'.service = r.service ∧ r'.feed = r.feed ∧ r'.canceled = r.canceled

theorem reply?_hear (r : Resolver σ) (reply : Reply) : (r.hear reply).2.reply? = some reply := by
  match reply with
  | .ok services =>
    rw [hear, publish]
    split <;> rfl
  | .error .canceled => rfl
  | .error (.backend detail) => rfl

/-- The table after a look: only a list is saved. -/
def saved (r : Resolver σ) : Option Reply → NodeSet
  | some (.ok services) =>
    (r.nodeSet.save (Publication.nodes (Publication.ofServices r.scheme r.subset? services))).1
  | _ => r.nodeSet

theorem exists_deliver_eq (r : Resolver σ) (addresses : List Address) (i : Nat) :
    ∃ sinks phase, r.deliver addresses i = { r with sinks, phase } := by
  rw [deliver]
  split <;> exact ⟨_, _, rfl⟩

theorem exists_hear_eq (r : Resolver σ) (reply : Reply) :
    ∃ sinks phase, (r.hear reply).1 = { r with nodeSet := r.saved (some reply), sinks, phase } := by
  match reply with
  | .ok services =>
    rw [hear, publish, saved]
    split
    · rename_i hnone
      rw [List.isEmpty_iff] at hnone
      rw [hnone]
      exact ⟨_, _, rfl⟩
    · exact exists_deliver_eq _ _ 0
  | .error .canceled => exact ⟨_, _, rfl⟩
  | .error (.backend detail) => exact ⟨_, _, rfl⟩

variable [Feed σ]

/-- **What a step can change.** Only a look at the feed reaches the feed and the table. -/
theorem exists_step_eq (r : Resolver σ) :
    (r.phase = .listing ∧ r.canceled = false ∧ ∃ sinks phase,
        r.step.1 = { r with feed := (Feed.ask r.now r.feed).2,
                            nodeSet := r.saved (Feed.ask r.now r.feed).1, sinks, phase } ∧
        r.step.2.bind Event.reply? = (Feed.ask r.now r.feed).1) ∨
      ∃ sinks phase, r.step.1 = { r with sinks, phase } ∧ r.step.2.bind Event.reply? = none := by
  rw [step]
  cases r.phase with
  | ended => exact Or.inr ⟨r.sinks, r.phase, rfl, rfl⟩
  | sleeping wake =>
    dsimp only
    split
    · exact Or.inr ⟨_, _, rfl, rfl⟩
    · split
      · exact Or.inr ⟨_, _, rfl, rfl⟩
      · exact Or.inr ⟨r.sinks, r.phase, rfl, rfl⟩
  | delivering addresses i =>
    dsimp only
    split
    · exact Or.inr ⟨_, _, rfl, rfl⟩
    · split
      · exact Or.inr ⟨_, _, rfl, rfl⟩
      · obtain ⟨sinks, phase, hdeliver⟩ :=
          exists_deliver_eq { r with sinks := r.sinks.set i _ } addresses (i + 1)
        exact Or.inr ⟨sinks, phase, hdeliver, rfl⟩
  | listing =>
    dsimp only
    by_cases hc : r.canceled = true
    · rw [if_pos hc]
      exact Or.inr ⟨_, _, rfl, rfl⟩
    · rw [if_neg hc]
      refine Or.inl ⟨rfl, eq_false_of_ne_true hc, ?_⟩
      cases hask : Feed.ask r.now r.feed with
      | mk reply? feed =>
        cases reply? with
        | none => exact ⟨_, _, rfl, rfl⟩
        | some reply =>
          obtain ⟨sinks, phase, hhear⟩ := exists_hear_eq { r with feed } reply
          exact ⟨sinks, phase, hhear, reply?_hear _ reply⟩

/-- **A step either looks at the feed or leaves it alone.** In the first case the event is about the
answer that came of the look, if any did. -/
theorem step_cases (r : Resolver σ) :
    (r.phase = .listing ∧ r.canceled = false ∧
        SameFeed { r with feed := (Feed.ask r.now r.feed).2 } r.step.1 ∧
        r.step.2.bind Event.reply? = (Feed.ask r.now r.feed).1) ∨
      (SameFeed r r.step.1 ∧ r.step.2.bind Event.reply? = none) := by
  rcases exists_step_eq r with ⟨hp, hc, sinks, phase, hstep, hreply⟩ | ⟨sinks, phase, hstep, hreply⟩
  · refine Or.inl ⟨hp, hc, ?_, hreply⟩
    rw [hstep]
    exact ⟨rfl, rfl, rfl⟩
  · refine Or.inr ⟨?_, hreply⟩
    rw [hstep]
    exact ⟨rfl, rfl, rfl⟩

end

/-! ## Moves -/

/-- Something that happens to a watch loop on a registry in memory, or that it does. -/
inductive Move where
  /-- The loop gets its turn. -/
  | step
  | write (w : Write)
  /-- Time passes. -/
  | pass (ms : Nat)
  /-- The rest of the program uses the routing table and the sinks. -/
  | elsewhere (nodeSet : NodeSet) (sinks : List Sink)
  | close
  | drop

/-- What a move makes of a loop, and the event if it was the loop's. -/
def move (r : Resolver Subscription) : Move → Option Event × Resolver Subscription
  | .step => (r.step.2, r.step.1)
  | .write w => (none, { r with feed := r.feed.write w.apply })
  | .pass ms => (none, { r with now := r.now + ms })
  | .elsewhere nodeSet sinks => (none, { r with nodeSet, sinks })
  | .close => (none, r.close.2)
  | .drop => (none, r.drop)

/-- The list that the registry holds for the name that a loop follows. -/
def current (r : Resolver Subscription) : List Service := r.feed.registry.services r.service

/-- The loop rests inside a call that waits for a change, and no change has come. -/
def Parked (r : Resolver Subscription) : Prop :=
  r.phase = .listing ∧ r.feed.watcher.stage = .parked ∧
    r.feed.watcher.isBehind r.feed.registry = false

/-- A loop, and the books that are kept of what is written to its name. -/
structure Watched where
  loop : Resolver Subscription
  /-- The list that was handed over last. -/
  handed? : Option (List Service) := none
  /-- What has been written since a call was answered on it. -/
  news : List Write := []
  /-- The news to which parked calls have woken and been answered with an error, since a list was handed
  over. -/
  missed : List (List Write) := []

namespace Watched

/-- Takes note of an answer. A list takes account of everything. An error does so of nothing, but if it
was what a parked call woke to, the news that woke it has gone by. -/
def note (v : Watched) (reply? : Option Reply) (loop : Resolver Subscription) : Watched :=
  match reply? with
  | some (.ok services) => { loop, handed? := some services }
  | some (.error _) =>
    let woken := v.loop.feed.watcher.stage = .parked
    { v with
      loop
      news := if woken then [] else v.news
      missed := if woken then v.missed ++ [v.news] else v.missed }
  | none => { v with loop }

def move (v : Watched) : Move → Watched
  | .write w =>
    { v with
      loop := (v.loop.move (.write w)).2
      news := if w.name = v.loop.service then v.news ++ [w] else v.news }
  | m => v.note ((v.loop.move m).1.bind Event.reply?) (v.loop.move m).2

def run (v : Watched) (moves : List Move) : Watched := moves.foldl move v

/-- What has been written since a list was handed over. -/
def since (v : Watched) : List Write := v.missed.flatten ++ v.news

/-- What the loop has missed changes the list that it has. -/
def owed (v : Watched) : Prop := ∃ l ∈ v.handed?, Write.listAfter v.missed.flatten l ≠ l

theorem run_append (v : Watched) (moves more : List Move) :
    v.run (moves ++ more) = (v.run moves).run more := List.foldl_append

@[simp] theorem loop_note (v : Watched) (reply? : Option Reply) (loop : Resolver Subscription) :
    (v.note reply? loop).loop = loop := by
  match reply? with
  | some (.ok services) | some (.error e) | none => rfl

/-- A loop follows one name all its life. -/
theorem service_move (v : Watched) (m : Move) : (v.move m).loop.service = v.loop.service := by
  cases m with
  | step =>
    show (v.note (v.loop.step.2.bind Event.reply?) v.loop.step.1).loop.service = v.loop.service
    rw [loop_note]
    rcases step_cases v.loop with ⟨-, -, ⟨hservice, -, -⟩, -⟩ | ⟨⟨hservice, -, -⟩, -⟩ <;>
      exact hservice
  | close =>
    show v.loop.close.2.service = v.loop.service
    rw [close]
    split <;> rfl
  | _ => rfl

theorem service_run (v : Watched) (moves : List Move) : (v.run moves).loop.service = v.loop.service := by
  induction moves generalizing v with
  | nil => rfl
  | cons m rest ih => exact (ih (v.move m)).trans (v.service_move m)

theorem since_note {v : Watched} {reply? : Option Reply} {loop : Resolver Subscription} {w : Write}
    (h : w ∈ (v.note reply? loop).since) : w ∈ v.since := by
  match reply? with
  | some (.ok services) => cases h
  | some (.error e) =>
    by_cases hwoken : v.loop.feed.watcher.stage = .parked <;>
    · simpa [note, since, hwoken] using h
  | none => exact h

theorem note_congr (v : Watched) (reply? : Option Reply) (loop loop' : Resolver Subscription) :
    v.note reply? loop' = { v.note reply? loop with loop := loop' } := by
  match reply? with
  | some (.ok services) | some (.error e) | none => rfl

/-- The books hold what has been written in the run. -/
theorem since_run {v : Watched} {moves : List Move} {w : Write} (h : w ∈ (v.run moves).since) :
    w ∈ v.since ∨ Move.write w ∈ moves := by
  induction moves generalizing v with
  | nil => exact Or.inl h
  | cons m rest ih =>
    rcases ih h with hfirst | hrest
    · cases m with
      | write w' =>
        change w ∈ v.missed.flatten ++ (if w'.name = v.loop.service then v.news ++ [w'] else v.news)
          at hfirst
        split at hfirst
        · rw [← List.append_assoc, List.mem_append, List.mem_singleton] at hfirst
          rcases hfirst with hfirst | rfl
          · exact Or.inl hfirst
          · exact Or.inr List.mem_cons_self
        · exact Or.inl hfirst
      | _ => exact Or.inl (since_note hfirst)
    · exact Or.inr (List.mem_cons_of_mem _ hrest)

end Watched

/-! ## The invariant -/

/-- Writes to a name among which an error is injected. -/
structure Raced (name : String) (batch : List Write) : Prop where
  named : ∀ w ∈ batch, w.name = name
  injected : ∃ w ∈ batch, (w.error? name).isSome

/-- The books are in order. -/
structure Square (v : Watched) : Prop where
  name_eq : v.loop.feed.watcher.name = v.loop.service
  heeds : v.loop.feed.watcher.stopped = true → v.loop.canceled = true
  seen_le : v.loop.feed.watcher.seen ≤ v.loop.feed.registry.version v.loop.service
  quiet : v.loop.feed.watcher.stage ≠ .fresh →
    v.loop.feed.watcher.seen = v.loop.feed.registry.version v.loop.service → v.news = []
  handed : v.loop.feed.watcher.stage ≠ .fresh → v.handed?.isSome
  account : ∀ l ∈ v.handed?, v.loop.current = Write.listAfter v.since l
  named : ∀ w ∈ v.news, w.name = v.loop.service
  queued : v.loop.feed.watcher.stage = .parked → v.loop.feed.registry.errors v.loop.service
    = v.news.filterMap fun w => w.error? v.loop.service
  raced : ∀ batch ∈ v.missed, Raced v.loop.service batch

namespace Square

variable {v : Watched} {loop : Resolver Subscription}

/-- The books are about the name, the feed and the mark that the loop looks at, and nothing else of it. -/
theorem congr (h : Square v) (hsame : SameFeed v.loop loop) : Square { v with loop } := by
  obtain ⟨hservice, hfeed, hcanceled⟩ := hsame
  obtain ⟨service, feed, scheme, subset?, timer, retryMs, nodeSet, sinks, now, phase, canceled, closed⟩ :=
    loop
  obtain rfl : service = v.loop.service := hservice
  obtain rfl : feed = v.loop.feed := hfeed
  obtain rfl : canceled = v.loop.canceled := hcanceled
  exact { h with }

/-- A watcher that is not behind has seen the newest version. -/
theorem seen_eq (h : Square v) (hquiet : v.loop.feed.watcher.isBehind v.loop.feed.registry = false) :
    v.loop.feed.watcher.seen = v.loop.feed.registry.version v.loop.service := by
  rw [Watcher.isBehind, h.name_eq, decide_eq_false_iff_not] at hquiet
  exact Nat.le_antisymm h.seen_le (Nat.le_of_not_lt hquiet)

/-- What a parked call wakes to is a race, if it finds an error: the queue was empty when the call was
parked, so the error is one of the news. -/
theorem raced_news (h : Square v) (hparked : v.loop.feed.watcher.stage = .parked) {e : RegistryError}
    {r : Registry} (herr : v.loop.feed.registry.takeError? v.loop.feed.watcher.name = some (e, r)) :
    Raced v.loop.service v.news := by
  have hqueue := (Registry.errors_of_takeError? herr).1
  rw [h.name_eq, h.queued hparked] at hqueue
  obtain ⟨w, hw, herror⟩ := List.mem_filterMap.1 (hqueue ▸ List.mem_cons_self)
  exact ⟨h.named, w, hw, by rw [herror]; rfl⟩

/-- **A look at the feed keeps the books in order**, whichever outcome it has. A loop that looks has not
been told to end, so its watcher is not stopped. -/
theorem of_look (h : Square v) (hlive : v.loop.canceled = false) {reply? : Option Reply}
    {feed : Subscription} (hlook : Look v.loop.feed reply? feed) :
    Square (v.note reply? { v.loop with feed }) := by
  cases hlook with
  | refused w hstop hw =>
    have hended := h.heeds hstop
    rw [hlive] at hended
    cases hended
  | failed e r hstop hstage herr =>
    have hversion := Registry.version_of_takeError? herr v.loop.service
    simp only [Watched.note, if_neg hstage]
    exact
      { name_eq := h.name_eq
        heeds := h.heeds
        seen_le := Nat.le_trans h.seen_le (Nat.le_of_eq hversion.symm)
        quiet := fun hfresh hseen => h.quiet hfresh (hseen.trans hversion)
        handed := h.handed
        account := fun l hl => (Registry.services_of_takeError? herr _).trans (h.account l hl)
        named := h.named
        queued := fun hparked => absurd hparked hstage
        raced := h.raced }
  | listed hstop hnews herr =>
    -- the mark, the list and the empty books are all of this moment
    exact
      { name_eq := h.name_eq
        heeds := h.heeds
        seen_le := Nat.le_of_eq (congrArg v.loop.feed.registry.version h.name_eq)
        quiet := fun _ _ => rfl
        handed := fun _ => rfl
        account := by
          rintro l ⟨⟩
          exact congrArg _ h.name_eq.symm
        named := fun w hw => absurd hw List.not_mem_nil
        queued := fun hparked => by cases hparked
        raced := fun batch hbatch => absurd hbatch List.not_mem_nil }
  | spent e r hstop hstage hbehind herr =>
    have hversion := Registry.version_of_takeError? herr v.loop.service
    have hseen := congrArg v.loop.feed.registry.version h.name_eq
    have hfresh : v.loop.feed.watcher.stage ≠ .fresh := by rw [hstage]; simp
    simp only [Watched.note, if_pos hstage]
    exact
      { name_eq := h.name_eq
        heeds := h.heeds
        seen_le := Nat.le_of_eq (hseen.trans hversion.symm)
        quiet := fun _ _ => rfl
        handed := fun _ => h.handed hfresh
        account := fun l hl => by
          rw [Watched.since, List.flatten_append, List.flatten_singleton, List.append_nil]
          exact (Registry.services_of_takeError? herr _).trans (h.account l hl)
        named := fun w hw => absurd hw List.not_mem_nil
        queued := fun hparked => by cases hparked
        raced := List.forall_mem_append.2
          ⟨h.raced, List.forall_mem_singleton.2 (h.raced_news hstage herr)⟩ }
  | parks hstop hstage hquiet herr =>
    exact
      { name_eq := h.name_eq
        heeds := h.heeds
        seen_le := h.seen_le
        quiet := fun _ => h.quiet hstage
        handed := fun _ => h.handed hstage
        account := h.account
        named := h.named
        queued := fun _ => by
          rcases herr with hparked | hnone
          · exact h.queued hparked
          · -- the call starts here, and has looked at the queue
            rw [Registry.takeError?_eq_none_iff, h.name_eq] at hnone
            exact hnone.trans (congrArg (List.filterMap _) (h.quiet hstage (h.seen_eq hquiet))).symm
        raced := h.raced }

/-- **A write is news**, if it is to the name of the loop, and nothing to the loop if it is not. -/
theorem of_write (h : Square v) (w : Write) : Square (v.move (.write w)) := by
  by_cases hname : w.name = v.loop.service
  · have hnews : v.move (.write w)
        = { v with loop := { v.loop with feed := v.loop.feed.write w.apply }, news := v.news ++ [w] } := by
      rw [Watched.move, if_pos hname]
      rfl
    have hversion := w.version_apply v.loop.feed.registry
    have hservices := w.services_apply v.loop.feed.registry
    rw [hname] at hversion hservices
    rw [hnews]
    exact
      { name_eq := h.name_eq
        heeds := h.heeds
        seen_le := Nat.le_trans h.seen_le (hversion ▸ Nat.le_succ _)
        quiet := fun _ hseen => by
          have hle := h.seen_le
          change v.loop.feed.watcher.seen = (w.apply v.loop.feed.registry).version v.loop.service at hseen
          omega
        handed := h.handed
        account := fun l hl => by
          rw [Watched.since, ← List.append_assoc, Write.listAfter_append]
          exact hservices.trans (congrArg w.onList (h.account l hl))
        named := List.forall_mem_append.2 ⟨h.named, List.forall_mem_singleton.2 hname⟩
        queued := fun hparked => by
          rw [List.filterMap_append, ← h.queued hparked]
          exact w.errors_apply _ _
        raced := h.raced }
  · have hsame : v.move (.write w)
        = { v with loop := { v.loop with feed := v.loop.feed.write w.apply } } := by
      rw [Watched.move, if_neg hname]
      rfl
    have hslot := Write.slot_apply_of_ne hname v.loop.feed.registry
    have hversion : (w.apply v.loop.feed.registry).version v.loop.service
        = v.loop.feed.registry.version v.loop.service := congrArg Slot.version hslot
    rw [hsame]
    exact
      { name_eq := h.name_eq
        heeds := h.heeds
        seen_le := Nat.le_trans h.seen_le (Nat.le_of_eq hversion.symm)
        quiet := fun hfresh hseen => h.quiet hfresh (hseen.trans hversion)
        handed := h.handed
        account := fun l hl => (congrArg Slot.services hslot).trans (h.account l hl)
        named := h.named
        queued := fun hparked => (congrArg Slot.errors hslot).trans (h.queued hparked)
        raced := h.raced }

/-- **Every move keeps the books in order.** -/
theorem move (h : Square v) (m : Move) : Square (v.move m) := by
  cases m with
  | step =>
    show Square (v.note (v.loop.step.2.bind Event.reply?) v.loop.step.1)
    -- a step that does not look at the feed has no answer to take note of
    rcases step_cases v.loop with ⟨-, hlive, hsame, hreply⟩ | ⟨hsame, hreply⟩
    · rw [hreply, v.note_congr _ { v.loop with feed := (Feed.ask v.loop.now v.loop.feed).2 }]
      exact (h.of_look hlive (look_ask v.loop.feed)).congr (by rwa [Watched.loop_note])
    · rw [hreply]
      exact h.congr hsame
  | write w => exact h.of_write w
  | pass ms => exact h.congr ⟨rfl, rfl, rfl⟩
  | elsewhere nodeSet sinks => exact h.congr ⟨rfl, rfl, rfl⟩
  | close =>
    show Square { v with loop := v.loop.close.2 }
    rw [close]
    split
    · exact h
    · exact { h with heeds := fun _ => rfl }
  | drop => exact { h with heeds := fun _ => rfl }

theorem run (h : Square v) (moves : List Move) : Square (v.run moves) := by
  induction moves generalizing v with
  | nil => exact h
  | cons m rest ih => exact ih (h.move m)

/-- At rest inside a call there is no news. -/
theorem news_of_parked (h : Square v) (hrest : Parked v.loop) : v.news = [] := by
  obtain ⟨-, hparked, hquiet⟩ := hrest
  exact h.quiet (by rw [hparked]; simp) (h.seen_eq hquiet)

/-- At rest inside a call the list that the registry holds is the one that was handed over, with what was
missed since. -/
theorem current_of_parked (h : Square v) (hrest : Parked v.loop) :
    ∃ l, v.handed? = some l ∧ v.loop.current = Write.listAfter v.missed.flatten l := by
  obtain ⟨l, hl⟩ := Option.isSome_iff_exists.1 (h.handed (by rw [hrest.2.1]; simp))
  have hcurrent := h.account l hl
  rw [Watched.since, h.news_of_parked hrest, List.append_nil] at hcurrent
  exact ⟨l, hl, hcurrent⟩

/-- At rest inside a call the list that was handed over is the one that the registry holds, unless what
was missed since has changed it. -/
theorem current_iff (h : Square v) (hrest : Parked v.loop) :
    v.handed? = some v.loop.current ↔ ¬ v.owed := by
  obtain ⟨l, hl, hcurrent⟩ := h.current_of_parked hrest
  rw [Watched.owed, hl, hcurrent]
  simp [eq_comm]

end Square

/-! ## The beginning -/

/-- What a new loop looks like. -/
theorem eq_of_build {σ : Type} {o : Options} {target : Target} {discover : String → Opening σ}
    {nodeSet : NodeSet} {sinks : List Sink} {r : Resolver σ} {t : Nat}
    (h : build o target discover nodeSet sinks = (.ok r, t)) :
    ∃ feed, (discover target.endpoint).result = .ok feed ∧
      r = { service := target.endpoint, feed, scheme := o.expectedScheme, subset? := o.subset?,
            timer := o.timer, retryMs := o.retryMs, nodeSet, sinks, now := t, phase := .listing } := by
  rw [build] at h
  split at h
  · cases h
  · cases hfeed : (discover target.endpoint).result with
    | error e =>
      rw [hfeed] at h
      cases h
    | ok feed =>
      rw [hfeed] at h
      cases h
      exact ⟨feed, rfl, rfl⟩

section

variable {o : Options} {target : Target} {registry : Registry} {delayMs : Nat} {nodeSet : NodeSet}
  {sinks : List Sink} {loop : Resolver Subscription} {t : Nat}

theorem build_eq (h : build o target (registry.watch delayMs) nodeSet sinks = (.ok loop, t)) :
    loop.service = target.endpoint ∧ loop.feed = Subscription.follow registry target.endpoint ∧
      loop.canceled = false := by
  obtain ⟨feed, hfeed, rfl⟩ := eq_of_build h
  obtain rfl := Except.ok.inj hfeed
  exact ⟨rfl, rfl, rfl⟩

/-- The books of a new loop are empty. -/
theorem square_build (h : build o target (registry.watch delayMs) nodeSet sinks = (.ok loop, t)) :
    Square { loop } := by
  obtain ⟨hservice, hfeed, -⟩ := build_eq h
  have hfresh : loop.feed.watcher.stage = .fresh := by rw [hfeed]; rfl
  exact
    { name_eq := by
        show loop.feed.watcher.name = loop.service
        rw [hservice, hfeed]
        rfl
      heeds := by
        show loop.feed.watcher.stopped = true → _
        rw [hfeed]
        exact fun hstop => absurd hstop Bool.false_ne_true
      seen_le := by
        show loop.feed.watcher.seen ≤ loop.feed.registry.version loop.service
        rw [hservice, hfeed]
        exact Nat.le_refl _
      quiet := fun _ _ => rfl
      handed := fun hnot => absurd hfresh hnot
      account := fun l hl => by cases hl
      named := fun w hw => absurd hw List.not_mem_nil
      queued := fun hparked => by cases hfresh.symm.trans hparked
      raced := fun batch hbatch => absurd hbatch List.not_mem_nil }

end

/-- An instance of a service named `order`. -/
def orderAt (id host : String) : Service :=
  { id, name := "order", endpoint := "grpc://" ++ host ++ ":9000?isSecure=false" }

/-- A loop on a registry with one instance of `order`, which waits for 20 ms after an error. -/
def orderLoop : Resolver Subscription where
  service := "order"
  feed := Subscription.follow (Registry.ofServices [orderAt "1" "10.0.0.1"]) "order"
  scheme := Endpoint.schemeFor "grpc" false
  subset? := none
  timer := .exact
  retryMs := 20
  nodeSet := default
  sinks := []
  now := 0
  phase := .listing

theorem build_orderLoop :
    build ⟨.exact, 1000, 20, true, "grpc", none⟩ ⟨"discovery", "", "order"⟩
      ((Registry.ofServices [orderAt "1" "10.0.0.1"]).watch 0) default []
        = (.ok orderLoop, 0) := rfl

end Resolver

end Steering
