import Mathlib
import Steering.Proofs.Registry.Readership
import Steering.Proofs.Resolver.Wait

/-!
# `Steering.Proofs.Resolver.Retry` — what an error of the backend costs

Errors that are queued for a name are handed out one at a time, to whoever makes the next call, and a loop
that is handed one waits before it calls again. So each error costs one wait, of one loop.

The two halves are apart in the model, and the file puts them together. On the side of the registry a turn of
a loop is a look like that of any other watcher (`turn_is_look`), and all looks share one account of errors.
On the side of the loop it does not matter where the error came from (`retried_of_sleeping`). Together they say
when a new loop that has a registry to itself has its first list: `Pending` is such a loop before that list,
and what it owes to the clock is one wait for each error still queued, on top of what is left of the wait that
it is in. No happening changes the sum.
-/

namespace Steering.Resolver

/-! ## A loop among other watchers -/

/-- **A turn of a loop is a look at the call of its watcher**, or leaves the registry and the watcher alone. -/
theorem turn_is_look {r : Resolver Subscription} {c : Readership} {i : Nat}
    (hregistry : c.registry = r.feed.registry) (hw : c.watchers[i]? = some r.feed.watcher) :
    let look := c.act (.look i .stop)
    (r.step.2.bind Event.reply? = look.1 ∧ r.step.1.feed.registry = look.2.registry ∧
        look.2.watchers[i]? = some r.step.1.feed.watcher) ∨
      (r.step.2.bind Event.reply? = none ∧ r.step.1.feed = r.feed) := by
  intro look
  have hlook : look = _ := Readership.act_look hw .stop
  rcases exists_step_eq r with ⟨-, -, _, _, hstep, hreply⟩ | ⟨_, _, hstep, hreply⟩
  · refine Or.inl ⟨?_, ?_, ?_⟩
    · rw [hreply, hlook, hregistry]
      rfl
    · rw [hstep, hlook, hregistry]
      rfl
    · rw [hstep, hlook, hregistry]
      exact List.getElem?_set_self (List.getElem?_eq_some_iff.1 hw).1
  · exact Or.inr ⟨hreply, by rw [hstep]⟩

/-! ## A loop before its first list -/

/-- The errors that a loop's next calls are answered with. -/
def queue (r : Resolver Subscription) : List RegistryError :=
  r.feed.registry.errors r.feed.watcher.name

/-- A loop that has not been handed a list, and will have waited for all the errors that are queued when
the clock shows `finish`. -/
structure Pending (r : Resolver Subscription) (name : String) (finish : Nat) : Prop where
  follows : r.feed.watcher.name = name
  fresh : r.feed.watcher.stage = .fresh
  goes : r.feed.watcher.stopped = false
  heeds : r.canceled = false
  backend : .canceled ∉ r.queue
  due : (r.phase = .listing ∧ r.now + r.queue.length * r.waitMs = finish) ∨
    ∃ wake, r.phase = .sleeping wake ∧ r.now ≤ wake ∧
      wake + r.queue.length * r.waitMs = finish

namespace Pending

variable {r : Resolver Subscription} {name : String} {finish : Nat}

/-- What a call comes to: the oldest error, or the list if no error is queued. -/
theorem ask (h : Pending r name finish) :
    (∃ detail feed, r.feed.ask = (some (.error (.backend detail)), feed) ∧
        feed.watcher = r.feed.watcher ∧
        r.queue = .backend detail :: feed.registry.errors r.feed.watcher.name) ∨
      (r.queue = [] ∧ r.feed.ask.1 = some (.ok (r.feed.registry.services name))) := by
  have hlook := look_ask r.feed
  generalize r.feed.ask = x at hlook
  obtain ⟨reply?, feed⟩ := x
  dsimp only at hlook
  cases hlook with
  | refused w hstop hw => simp [h.goes] at hstop
  | failed e registry hstop hstage herr =>
    have hqueue := (Registry.errors_of_takeError? herr).1
    cases e with
    | canceled => exact absurd (by rw [queue, hqueue]; exact List.mem_cons_self) h.backend
    | backend detail => exact Or.inl ⟨detail, _, rfl, rfl, hqueue⟩
  | listed hstop hnews herr =>
    exact Or.inr ⟨Registry.takeError?_eq_none_iff.1 herr, by rw [h.follows]⟩
  | spent e registry hstop hstage hbehind herr => simp [h.fresh] at hstage
  | parks hstop hstage hquiet herr => exact absurd h.fresh hstage

theorem now_le (h : Pending r name finish) : r.now ≤ finish := by
  rcases h.due with ⟨-, hfinish⟩ | ⟨wake, -, hle, hfinish⟩ <;> omega

/-- Only a sleeping loop can make no move, and its time is still to come. -/
theorem sleeping_of_rest (h : Pending r name finish) (hrest : r.step.2 = none) :
    r.now < finish ∧ ∃ wake, r.phase = .sleeping wake := by
  rcases h.due with ⟨hp, -⟩ | ⟨wake, hp, -, hfinish⟩
  · -- a call is answered at once
    have hreply := (step_of_listing hp h.heeds).1
    rw [hrest] at hreply
    change none = r.feed.ask.1 at hreply
    rcases h.ask with ⟨detail, feed, hask, -⟩ | ⟨-, hask⟩ <;>
    · rw [hask] at hreply
      cases hreply
  · obtain ⟨hlt, -⟩ := rests_of_sleeping hp hrest
    exact ⟨by omega, wake, hp⟩

/-- **A turn before the first list** keeps the time at which the loop will have waited, or it is that time
and the turn brings the list. -/
theorem turn (h : Pending r name finish) :
    (r.step.2.bind Event.list? = none ∧ Pending r.step.1 name finish) ∨
      (r.step.2.bind Event.list? = some (r.feed.registry.services name) ∧ r.now = finish) := by
  rcases h.due with ⟨hp, hfinish⟩ | ⟨wake, hp, hle, hfinish⟩
  · rcases h.ask with ⟨detail, feed, hask, hwatcher, hqueue⟩ | ⟨hqueue, hask⟩
    · refine Or.inl ?_
      have hstep : r.step = ({ r with feed, phase := .sleeping (r.now + r.waitMs) },
          some (.heard (.error (.backend detail)))) := by
        rw [step, hp]
        simp [h.heeds, Feed.ask, hask, hear, waitMs]
      have hleft : ({ r with feed, phase := .sleeping (r.now + r.waitMs) } :
          Resolver Subscription).queue = feed.registry.errors r.feed.watcher.name := by
        rw [queue, hwatcher]
      rw [hstep]
      refine ⟨rfl, ?_⟩
      exact
        { follows := by rw [hwatcher, h.follows]
          fresh := by rw [hwatcher, h.fresh]
          goes := by rw [hwatcher, h.goes]
          heeds := h.heeds
          backend := by
            rw [hleft]
            exact fun hmem => h.backend (hqueue ▸ List.mem_cons_of_mem _ hmem)
          due := by
            refine Or.inr ⟨_, rfl, Nat.le_add_right _ _, ?_⟩
            rw [hleft, ← hfinish, hqueue, List.length_cons, Nat.succ_mul, Nat.add_assoc,
              Nat.add_comm r.waitMs]
            rfl }
    · refine Or.inr ⟨?_, ?_⟩
      · rw [Event.bind_list?, (step_of_listing hp h.heeds).1]
        change r.feed.ask.1.bind _ = _
        rw [hask]
        rfl
      · simpa [hqueue] using hfinish
  · refine Or.inl ?_
    rcases step_of_sleeping hp with ⟨htold, -⟩ | ⟨-, hdue, hwoke⟩ | ⟨-, -, hrest⟩
    · simp [h.heeds] at htold
    · rw [hwoke]
      obtain rfl : r.now = wake := Nat.le_antisymm hle hdue
      exact ⟨rfl, { h with due := Or.inl ⟨rfl, hfinish⟩ }⟩
    · rw [hrest]
      exact ⟨rfl, h⟩

/-- What others do, in time and without a further error, keeps it, unless it ends the loop. -/
theorem other (h : Pending r name finish) {first : Happening Write} (hfirst : first.isTurn = false)
    (hin : InTime r first) (hqueued : queued name [first] = []) :
    (r.act first).2.canceled = true ∨ Pending (r.act first).2 name finish := by
  cases first with
  | turn => cases hfirst
  | change w =>
    refine Or.inr ?_
    have hnone : w.error? name = none := by
      cases herror : w.error? name with
      | none => rfl
      | some e => simp [queued, herror] at hqueued
    have hqueue : (r.act (.change w)).2.queue = r.queue := by
      rw [queue, queue, h.follows]
      show (w.apply r.feed.registry).errors r.feed.watcher.name = _
      rw [Write.errors_apply, h.follows, hnone, Option.toList_none, List.append_nil]
    have hdue := h.due
    rw [← hqueue] at hdue
    exact { h with backend := hqueue ▸ h.backend, due := hdue }
  | clock now =>
    refine Or.inr { h with due := ?_ }
    obtain ⟨-, wake, hp⟩ := h.sleeping_of_rest hin.1
    rcases h.due with ⟨hp', -⟩ | ⟨wake', hp', -, hfinish⟩
    · simp [hp] at hp'
    · exact Or.inr ⟨wake', hp', hin.2.2 wake' (by simp [due?, hp']), hfinish⟩
  | close =>
    rw [act.eq_def, close]
    dsimp only
    split
    · exact Or.inr h
    · exact Or.inl rfl
  | drop => exact Or.inl rfl
  | _ => exact Or.inr { h with due := h.due }

/-- **Before the first list nothing changes the time at which it comes.** -/
theorem after (h : r.canceled = true ∨ Pending r name finish) {hs : List (Happening Write)}
    (hprompt : Prompt r hs) (hqueued : queued name hs = []) (hnone : r.delivered hs = []) :
    (r.after hs).canceled = true ∨ Pending (r.after hs) name finish := by
  induction hs generalizing r with
  | nil => exact h
  | cons first rest ih =>
    rw [delivered_cons, List.append_eq_nil_iff, Option.toList_eq_nil_iff] at hnone
    have hsplit : queued name [first] = [] ∧ queued name rest = [] := by
      rwa [← List.append_eq_nil_iff, queued, queued, ← List.filterMap_append]
    refine ih ?_ hprompt.2 hsplit.2 hnone.2
    rcases h with hcanceled | h
    · exact Or.inl (canceled_act r first hcanceled)
    · cases hturn : first.isTurn with
      | true =>
        obtain rfl := Happening.isTurn_iff.1 hturn
        rcases h.turn with ⟨-, hnext⟩ | ⟨hlist, -⟩
        · exact Or.inr hnext
        · cases hlist.symm.trans hnone.1
      | false => exact h.other hturn hprompt.1 hsplit.1

end Pending

/-! ## The first list -/

section

variable {r : Resolver Subscription}

/-- The first list of a run comes with a turn. -/
theorem exists_first_turn {hs : List (Happening Write)} {l : List Service}
    {later : List (List Service)} (h : r.delivered hs = l :: later) :
    ∃ before rest, hs = before ++ .turn :: rest ∧ r.delivered before = [] ∧
      (r.after before).step.2.bind Event.list? = some l := by
  induction hs generalizing r with
  | nil => cases h
  | cons first rest ih =>
    rw [delivered_cons] at h
    cases hlist : (r.act first).1.bind Event.list? with
    | some l' =>
      rw [hlist] at h
      obtain rfl : l' = l := (List.cons.inj h).1
      cases hturn : first.isTurn with
      | true =>
        obtain rfl := Happening.isTurn_iff.1 hturn
        exact ⟨[], rest, rfl, rfl, hlist⟩
      | false =>
        rw [(act_of_not_turn hturn r).1] at hlist
        cases hlist
    | none =>
      rw [hlist] at h
      obtain ⟨before, rest, rfl, hnone, hfirst⟩ := ih h
      refine ⟨first :: before, rest, rfl, ?_, hfirst⟩
      rw [delivered_cons, hlist, hnone]
      rfl

theorem services_of_look {s s' : Subscription} {reply? : Option Reply} (h : Look s reply? s')
    (name : String) : s'.registry.services name = s.registry.services name := by
  cases h with
  | failed e registry _ _ herr | spent e registry _ _ _ herr =>
    exact Registry.services_of_takeError? herr name
  | _ => rfl

theorem act_own (r : Resolver Subscription) {first : Happening Write} (h : first.isOwn) (name : String) :
    (r.act first).2.canceled = r.canceled ∧
      (r.act first).2.feed.registry.services name = r.feed.registry.services name := by
  cases first with
  | clock now => exact ⟨rfl, rfl⟩
  | turn =>
    refine ⟨(marks_step r).1, ?_⟩
    rcases exists_step_eq r with ⟨-, -, _, _, hstep, -⟩ | ⟨_, _, hstep, -⟩
    · rw [act, hstep]
      exact services_of_look (look_ask r.feed) name
    · rw [act, hstep]
  | _ => cases h

/-- A loop that is left alone neither ends itself by a mark nor changes who is registered. -/
theorem after_own {hs : List (Happening Write)} (h : ∀ first ∈ hs, first.isOwn)
    (r : Resolver Subscription) (name : String) :
    (r.after hs).canceled = r.canceled ∧
      (r.after hs).feed.registry.services name = r.feed.registry.services name := by
  induction hs generalizing r with
  | nil => exact ⟨rfl, rfl⟩
  | cons first rest ih =>
    obtain ⟨hcanceled, hservices⟩ := act_own r (h first List.mem_cons_self) name
    obtain ⟨hcanceled', hservices'⟩ :=
      ih (fun other hother => h other (List.mem_cons_of_mem _ hother)) (r.act first).2
    exact ⟨hcanceled'.trans hcanceled, hservices'.trans hservices⟩

end

section

variable {o : Options} {target : Target} {registry : Registry} {delayMs : Nat} {nodeSet : NodeSet}
  {sinks : List Sink} {loop : Resolver Subscription} {t : Nat}

theorem pending_build (hkeeps : o.timer.Keeps o.retryMs)
    (h : build o target (registry.watch delayMs) nodeSet sinks = (.ok loop, t))
    (hbackend : .canceled ∉ registry.errors target.endpoint) :
    Pending loop target.endpoint
      (t + (registry.errors target.endpoint).length * o.retryMs) := by
  obtain ⟨feed, hfeed, rfl⟩ := eq_of_build h
  obtain rfl := Except.ok.inj hfeed
  exact
    { follows := rfl, fresh := rfl, goes := rfl, heeds := rfl, backend := hbackend,
      due := by
        refine Or.inl ⟨rfl, ?_⟩
        rw [waitMs, hkeeps]
        rfl }

/-- When the first list comes to a new loop, and which one it is. -/
theorem first_list (hkeeps : o.timer.Keeps o.retryMs)
    (h : build o target (registry.watch delayMs) nodeSet sinks = (.ok loop, t))
    (hbackend : .canceled ∉ registry.errors target.endpoint) {hs : List (Happening Write)}
    (hprompt : Prompt loop hs) (hqueued : queued target.endpoint hs = []) {l : List Service}
    {later : List (List Service)} (hlists : loop.delivered hs = l :: later) :
    ∃ before rest, hs = before ++ .turn :: rest ∧ loop.delivered before = [] ∧
      (loop.after before).step.2.bind Event.list? = some l ∧
      (loop.after before).now = t + (registry.errors target.endpoint).length * o.retryMs ∧
      l = (loop.after before).feed.registry.services target.endpoint := by
  obtain ⟨before, rest, rfl, hnone, hfirst⟩ := exists_first_turn hlists
  have hprefix : queued target.endpoint before = [] := by
    rw [queued, List.filterMap_append, List.append_eq_nil_iff] at hqueued
    exact hqueued.1
  rcases Pending.after (Or.inr (pending_build hkeeps h hbackend)) (prompt_append.1 hprompt).1 hprefix hnone with
    hcanceled | hpending
  · -- a loop that has been told to end does not hear of any list
    have hquiet := delivered_of_over (Or.inl hcanceled) [(.turn : Happening Write)]
    rw [delivered_cons, act, hfirst] at hquiet
    cases hquiet
  · rcases hpending.turn with ⟨hquiet, -⟩ | ⟨hlist, hnow⟩
    · cases hfirst.symm.trans hquiet
    · exact ⟨before, rest, rfl, hnone, hfirst, hnow, Option.some.inj (hfirst.symm.trans hlist)⟩

/-- A new loop without a list has not waited for all its errors, or is about to have its list. -/
theorem now_le_of_no_list (hkeeps : o.timer.Keeps o.retryMs)
    (h : build o target (registry.watch delayMs) nodeSet sinks = (.ok loop, t))
    (hbackend : .canceled ∉ registry.errors target.endpoint) {hs : List (Happening Write)}
    (hprompt : Prompt loop hs) (hqueued : queued target.endpoint hs = [])
    (hnone : loop.delivered hs = []) (hgoes : (loop.after hs).canceled = false) :
    let finish := t + (registry.errors target.endpoint).length * o.retryMs
    (loop.after hs).now ≤ finish ∧ ((loop.after hs).step.2 = none → (loop.after hs).now < finish) := by
  intro finish
  rcases Pending.after (Or.inr (pending_build hkeeps h hbackend)) hprompt hqueued hnone with
    hcanceled | hpending
  · cases hcanceled.symm.trans hgoes
  · exact ⟨hpending.now_le, fun hrest => (hpending.sleeping_of_rest hrest).1⟩

theorem queued_of_own {hs : List (Happening Write)} (h : ∀ first ∈ hs, first.isOwn) (name : String) :
    queued name hs = [] := by
  rw [queued, List.filterMap_eq_nil_iff]
  intro first hfirst
  have hown := h first hfirst
  cases first with
  | change w => cases hown
  | _ => rfl

/-- A new loop that is left alone for longer than all its waits take has its list. -/
theorem first_list_advance (hkeeps : o.timer.Keeps o.retryMs)
    (h : build o target (registry.watch delayMs) nodeSet sinks = (.ok loop, t))
    (hbackend : .canceled ∉ registry.errors target.endpoint) {ms : Nat}
    (hms : (registry.errors target.endpoint).length * o.retryMs < ms) :
    ∃ later, (loop.advance ms).1.filterMap Event.list?
      = registry.services target.endpoint :: later := by
  obtain ⟨hs, hown, hprompt, hadvance, hend⟩ := exists_prompt_advance loop ms
  obtain ⟨hservices, hnow, hgoes⟩ : loop.feed.registry.services target.endpoint
      = registry.services target.endpoint ∧ loop.now = t ∧ loop.canceled = false := by
    obtain ⟨feed, hfeed, rfl⟩ := eq_of_build h
    obtain rfl := Except.ok.inj hfeed
    exact ⟨rfl, rfl, rfl⟩
  have hqueued := queued_of_own hown target.endpoint
  rw [hadvance]
  show ∃ later, loop.delivered hs = _ :: later
  cases hlists : loop.delivered hs with
  | nil =>
    have hle := (now_le_of_no_list hkeeps h hbackend hprompt hqueued hlists
      ((after_own hown loop target.endpoint).1.trans hgoes)).1
    omega
  | cons l later =>
    obtain ⟨before, rest, rfl, -, -, -, hl⟩ := first_list hkeeps h hbackend hprompt hqueued hlists
    refine ⟨later, ?_⟩
    have halone := after_own (fun first hfirst => hown first (List.mem_append_left _ hfirst)) loop
      target.endpoint
    rw [hl, halone.2, hservices]

end

/-! ## What an error costs -/

/-- **Every error of the backend costs one wait.** In a registry with any number of watchers, whatever they
and the writers do, the errors of a name are handed out each to one call, in the order in which they were
queued, with none left out, and the turns of a loop are such calls. A loop on any feed that is handed an
error of the backend waits, whatever happens, for just the time that it is to wait, if its timer keeps that
time, and makes no call and publishes nothing until then; then comes its next call, unless it has been told to
end. So a new loop that has a registry to itself, in which errors of the backend are queued and none is added,
is handed its first list when it has waited once for each of them and not before, and the list is the one that
the registry holds at that time. -/
theorem each_error_costs_one_wait (σ ω : Type) [Feed σ] [Backend σ ω] :
    (∀ (c : Readership) (name : String) (acts : List Readership.Act),
      c.registry.errors name ++ acts.filterMap (Readership.Act.queued? name)
        = c.returned name acts ++ (c.after acts).registry.errors name) ∧
    (∀ (r : Resolver Subscription) (c : Readership) (i : Nat), c.registry = r.feed.registry →
      c.watchers[i]? = some r.feed.watcher →
      let look := c.act (.look i .stop)
      (r.step.2.bind Event.reply? = look.1 ∧ r.step.1.feed.registry = look.2.registry ∧
          look.2.watchers[i]? = some r.step.1.feed.watcher) ∨
        (r.step.2.bind Event.reply? = none ∧ r.step.1.feed = r.feed)) ∧
    (∀ (r : Resolver σ) (detail : String), r.timer.Keeps r.retryMs →
      r.step.2 = some (.heard (.error (.backend detail))) →
      r.step.1.now = r.now ∧
        ∀ hs : List (Happening ω), Retried r.step.1 (r.now + r.retryMs) hs) ∧
    ∀ (o : Options) (target : Target) (registry : Registry) (delayMs : Nat) (nodeSet : NodeSet)
      (sinks : List Sink) (loop : Resolver Subscription) (t : Nat), o.timer.Keeps o.retryMs →
      build o target (registry.watch delayMs) nodeSet sinks = (.ok loop, t) →
      .canceled ∉ registry.errors target.endpoint →
      let waits := (registry.errors target.endpoint).length * o.retryMs
      (∀ hs : List (Happening Write), Prompt loop hs → queued target.endpoint hs = [] →
        (∀ l later, loop.delivered hs = l :: later → ∃ before rest, hs = before ++ .turn :: rest ∧
          loop.delivered before = [] ∧ (loop.after before).step.2.bind Event.list? = some l ∧
          (loop.after before).now = t + waits ∧
          l = (loop.after before).feed.registry.services target.endpoint) ∧
        (loop.delivered hs = [] → (loop.after hs).canceled = false → (loop.after hs).now ≤ t + waits ∧
          ((loop.after hs).step.2 = none → (loop.after hs).now < t + waits))) ∧
      ∀ ms, waits < ms → ∃ later, (loop.advance ms).1.filterMap Event.list?
        = registry.services target.endpoint :: later := by
  refine ⟨Readership.errors_append_queued, fun r c i => turn_is_look, ?_, ?_⟩
  · intro r detail hkeeps hheard
    obtain ⟨hp, hnow⟩ := phase_of_heard_backend hheard
    rw [waitMs, hkeeps] at hp
    exact ⟨hnow, retried_of_sleeping hp⟩
  · intro o target registry delayMs nodeSet sinks loop t hkeeps hbuild hbackend waits
    refine ⟨fun hs hprompt hqueued => ⟨fun l later => ?_, ?_⟩, fun ms => ?_⟩
    · exact first_list hkeeps hbuild hbackend hprompt hqueued
    · exact now_le_of_no_list hkeeps hbuild hbackend hprompt hqueued
    · exact first_list_advance hkeeps hbuild hbackend

/-- Two errors are queued when a loop starts. -/
def troubled : Registry :=
  ((Registry.ofServices [orderAt "1" "10.0.0.1"]).inject "order" (.backend "leader changed")).inject "order"
    (.backend "no leader")

/-- A loop on a registry with two errors queued. -/
def troubledLoop : Resolver Subscription :=
  { orderLoop with feed := Subscription.follow troubled "order" }

/-- An instance comes during the second wait. -/
def secondWait : List (Happening Write) :=
  [.turn, .clock 20, .turn, .turn, .change (.register (orderAt "2" "10.0.0.2")), .clock 40, .turn]

theorem each_error_costs_one_wait_twice :
    let c : Readership := ⟨troubled, [troubledLoop.feed.watcher]⟩
    let run := secondWait ++ [.turn]
    build ⟨.exact, 1000, 20, true, "grpc", none⟩ ⟨"discovery", "", "order"⟩ (troubled.watch 0) default []
        = (.ok troubledLoop, 0) ∧
      .canceled ∉ troubled.errors "order" ∧ Prompt troubledLoop run ∧ queued "order" run = [] ∧
      troubledLoop.step.2.bind Event.reply? = (c.act (.look 0 .stop)).1 ∧
      Retried troubledLoop.step.1 (0 + 20) run.tail ∧
      (∃ before rest, run = before ++ .turn :: rest ∧
        (troubledLoop.after before).now = 0 + 2 * 20) ∧
      ∃ later, (troubledLoop.advance 41).1.filterMap Event.list? = [orderAt "1" "10.0.0.1"] :: later := by
  intro c run
  have hbuild : build ⟨.exact, 1000, 20, true, "grpc", none⟩ ⟨"discovery", "", "order"⟩ (troubled.watch 0)
      default [] = (.ok troubledLoop, 0) := rfl
  have hbackend : .canceled ∉ troubled.errors "order" := by decide
  have hprompt : Prompt troubledLoop run := by
    refine ⟨trivial, ⟨rfl, by decide, ?_⟩, trivial, trivial, trivial, ⟨rfl, by decide, ?_⟩, trivial, trivial,
      trivial⟩
    · intro due hdue
      obtain rfl : 20 = due := Option.some.inj hdue
      exact le_refl _
    · intro due hdue
      obtain rfl : 40 = due := Option.some.inj hdue
      exact le_refl _
  have hqueued : queued "order" run = [] := rfl
  have hlists : troubledLoop.delivered run = [[orderAt "1" "10.0.0.1", orderAt "2" "10.0.0.2"]] := rfl
  obtain ⟨-, hlook, hretried, hnew⟩ := each_error_costs_one_wait Subscription Write
  have hreply : troubledLoop.step.2.bind Event.reply? = (c.act (.look 0 .stop)).1 := by
    rcases hlook troubledLoop c 0 rfl rfl with ⟨hreply, -⟩ | ⟨hnone, -⟩
    · exact hreply
    · cases hnone
  obtain ⟨hfirst, halone⟩ := hnew _ _ _ _ _ _ _ _ (Timer.keeps_exact 20) hbuild hbackend
  obtain ⟨before, rest, hsplit, -, -, hnow, -⟩ := (hfirst run hprompt hqueued).1 _ _ hlists
  have hwaits := (hretried troubledLoop "leader changed" (Timer.keeps_exact 20) rfl).2 run.tail
  exact ⟨hbuild, hbackend, hprompt, hqueued, hreply, hwaits, ⟨before, rest, hsplit, hnow⟩,
    halone 41 (by decide)⟩

end Steering.Resolver
