import Steering.Proofs.Resolver.Handover

/-!
# `Steering.Proofs.Resolver.Race` — a change and an error at once

What a loop misses has come together with an error (`Square.raced`). This file adds the other half: what
comes together with an error of the backend *is* missed. From any rest, if some writes come before the
loop gets its turn and one of them injects an error, the loop left to itself answers the errors one by
one, waits after each, and comes to rest with the list that it had, while the list of the registry is what
the writes have made of it (`lost_of_race`). No further write, no end and no other part of the program is
needed for that, and none of them happens.

The induction is on the queue. Between two calls the mark stays where the wake-up left it, at the newest
version; each error costs a call and a wait and takes nothing else along (`Between`).

So a loop at rest has the current list exactly when it is owed none, and what it is owed has been lost in
such a race (`current_iff_not_owed`). Errors that were queued before the loop started are handed to calls
that start, and make it miss nothing; as long as no error is injected, every change arrives
(`current_of_no_error`).
-/

namespace Steering.Resolver

/-- A move by which nothing happens but the loop's turns and time. -/
def Move.Quiet : Move → Prop
  | .step | .pass _ => True
  | _ => False

/-- A loop that is about to start a call, with the newest version marked and some errors queued. -/
structure Between (r : Resolver Subscription) (queue : List RegistryError) : Prop where
  name_eq : r.feed.watcher.name = r.service
  listing : r.phase = .listing
  live : r.canceled = false
  going : r.feed.watcher.stopped = false
  idle : r.feed.watcher.stage = .idle
  seen_eq : r.feed.watcher.seen = r.feed.registry.version r.service
  errors : r.feed.registry.errors r.service = queue

theorem Between.not_behind {r : Resolver Subscription} {queue : List RegistryError}
    (h : Between r queue) : r.feed.watcher.isBehind r.feed.registry = false := by
  rw [Watcher.isBehind, h.name_eq, h.seen_eq]
  exact decide_eq_false (Nat.lt_irrefl _)

/-! ## Turns of the loop -/

theorem move_step {v : Watched} {loop : Resolver Subscription} {event? : Option Event}
    (h : v.loop.step = (loop, event?)) :
    v.move .step = v.note (event?.bind Event.reply?) loop := by
  show v.note (v.loop.step.2.bind Event.reply?) v.loop.step.1 = _
  rw [h]

/-- A wait that is waited out. -/
theorem run_wait {v : Watched} {ms : Nat} (hlive : v.loop.canceled = false)
    (hp : v.loop.phase = .sleeping (v.loop.now + ms)) :
    v.run [.pass ms, .step]
      = { v with loop := { v.loop with now := v.loop.now + ms, phase := .listing } } := by
  have hstep : (v.move (.pass ms)).loop.step
      = ({ v.loop with now := v.loop.now + ms, phase := .listing }, some .woke) := by
    show Resolver.step { v.loop with now := v.loop.now + ms } = _
    rw [step]
    dsimp only
    rw [hp]
    dsimp only
    rw [if_neg (by simp [hlive]), if_pos (Nat.le_refl _)]
  exact move_step hstep

/-- A call that is answered with an error of the backend costs a turn, a wait and another turn. -/
theorem run_error {v : Watched} {feed : Subscription} {detail : String}
    (hlisting : v.loop.phase = .listing) (hlive : v.loop.canceled = false)
    (hask : v.loop.feed.ask = (some (.error (.backend detail)), feed)) :
    v.run [.step, .pass v.loop.waitMs, .step]
      = v.note (some (.error (.backend detail)))
          { v.loop with feed, now := v.loop.now + v.loop.waitMs, phase := .listing } := by
  have hask' : Feed.ask v.loop.now v.loop.feed = (some (.error (.backend detail)), feed) := hask
  have hstep : v.loop.step
      = ({ v.loop with feed, phase := .sleeping (v.loop.now + v.loop.waitMs) },
          some (.heard (.error (.backend detail)))) := by
    rw [step, hlisting]
    dsimp only
    rw [if_neg (by simp [hlive]), hask']
    rfl
  show (v.move .step).run [.pass _, .step] = _
  rw [move_step hstep]
  exact run_wait hlive rfl

/-- A call that finds nothing parks. -/
theorem move_parks {v : Watched} {feed : Subscription} (hlisting : v.loop.phase = .listing)
    (hlive : v.loop.canceled = false) (hask : v.loop.feed.ask = (none, feed)) :
    v.move .step = { v with loop := { v.loop with feed } } := by
  have hask' : Feed.ask v.loop.now v.loop.feed = (none, feed) := hask
  have hstep : v.loop.step = ({ v.loop with feed }, none) := by
    rw [step, hlisting]
    dsimp only
    rw [if_neg (by simp [hlive]), hask', hlisting]
  exact move_step hstep

/-! ## Coming to rest -/

/-- A loop at rest that has, and could have, what it had before. -/
structure RestsAs (v v' : Watched) : Prop where
  parked : Parked v'.loop
  errors : v'.loop.feed.registry.errors v.loop.service = []
  closed : v'.loop.closed = v.loop.closed
  handed : v'.handed? = v.handed?
  current : v'.loop.current = v.loop.current

/-- One error answered, the rest of the queue decides. -/
theorem rests_after_error {v : Watched} {feed : Subscription} {detail : String}
    (hlisting : v.loop.phase = .listing) (hlive : v.loop.canceled = false)
    (hask : v.loop.feed.ask = (some (.error (.backend detail)), feed))
    (hcurrent : feed.registry.services v.loop.service = v.loop.current)
    (hrest : ∀ v' : Watched,
      v'.loop = { v.loop with feed, now := v.loop.now + v.loop.waitMs, phase := .listing } →
        ∃ moves : List Move, (∀ m ∈ moves, m.Quiet) ∧ RestsAs v' (v'.run moves)) :
    ∃ moves : List Move, (∀ m ∈ moves, m.Quiet) ∧ RestsAs v (v.run moves) := by
  have hround := run_error hlisting hlive hask
  obtain ⟨moves, hquiet, hrests⟩ :=
    hrest (v.run [.step, .pass v.loop.waitMs, .step]) (by rw [hround]; rfl)
  refine ⟨[.step, .pass v.loop.waitMs, .step] ++ moves, ?_, ?_⟩
  · intro m hm
    rcases List.mem_append.1 hm with hm | hm
    · simp only [List.mem_cons, List.not_mem_nil, or_false] at hm
      rcases hm with rfl | rfl | rfl <;> exact trivial
    · exact hquiet m hm
  · rw [Watched.run_append]
    have hservice : (v.run [.step, .pass v.loop.waitMs, .step]).loop.service = v.loop.service := by
      rw [hround]
      rfl
    exact
      { parked := hrests.parked
        errors := hservice ▸ hrests.errors
        closed := hrests.closed.trans (by rw [hround]; rfl)
        handed := hrests.handed.trans (by rw [hround]; rfl)
        current := hrests.current.trans (by rw [hround]; exact hcurrent) }

/-- The errors of a queue are answered one by one, and then the loop parks; the list is not handed out
in between, because nothing is newer than the mark. -/
theorem Between.rests {queue : List RegistryError} {v : Watched} (h : Between v.loop queue)
    (hbackend : RegistryError.canceled ∉ queue) :
    ∃ moves : List Move, (∀ m ∈ moves, m.Quiet) ∧ RestsAs v (v.run moves) := by
  induction queue generalizing v with
  | nil =>
    have hlook := look_ask v.loop.feed
    generalize hask : v.loop.feed.ask = answer at hlook
    obtain ⟨reply?, feed⟩ := answer
    have hnone := Registry.takeError?_eq_none_iff.2 h.errors
    rw [← h.name_eq] at hnone
    cases hlook with
    | refused w hstop hw => exact absurd hstop (by simp [h.going])
    | failed e r hstop hstage herr => exact absurd (hnone.symm.trans herr) (by simp)
    | spent e r hstop hstage hbehind herr => exact absurd hstage (by simp [h.idle])
    | listed hstop hnews herr =>
      rcases hnews with hfresh | hbehind
      · exact absurd hfresh (by simp [h.idle])
      · exact absurd hbehind (by simp [h.not_behind])
    | parks hstop hstage hquiet herr =>
      refine ⟨[.step], by simp [Move.Quiet], ?_⟩
      show RestsAs v (v.move .step)
      rw [move_parks h.listing h.live hask]
      exact ⟨⟨h.listing, rfl, hquiet⟩, h.errors, rfl, rfl, rfl⟩
  | cons e rest ih =>
    obtain ⟨detail, rfl⟩ : ∃ detail, e = .backend detail := by
      cases e with
      | canceled => exact absurd List.mem_cons_self hbackend
      | backend detail => exact ⟨detail, rfl⟩
    have hlook := look_ask v.loop.feed
    generalize hask : v.loop.feed.ask = answer at hlook
    obtain ⟨reply?, feed⟩ := answer
    have hsome : v.loop.feed.registry.takeError? v.loop.feed.watcher.name ≠ none := by
      rw [Ne, Registry.takeError?_eq_none_iff, h.name_eq, h.errors]
      simp
    cases hlook with
    | refused w hstop hw => exact absurd hstop (by simp [h.going])
    | listed hstop hnews herr => exact absurd herr hsome
    | parks hstop hstage hquiet herr =>
      exact absurd (herr.resolve_left (by simp [h.idle])) hsome
    | spent e r hstop hstage hbehind herr => exact absurd hstage (by simp [h.idle])
    | failed e r hstop hstage herr =>
      -- the call is answered with the head of the queue, and the mark stays
      obtain ⟨hqueue, -⟩ := Registry.errors_of_takeError? herr
      rw [h.name_eq, h.errors] at hqueue
      obtain ⟨rfl, hrest⟩ := List.cons.inj hqueue
      refine rests_after_error h.listing h.live hask (Registry.services_of_takeError? herr _) ?_
      intro v' hv'
      refine ih ?_ fun hmem => hbackend (List.mem_cons_of_mem _ hmem)
      rw [hv']
      exact
        { name_eq := h.name_eq
          listing := rfl
          live := h.live
          going := h.going
          idle := h.idle
          seen_eq := h.seen_eq.trans (Registry.version_of_takeError? herr _).symm
          errors := hrest.symm }

/-- A parked call that wakes to an error is followed by a rest without the list that it woke for. -/
theorem rests_of_woken {v : Watched} (h : Square v) (hlisting : v.loop.phase = .listing)
    (hlive : v.loop.canceled = false) (hparked : v.loop.feed.watcher.stage = .parked)
    (hbehind : v.loop.feed.watcher.isBehind v.loop.feed.registry = true)
    (herrors : v.loop.feed.registry.errors v.loop.service ≠ [])
    (hbackend : RegistryError.canceled ∉ v.loop.feed.registry.errors v.loop.service) :
    ∃ moves : List Move, (∀ m ∈ moves, m.Quiet) ∧ RestsAs v (v.run moves) := by
  have hlook := look_ask v.loop.feed
  generalize hask : v.loop.feed.ask = answer at hlook
  obtain ⟨reply?, feed⟩ := answer
  have hsome : v.loop.feed.registry.takeError? v.loop.feed.watcher.name ≠ none := by
    rw [Ne, Registry.takeError?_eq_none_iff, h.name_eq]
    exact herrors
  cases hlook with
  | refused w hstop hw => exact absurd (h.heeds hstop) (by simp [hlive])
  | failed e r hstop hstage herr => exact absurd hparked hstage
  | listed hstop hnews herr => exact absurd herr hsome
  | parks hstop hstage hquiet herr => exact absurd hbehind (by simp [hquiet])
  | spent e r hstop hstage _ herr =>
    -- the one answer that moves the mark without the list
    obtain ⟨hsplit, hversion⟩ := Registry.errors_of_takeError? herr
    rw [h.name_eq] at hsplit
    obtain ⟨detail, rfl⟩ : ∃ detail, e = .backend detail := by
      cases e with
      | canceled => exact absurd (hsplit ▸ List.mem_cons_self) hbackend
      | backend detail => exact ⟨detail, rfl⟩
    refine rests_after_error hlisting hlive hask (Registry.services_of_takeError? herr _) ?_
    intro v' hv'
    refine @Between.rests (r.errors v.loop.service) v' ?_ fun hmem =>
      hbackend (hsplit ▸ List.mem_cons_of_mem _ hmem)
    rw [hv']
    exact
      { name_eq := h.name_eq
        listing := rfl
        live := hlive
        going := hstop
        idle := rfl
        seen_eq := by
          show v.loop.feed.registry.version v.loop.feed.watcher.name = r.version v.loop.service
          rw [← h.name_eq, hversion]
        errors := rfl }

/-! ## Writes before the loop gets its turn -/

/-- Writes to the name change the registry and are news, and nothing else. -/
theorem run_writes {v : Watched} {batch : List Write} (h : ∀ w ∈ batch, w.name = v.loop.service) :
    ∃ registry, v.run (batch.map .write) = { v with
      loop := { v.loop with feed := ⟨registry, v.loop.feed.watcher⟩ }, news := v.news ++ batch } := by
  induction batch generalizing v with
  | nil => exact ⟨v.loop.feed.registry, by rw [List.append_nil]; rfl⟩
  | cons w rest ih =>
    have hfirst : v.move (.write w) = { v with
        loop := { v.loop with feed := v.loop.feed.write w.apply }, news := v.news ++ [w] } := by
      rw [Watched.move, if_pos (h w List.mem_cons_self)]
      rfl
    obtain ⟨registry, hrest⟩ := @ih (v.move (.write w)) fun w' hw' => by
      rw [hfirst]
      exact h w' (List.mem_cons_of_mem _ hw')
    refine ⟨registry, ?_⟩
    show (v.move (.write w)).run (rest.map .write) = _
    rw [hrest, hfirst, List.append_assoc]
    rfl

/-- **What comes together with an error of the backend is lost.** Left to itself, the loop comes to rest
with the list that it had, whatever the writes have made of the list. -/
theorem lost_of_race {v : Watched} (h : Square v) (hrest : Parked v.loop)
    (hlive : v.loop.canceled = false) {batch : List Write} (hraced : Raced v.loop.service batch)
    (hbackend : ∀ w ∈ batch, w.error? v.loop.service ≠ some .canceled) :
    ∃ quiet : List Move, (∀ m ∈ quiet, m.Quiet) ∧
      let v' := v.run (batch.map .write ++ quiet)
      Parked v'.loop ∧ v'.loop.feed.registry.errors v.loop.service = [] ∧ v'.handed? = v.handed? ∧
        v'.loop.current = Write.listAfter batch v.loop.current := by
  have hnews := h.news_of_parked hrest
  obtain ⟨registry, hwritten⟩ := run_writes hraced.named
  have hsquare := h.run (batch.map .write)
  rw [hwritten, hnews, List.nil_append] at hsquare
  have hqueue : registry.errors v.loop.service = batch.filterMap (·.error? v.loop.service) :=
    hsquare.queued hrest.2.1
  obtain ⟨w, hw, hinjected⟩ := hraced.injected
  obtain ⟨e, he⟩ := Option.isSome_iff_exists.1 hinjected
  have hbehind : v.loop.feed.watcher.isBehind registry = true := by
    -- a watcher that is not behind has no news
    refine eq_true_of_ne_false fun hquiet => ?_
    have hnone : batch = [] := hsquare.news_of_parked ⟨hrest.1, hrest.2.1, hquiet⟩
    rw [hnone] at hw
    cases hw
  have herrors : registry.errors v.loop.service ≠ [] := by
    rw [hqueue]
    exact List.ne_nil_of_mem (List.mem_filterMap.2 ⟨w, hw, he⟩)
  have hnotCanceled : .canceled ∉ registry.errors v.loop.service := by
    rw [hqueue, List.mem_filterMap]
    rintro ⟨w', hw', he'⟩
    exact hbackend w' hw' he'
  obtain ⟨quiet, hquiet, hrests⟩ :=
    rests_of_woken hsquare hrest.1 hlive hrest.2.1 hbehind herrors hnotCanceled
  refine ⟨quiet, hquiet, ?_⟩
  intro v'
  have hsplit : v' = _ := Watched.run_append v _ quiet
  rw [hwritten, hnews, List.nil_append] at hsplit
  rw [← hsplit] at hrests
  obtain ⟨l, hl, hbefore⟩ := h.current_of_parked hrest
  have hafter := hsquare.account l hl
  rw [Watched.since, Write.listAfter_append, ← hbefore] at hafter
  exact ⟨hrests.parked, hrests.errors, hrests.handed, hrests.current.trans hafter⟩

/-! ## From the beginning -/

section

variable {o : Options} {target : Target} {registry : Registry} {delayMs : Nat} {nodeSet : NodeSet}
  {sinks : List Sink} {loop : Resolver Subscription} {t : Nat} {moves : List Move}

/-- What a loop has missed was written to its name in the run, and an error was injected with it. -/
theorem raced_of_missed (h : build o target (registry.watch delayMs) nodeSet sinks = (.ok loop, t))
    {batch : List Write} (hbatch : batch ∈ (Watched.run { loop } moves).missed) :
    Raced target.endpoint batch ∧ ∀ w ∈ batch, Move.write w ∈ moves := by
  have hservice : (Watched.run { loop } moves).loop.service = target.endpoint :=
    (Watched.service_run { loop } moves).trans (build_eq h).1
  refine ⟨hservice ▸ ((square_build h).run moves).raced batch hbatch, fun w hw => ?_⟩
  have hsince : w ∈ (Watched.run { loop } moves).since :=
    List.mem_append_left _ (List.mem_flatten.2 ⟨batch, hbatch, hw⟩)
  exact (Watched.since_run hsince).resolve_left List.not_mem_nil

/-- **Without errors no change is lost**: as long as no error is injected for the name, a loop at rest
inside a call has the list that the registry holds. -/
theorem current_of_no_error (h : build o target (registry.watch delayMs) nodeSet sinks = (.ok loop, t))
    (hrest : Parked (Watched.run { loop } moves).loop)
    (hmoves : ∀ w, Move.write w ∈ moves → w.error? target.endpoint = none) :
    (Watched.run { loop } moves).handed? = some (Watched.run { loop } moves).loop.current := by
  have hmissed : (Watched.run { loop } moves).missed = [] := by
    refine List.eq_nil_iff_forall_not_mem.2 fun batch hbatch => ?_
    obtain ⟨⟨-, w, hw, hinjected⟩, hwritten⟩ := raced_of_missed h hbatch
    rw [hmoves w (hwritten w hw)] at hinjected
    cases hinjected
  refine (((square_build h).run moves).current_iff hrest).2 ?_
  rintro ⟨l, -, hchanged⟩
  rw [hmissed] at hchanged
  exact hchanged rfl

/-- **A loop at rest has the current list exactly when it is owed none.** In any run of a watch loop on a
registry in memory — writes and errors on any names, turns of the loop and passing time in any order —
whenever the loop rests inside a call, the list that was handed to it last is the one that the registry
holds, unless what it has missed since then changes that list. Whatever it has missed was written to its
name in the run, together with an injected error; so without injected errors the list is the current one.
And whatever comes together with an error of the backend is missed: if it comes at this rest, and the loop
has not been told to end, the loop left to itself comes to rest again with the list that it had. -/
theorem current_iff_not_owed
    (h : build o target (registry.watch delayMs) nodeSet sinks = (.ok loop, t)) (moves : List Move)
    (hrest : Parked (Watched.run { loop } moves).loop) :
    let v := Watched.run { loop } moves
    (v.handed? = some v.loop.current ↔ ¬ v.owed) ∧
      (∀ batch ∈ v.missed, Raced target.endpoint batch ∧ ∀ w ∈ batch, Move.write w ∈ moves) ∧
      ((∀ w, Move.write w ∈ moves → w.error? target.endpoint = none) →
        v.handed? = some v.loop.current) ∧
      (v.loop.canceled = false → ∀ batch : List Write, Raced target.endpoint batch →
        (∀ w ∈ batch, w.error? target.endpoint ≠ some .canceled) →
        ∃ quiet : List Move, (∀ m ∈ quiet, m.Quiet) ∧
          let v' := v.run (batch.map .write ++ quiet)
          Parked v'.loop ∧ v'.loop.feed.registry.errors target.endpoint = [] ∧
            v'.handed? = v.handed? ∧ v'.loop.current = Write.listAfter batch v.loop.current) := by
  intro v
  have hsquare : Square v := (square_build h).run moves
  have hservice : v.loop.service = target.endpoint :=
    (Watched.service_run { loop } moves).trans (build_eq h).1
  refine ⟨hsquare.current_iff hrest, fun batch => raced_of_missed h, current_of_no_error h hrest, ?_⟩
  intro hlive batch hraced hbackend
  rw [← hservice] at hraced hbackend ⊢
  exact lost_of_race hsquare hrest hlive hraced hbackend

end

/-- An error long before a registration, and a registration after it. -/
def inTurn : List Move :=
  [.step, .step, .write (.inject "order" (.backend "leader changed")), .step, .pass 20, .step, .step,
    .write (.register (orderAt "2" "10.0.0.2")), .step, .step]

/-- A registration and an error. -/
def together : List Write :=
  [.register (orderAt "3" "10.0.0.3"), .inject "order" (.backend "no leader")]

/-- The error and the registration come apart and nothing is missed; then another registration and an error
come together, and the third instance is. -/
theorem current_in_turn :
    let v := Watched.run { loop := orderLoop } inTurn
    Parked v.loop ∧ v.handed? = some [orderAt "1" "10.0.0.1", orderAt "2" "10.0.0.2"] ∧
      Raced "order" together ∧
      ∃ quiet : List Move, (∀ m ∈ quiet, m.Quiet) ∧
        let v' := v.run (together.map .write ++ quiet)
        Parked v'.loop ∧ v'.handed? = some [orderAt "1" "10.0.0.1", orderAt "2" "10.0.0.2"] ∧
          v'.loop.current
            = [orderAt "1" "10.0.0.1", orderAt "2" "10.0.0.2", orderAt "3" "10.0.0.3"] := by
  intro v
  have hrest : Parked v.loop := ⟨rfl, rfl, rfl⟩
  have hraced : Raced "order" together := by
    refine ⟨by simp [together, Write.name, orderAt], _, List.mem_cons_of_mem _ List.mem_cons_self, rfl⟩
  have hbackend : ∀ w ∈ together, w.error? "order" ≠ some .canceled := by
    simp [together, Write.error?]
  obtain ⟨hcurrent, -, -, hlost⟩ := current_iff_not_owed build_orderLoop inTurn hrest
  have hhanded : v.handed? = some [orderAt "1" "10.0.0.1", orderAt "2" "10.0.0.2"] := by
    refine hcurrent.2 ?_
    rintro ⟨l, -, hchanged⟩
    exact hchanged rfl
  obtain ⟨quiet, hquiet, hparked, -, hsame, hlist⟩ := hlost rfl together hraced hbackend
  exact ⟨hrest, hhanded, hraced, quiet, hquiet, hparked, hsame.trans hhanded, hlist⟩

/-- A registration and an error before the loop gets its turn. -/
def atOnce : List Move :=
  [.step, .step, .write (.register (orderAt "2" "10.0.0.2")),
    .write (.inject "order" (.backend "leader changed")), .step, .pass 20, .step, .step]

/-- The loop rests, the error is gone, nobody has closed anything, and the second instance is missing
from what the loop has been handed. -/
theorem not_current_at_once :
    Parked (Watched.run { loop := orderLoop } atOnce).loop ∧
      (Watched.run { loop := orderLoop } atOnce).loop.closed = false ∧
      (Watched.run { loop := orderLoop } atOnce).loop.feed.registry.errors "order" = [] ∧
      (Watched.run { loop := orderLoop } atOnce).loop.current
        = [orderAt "1" "10.0.0.1", orderAt "2" "10.0.0.2"] ∧
      (Watched.run { loop := orderLoop } atOnce).handed? = some [orderAt "1" "10.0.0.1"] ∧
      (Watched.run { loop := orderLoop } atOnce).handed?
        ≠ some (Watched.run { loop := orderLoop } atOnce).loop.current := by
  refine ⟨⟨rfl, rfl, rfl⟩, rfl, rfl, rfl, rfl, ?_⟩
  intro h
  have hlength := congrArg (Option.map List.length) h
  exact absurd hlength (by decide)

end Steering.Resolver
