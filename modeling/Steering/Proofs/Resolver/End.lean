import Steering.Proofs.Resolver.Table

/-!
# `Steering.Proofs.Resolver.End` — nothing after the end

Closing a resolver, or forgetting it, only leaves a mark, and the loop may be anywhere when it does:
inside a call, in the middle of a publication, asleep after an error with the time just over. What it
does from then on is the same in all of these places. It looks at the mark before it would look at the
feed or at the clock, so its moves can no longer depend on the feed (`events_on`), and the feed no longer
moves by its turns (`feed_after`). What it has still to say are the sinks that a publication in progress
has not told, one after the other, and that it has ended (`exists_events_eq`).

A loop that was told by its feed that watching has ended is in the same position without a mark.

A mark is set between two turns and never inside one, because a turn is taken to be one poll
(`Steering.Resolver`). A closing that falls into a poll counts here as one that comes after it, when the
publication that the poll has started is already in progress.
-/

namespace Steering

/-- The errors that some happenings queue for a name. -/
def queued (name : String) (hs : List (Happening Write)) : List RegistryError :=
  hs.filterMap fun
    | .change w => w.error? name
    | _ => none

namespace Resolver

variable {σ : Type} {r r' : Resolver σ}

/-- A loop that has been told to end, or has ended. -/
def Over (r : Resolver σ) : Prop := r.canceled = true ∨ r.phase = .ended

/-- The next sinks that a publication in progress tells. -/
def tellings : Phase → Nat → List Event
  | .delivering addresses i, k => (List.range' i k).map fun j => .delivered j addresses
  | _, _ => []

@[simp] theorem tellings_zero (p : Phase) : tellings p 0 = [] := by cases p <;> rfl

@[simp] theorem tellings_ended (k : Nat) : tellings .ended k = [] := rfl

def on (r : Resolver σ) (feed : σ) : Resolver σ := { r with feed }

theorem deliver_on (r : Resolver σ) (feed : σ) (addresses : List Address) (i : Nat) :
    (r.on feed).deliver addresses i = (r.deliver addresses i).on feed := by
  simp only [deliver, on]
  cases r.sinks[i]? <;> rfl

theorem phase_deliver (r : Resolver σ) (addresses : List Address) (i : Nat) :
    (r.deliver addresses i).phase = .listing ∨
      (r.deliver addresses i).phase = .delivering addresses i := by
  rw [deliver]
  cases r.sinks[i]? with
  | none => exact Or.inl rfl
  | some sink => exact Or.inr rfl

/-! ## Turns after the end -/

section

variable [Feed σ]

/-- **A loop that is over does not look at the feed**: with any other in its place it would do the same,
and leave it as it is. -/
theorem step_on (h : Over r) (feed : σ) :
    (r.on feed).step = (r.step.1.on feed, r.step.2) := by
  cases hp : r.phase with
  | ended => simp only [step, on, hp]
  | listing =>
    -- the mark comes before the call
    have hc : r.canceled = true := h.resolve_right (by simp [hp])
    simp only [step, on, hp, hc, if_true]
  | sleeping wake =>
    have hc : r.canceled = true := h.resolve_right (by simp [hp])
    simp only [step, on, hp, hc, if_true]
  | delivering addresses i =>
    simp only [step, on, hp]
    cases r.sinks[i]? with
    | none => rfl
    | some sink =>
      dsimp only
      by_cases hb : sink.resume.isBusy = true
      · rw [if_pos hb, if_pos hb]
      · rw [if_neg hb, if_neg hb]
        let told : Resolver σ :=
          { r with sinks := r.sinks.set i sink.resume, phase := .delivering addresses i }
        exact congrArg (·, _) (deliver_on told feed addresses (i + 1))

theorem feed_step (h : Over r) : r.step.1.feed = r.feed :=
  congrArg (fun x => x.1.feed) (step_on h r.feed)

/-- What a turn after the end comes to: nothing, the end, or the sink that is next. -/
theorem step_over_cases (h : Over r) :
    (r.step.2 = none ∧ r.step.1.phase = r.phase ∧
        (r.phase = .ended ∨ ∃ addresses i, r.phase = .delivering addresses i)) ∨
      (r.step.2 = some .ended ∧ r.phase ≠ .ended ∧ r.step.1.phase = .ended) ∨
      ∃ addresses i, r.phase = .delivering addresses i ∧
        r.step.2 = some (.delivered i addresses) ∧
        (r.step.1.phase = .listing ∨ r.step.1.phase = .delivering addresses (i + 1)) := by
  cases hp : r.phase with
  | ended =>
    refine Or.inl ?_
    simp [step, hp]
  | listing =>
    have hc : r.canceled = true := h.resolve_right (by simp [hp])
    refine Or.inr (Or.inl ?_)
    simp [step, hp, hc]
  | sleeping wake =>
    have hc : r.canceled = true := h.resolve_right (by simp [hp])
    refine Or.inr (Or.inl ?_)
    simp [step, hp, hc]
  | delivering addresses i =>
    simp only [step, hp]
    cases r.sinks[i]? with
    | none => exact Or.inr (Or.inr ⟨addresses, i, rfl, rfl, Or.inl rfl⟩)
    | some sink =>
      dsimp only
      by_cases hb : sink.resume.isBusy = true
      · rw [if_pos hb]
        exact Or.inl ⟨rfl, rfl, Or.inr ⟨addresses, i, rfl⟩⟩
      · rw [if_neg hb]
        exact Or.inr (Or.inr ⟨addresses, i, rfl, rfl, phase_deliver _ addresses (i + 1)⟩)

theorem phase_of_heard_canceled (h : r.step.2 = some (.heard (.error .canceled))) :
    r.step.1.phase = .ended := by
  rcases exists_step_eq r with ⟨hp, hc, -, -, -, hreply⟩ | ⟨-, -, -, hnone⟩
  · rw [h] at hreply
    have hask : Feed.ask r.now r.feed = (some (.error .canceled), (Feed.ask r.now r.feed).2) :=
      Prod.ext hreply.symm rfl
    rw [step, hp]
    dsimp only
    rw [if_neg (by simp [hc]), hask]
    rfl
  · rw [h] at hnone
    cases hnone

end

/-! ## Marks -/

section

variable {ω : Type} [Feed σ] [Backend σ ω]

theorem marks_step (r : Resolver σ) :
    r.step.1.canceled = r.canceled ∧ r.step.1.closed = r.closed := by
  rcases exists_step_eq r with ⟨-, -, _, _, hstep, -⟩ | ⟨_, _, hstep, -⟩ <;>
  · rw [hstep]
    exact ⟨rfl, rfl⟩

/-- A closed loop has been told to end. -/
def Told (r : Resolver σ) : Prop := r.closed = true → r.canceled = true

theorem closed_close (r : Resolver σ) : r.close.2.closed = true := by
  rw [close]
  split
  · assumption
  · rfl

theorem Told.canceled_close (hr : Told r) : r.close.2.canceled = true := by
  rw [close]
  split
  · exact hr ‹_›
  · rfl

theorem close_of_closed (h : r.closed = true) : r.close = (.ok (), r) := by
  rw [close, if_pos h]

theorem closed_act (r : Resolver σ) (h : Happening ω) (hr : r.closed = true) :
    (r.act h).2.closed = true := by
  cases h with
  | turn => exact (marks_step r).2.trans hr
  | close => exact closed_close r
  | _ => exact hr

theorem canceled_act (r : Resolver σ) (h : Happening ω) (hr : r.canceled = true) :
    (r.act h).2.canceled = true := by
  cases h with
  | turn => exact (marks_step r).1.trans hr
  | close => exact Told.canceled_close fun _ => hr
  | drop => rfl
  | _ => exact hr

theorem Told.act (hr : Told r) (h : Happening ω) : Told (r.act h).2 := by
  intro hclosed
  cases h with
  | turn => exact (marks_step r).1.trans (hr ((marks_step r).2.symm.trans hclosed))
  | close => exact hr.canceled_close
  | drop => rfl
  | _ => exact hr hclosed

theorem Told.after (hr : Told r) (hs : List (Happening ω)) : Told (r.after hs) := by
  induction hs generalizing r with
  | nil => exact hr
  | cons h rest ih => exact ih (hr.act h)

theorem closed_after (hs : List (Happening ω)) (h : r.closed = true ∨ .close ∈ hs) :
    (r.after hs).closed = true := by
  induction hs generalizing r with
  | nil => exact h.resolve_right List.not_mem_nil
  | cons first rest ih =>
    refine ih ?_
    rcases h with h | h
    · exact Or.inl (closed_act r first h)
    · rcases List.mem_cons.1 h with rfl | hlater
      · exact Or.inl (closed_close r)
      · exact Or.inr hlater

/-! ## The end -/

/-- Whether a happening ends a loop: it is closed or forgotten, or told that watching has ended. -/
def Ends (r : Resolver σ) : Happening ω → Prop
  | .turn => r.step.2 = some (.heard (.error .canceled))
  | .close | .drop => True
  | _ => False

theorem over_of_ends {h : Happening ω} (hr : Told r) (hends : Ends r h) : Over (r.act h).2 := by
  cases h with
  | turn => exact Or.inr (phase_of_heard_canceled hends)
  | close => exact Or.inl hr.canceled_close
  | drop => exact Or.inl rfl
  | _ => exact hends.elim

/-- Only the loop's own turns have events or lead it from one phase to another. -/
theorem act_of_not_turn {h : Happening ω} (hh : h.isTurn = false) (r : Resolver σ) :
    (r.act h).1 = none ∧ (r.act h).2.phase = r.phase := by
  cases h with
  | turn => cases hh
  | close =>
    rw [act, close]
    split <;> exact ⟨rfl, rfl⟩
  | _ => exact ⟨rfl, rfl⟩

theorem ended_act (hr : r.phase = .ended) (h : Happening ω) : (r.act h).2.phase = .ended := by
  cases hturn : h.isTurn with
  | true =>
    obtain rfl := Happening.isTurn_iff.1 hturn
    simp [act, step, hr]
  | false => exact (act_of_not_turn hturn r).2.trans hr

theorem ended_after (hr : r.phase = .ended) (hs : List (Happening ω)) :
    (r.after hs).phase = .ended := by
  induction hs generalizing r with
  | nil => exact hr
  | cons h rest ih => exact ih (ended_act hr h)

theorem Over.act (hr : Over r) (h : Happening ω) : Over (r.act h).2 :=
  hr.imp (canceled_act r h) fun hp => ended_act hp h

/-- A loop in the moment of its end: it has been started, and what has happened last ends it. -/
inductive AtEnd (discover : String → Opening σ) : Resolver σ → Prop
  | intro {o : Options} {target : Target} {nodeSet : NodeSet} {sinks : List Sink}
      {loop : Resolver σ} {t : Nat} (built : build o target discover nodeSet sinks = (.ok loop, t))
      (before : List (Happening ω)) (last : Happening ω) (ends : Ends (loop.after before) last) :
      AtEnd discover (loop.after (before ++ [last]))

theorem AtEnd.over {discover : String → Opening σ} (h : AtEnd discover r) : Over r ∧ Told r := by
  cases h with
  | @intro o target nodeSet sinks loop t built before last ends =>
    have hnew : Told loop := by
      obtain ⟨feed, -, rfl⟩ := eq_of_build built
      exact nofun
    rw [after_append]
    exact ⟨over_of_ends (hnew.after before) ends, (hnew.after before).act last⟩

/-! ## Runs after the end -/

/-- **What a loop has still to say after the end**: the next sinks of the publication in progress, if
there is one, and that it has ended. -/
theorem exists_events_eq (h : Over r) (rest : List (Happening ω)) :
    ∃ k ends, r.events rest = tellings r.phase k ++ ends ∧
      (ends = [] ∨ ends = [.ended] ∧ r.phase ≠ .ended) := by
  induction rest generalizing r with
  | nil => exact ⟨0, [], by simp, Or.inl rfl⟩
  | cons first rest ih =>
    obtain ⟨k, ends, hrest, hends⟩ := ih (h.act first)
    rw [events_cons, hrest]
    cases hturn : first.isTurn with
    | true =>
      obtain rfl := Happening.isTurn_iff.1 hturn
      change _ = [] ∨ _ = _ ∧ r.step.1.phase ≠ .ended at hends
      show ∃ k' ends', r.step.2.toList ++ (tellings r.step.1.phase k ++ ends) = _ ∧ _
      -- what is left after the turn depends on the phase that it leads to
      rcases step_over_cases h with
        ⟨hnone, hphase, -⟩ | ⟨hended, hne, hphase⟩ | ⟨addresses, i, hp, htold, hphase | hphase⟩
      · rw [hnone, hphase]
        rw [hphase] at hends
        exact ⟨k, ends, rfl, hends⟩
      · rw [hended, hphase]
        obtain rfl : ends = [] := hends.resolve_right fun hlate => hlate.2 hphase
        exact ⟨0, [.ended], by simp, Or.inr ⟨rfl, hne⟩⟩
      · rw [htold, hphase, hp]
        exact ⟨1, ends, by simp [tellings], hends.imp_right fun hlate => ⟨hlate.1, nofun⟩⟩
      · rw [htold, hphase, hp]
        exact ⟨k + 1, ends, by simp [tellings, List.range'_succ],
          hends.imp_right fun hlate => ⟨hlate.1, nofun⟩⟩
    | false =>
      obtain ⟨hnone, hphase⟩ := act_of_not_turn hturn r
      rw [hphase] at hends ⊢
      rw [hnone]
      exact ⟨k, ends, rfl, hends⟩

/-- A loop that has no publication in progress ends with its next turn. -/
theorem phase_after_turn (h : Over r) (hidle : ∀ addresses i, r.phase ≠ .delivering addresses i)
    (rest : List (Happening ω)) (hrest : .turn ∈ rest) : (r.after rest).phase = .ended := by
  induction rest generalizing r with
  | nil => exact absurd hrest List.not_mem_nil
  | cons first rest ih =>
    cases hturn : first.isTurn with
    | true =>
      obtain rfl := Happening.isTurn_iff.1 hturn
      refine ended_after ?_ rest
      rcases step_over_cases h with
        ⟨-, hphase, hp | ⟨addresses, i, hp⟩⟩ | ⟨-, -, hphase⟩ | ⟨addresses, i, hp, -⟩
      · exact hphase.trans hp
      · exact absurd hp (hidle addresses i)
      · exact hphase
      · exact absurd hp (hidle addresses i)
    | false =>
      have hphase := (act_of_not_turn hturn r).2
      refine ih (h.act first) (by rwa [hphase]) ((List.mem_cons.1 hrest).resolve_left ?_)
      rintro rfl
      cases hturn

theorem delivered_of_over (h : Over r) (rest : List (Happening ω)) : r.delivered rest = [] := by
  obtain ⟨k, ends, hevents, hends⟩ := exists_events_eq h rest
  rw [delivered, hevents, List.filterMap_eq_nil_iff]
  intro e he
  rcases List.mem_append.1 he with htold | hend
  · cases hp : r.phase with
    | delivering addresses i =>
      rw [hp] at htold
      obtain ⟨j, -, rfl⟩ := List.mem_map.1 htold
      rfl
    | _ =>
      rw [hp] at htold
      cases htold
  · rcases hends with rfl | ⟨rfl, -⟩
    · cases hend
    · rw [List.mem_singleton.1 hend]
      rfl

theorem exists_act_on (h : Over r) (feed : σ) (first : Happening ω) :
    ∃ feed', (r.on feed).act first = ((r.act first).1, (r.act first).2.on feed') := by
  cases first with
  | turn => exact ⟨feed, congrArg Prod.swap (step_on h feed)⟩
  | change w => exact ⟨Backend.change feed w, rfl⟩
  | close =>
    rw [act, act, close, close]
    cases hc : r.closed with
    | true =>
      exact ⟨feed, by simp [on, hc]⟩
    | false => exact ⟨(Feed.stop feed).2, by simp [on, hc]⟩
  | _ => exact ⟨feed, rfl⟩

theorem events_on (h : Over r) (feed : σ) (rest : List (Happening ω)) :
    (r.on feed).events rest = r.events rest := by
  induction rest generalizing r feed with
  | nil => rfl
  | cons first rest ih =>
    obtain ⟨feed', hact⟩ := exists_act_on h feed first
    rw [events_cons, events_cons, hact, ih (h.act first)]

/-- What others make of a feed does not depend on the rest of the loop. -/
theorem feed_act_congr {first : Happening ω} (hfirst : first.isTurn = false)
    (hfeed : r'.feed = r.feed) (hclosed : r'.closed = r.closed) :
    (r'.act first).2.feed = (r.act first).2.feed ∧ (r'.act first).2.closed = (r.act first).2.closed := by
  cases first with
  | turn => cases hfirst
  | change w => exact ⟨congrArg (Backend.change · w) hfeed, hclosed⟩
  | close =>
    rw [act, act, close, close, hclosed, hfeed]
    split
    · exact ⟨hfeed, hclosed⟩
    · exact ⟨rfl, rfl⟩
  | _ => exact ⟨hfeed, hclosed⟩

/-- **The feed after the end is what others make of it.** -/
theorem feed_after (h : Over r) (rest : List (Happening ω)) (hfeed : r'.feed = r.feed)
    (hclosed : r'.closed = r.closed) :
    (r.after rest).feed = (r'.after (rest.filter fun first => !first.isTurn)).feed := by
  induction rest generalizing r r' with
  | nil => exact hfeed.symm
  | cons first rest ih =>
    cases hturn : first.isTurn with
    | true =>
      -- a turn is left out on the right, and changes nothing on the left
      obtain rfl := Happening.isTurn_iff.1 hturn
      rw [List.filter_cons_of_neg (by simp [hturn])]
      exact ih (h.act .turn) (hfeed.trans (feed_step h).symm)
        (hclosed.trans (marks_step r).2.symm)
    | false =>
      obtain ⟨hfeed', hclosed'⟩ := feed_act_congr hturn hfeed hclosed
      rw [List.filter_cons_of_pos (by simp [hturn])]
      exact ih (h.act first) hfeed' hclosed'

end

/-! ## A registry in memory after the end -/

section

variable {r : Resolver Subscription}

/-- The mark of a stopped watcher is all that closing leaves in a registry in memory. -/
theorem exists_close_eq (hr : Told r) : ∃ watcher, r.close = (.ok (),
    { r with feed := { r.feed with watcher }, canceled := true, closed := true }) := by
  cases hclosed : r.closed with
  | true =>
    have hcanceled := hr hclosed
    refine ⟨r.feed.watcher, (close_of_closed hclosed).trans ?_⟩
    cases r
    cases hclosed
    cases hcanceled
    rfl
  | false =>
    refine ⟨r.feed.watcher.stop, ?_⟩
    rw [close, if_neg (by simp [hclosed])]
    rfl

theorem errors_act (h : Over r) (first : Happening Write) (name : String) :
    (r.act first).2.feed.registry.errors name
      = r.feed.registry.errors name ++ queued name [first] := by
  cases first with
  | turn =>
    rw [act, feed_step h]
    simp [queued]
  | change w =>
    show (w.apply r.feed.registry).errors name = _
    rw [Write.errors_apply]
    cases herror : w.error? name <;> simp [queued, herror]
  | close =>
    rw [act, close]
    split <;> simp [queued, Feed.stop]
  | _ => simp [act, queued, drop]

theorem errors_after (h : Over r) (rest : List (Happening Write)) (name : String) :
    (r.after rest).feed.registry.errors name
      = r.feed.registry.errors name ++ queued name rest := by
  induction rest generalizing r with
  | nil => simp [queued]
  | cons first rest ih =>
    rw [after_cons, ih (h.act first), errors_act h, List.append_assoc]
    simp only [queued, ← List.filterMap_append, List.singleton_append]

end

/-- **Nothing is published after the end.** Take a loop in the moment in which it is closed or
forgotten, or told that watching has ended, wherever that finds it, and let anything follow: changes,
errors, time, turns. No answer is dealt with and no publication is begun. All that comes are the sinks
that a publication in progress has not told yet, and the end, which comes with the next turn if there is
no such publication. The loop is blind to its feed and the feed to the loop, so no call is made. The
table stays, and closing once more does nothing and is in order. If the feed is a registry in memory,
closing a loop that ended by itself is in order too, and every error that is queued afterwards stays in
the queue. -/
theorem nothing_after_end (σ ω : Type) [Feed σ] [Backend σ ω] :
    (∀ (discover : String → Opening σ) (r : Resolver σ), AtEnd discover r →
      ∀ rest : List (Happening ω),
        (∃ k ends, r.events rest = tellings r.phase k ++ ends ∧ (ends = [] ∨ ends = [.ended])) ∧
          ((∀ addresses i, r.phase ≠ .delivering addresses i) → .turn ∈ rest →
            (r.after rest).phase = .ended) ∧
          (∀ feed, (r.on feed).events rest = r.events rest) ∧
          (r.after rest).feed = (r.after (rest.filter fun h => !h.isTurn)).feed ∧
          (r.after rest).nodeSet.nodes = r.nodeSet.nodes ∧
          (r.closed = true ∨ .close ∈ rest → (r.after rest).close = (.ok (), r.after rest))) ∧
    ∀ (discover : String → Opening Subscription) (r : Resolver Subscription), AtEnd discover r →
      ∀ rest : List (Happening Write),
        (∃ watcher, (r.after rest).close = (.ok (),
          { r.after rest with
            feed := { (r.after rest).feed with watcher }, canceled := true, closed := true })) ∧
          ∀ name, (r.after rest).feed.registry.errors name
            = r.feed.registry.errors name ++ queued name rest := by
  constructor
  · intro discover r hend rest
    obtain ⟨hover, -⟩ := hend.over
    refine ⟨?_, fun hidle => phase_after_turn hover hidle rest, fun feed => events_on hover feed rest,
      feed_after hover rest rfl rfl, ?_, ?_⟩
    · obtain ⟨k, ends, hevents, hends⟩ := exists_events_eq hover rest
      exact ⟨k, ends, hevents, hends.imp_right And.left⟩
    · rw [nodes_after, delivered_of_over hover]
      rfl
    · intro hclosed
      exact close_of_closed (closed_after rest hclosed)
  · intro discover r hend rest
    obtain ⟨hover, htold⟩ := hend.over
    exact ⟨exists_close_eq (htold.after rest), errors_after hover rest⟩

/-- The loop sleeps after an error, its time is over, and an instance has come. -/
def overslept : List (Happening Write) :=
  [.turn, .change (.inject "order" (.backend "leader changed")), .turn,
    .change (.register (orderAt "2" "10.0.0.2")), .clock 20]

theorem nothing_after_end_overslept :
    let discover := (Registry.ofServices [orderAt "1" "10.0.0.1"]).watch 0
    let r := orderLoop.after (overslept ++ [.close])
    let rest := [.turn, .change (.inject "order" (.backend "again")), .turn]
    AtEnd discover r ∧ r.events rest = [.ended] ∧ (r.after rest).phase = .ended ∧
      (r.after rest).nodeSet.nodes.map WeightedNode.address = ["10.0.0.1:9000"] ∧
      (r.after rest).close = (.ok (), r.after rest) ∧
      (r.after rest).feed.registry.errors "order" = [.backend "again"] := by
  intro discover r rest
  have hend : AtEnd discover r := .intro build_orderLoop overslept .close trivial
  obtain ⟨-, hended, -, -, hnodes, hclose⟩ := (nothing_after_end Subscription Write).1 discover r hend rest
  obtain ⟨-, herrors⟩ := (nothing_after_end Subscription Write).2 discover r hend rest
  refine ⟨hend, rfl, hended nofun (by simp [rest]), ?_, hclose (Or.inl rfl), herrors "order"⟩
  rw [hnodes]
  decide

end Resolver

end Steering
