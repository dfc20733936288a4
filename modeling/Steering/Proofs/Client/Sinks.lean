import Steering.Proofs.Client.Channels
import Steering.Proofs.Resolver.Standstill

/-!
# `Steering.Proofs.Client.Sinks` — how far sinks matter for routing

A publication reaches the routing table before it reaches the sinks, so a list that the loop has got is
never kept from the table. On a registry in memory more is true. Who has just been handed a list finds
nothing new by asking again, so at the moment at which a loop is held up, the loop without sinks has
nothing to do either.

A client with sinks and the same client without them therefore have the same table at every rest up to
and including the first at which the loop is held up (`nodeSet_course`). From there on the one with sinks
has the table of that moment until the receiver takes something, and the other one goes on.
-/

namespace Steering

namespace Resolver

/-! ## A loop on a registry in memory -/

/-- Who has just been handed a list has nothing to ask for. -/
theorem ask_of_listed {s s' : Subscription} {services : List Service}
    (h : s.ask = (some (.ok services), s')) : s'.ask.1 = none := by
  have hlook := look_ask s
  rw [h] at hlook
  cases hlook with
  | listed hstop hnews herr =>
    have hagain := look_ask ⟨s.registry, s.watcher.caughtUp s.registry⟩
    have hseen : (s.watcher.caughtUp s.registry).isBehind s.registry = false :=
      decide_eq_false (Nat.lt_irrefl _)
    generalize Subscription.ask _ = answer at hagain ⊢
    obtain ⟨reply?, s''⟩ := answer
    cases hagain with
    | parks => rfl
    | refused w hstop' hw => exact absurd hstop' (by simp [Watcher.caughtUp, hstop])
    | failed e registry hstop' hstage herr' =>
      rw [show s.registry.takeError? (s.watcher.caughtUp s.registry).name = none from herr] at herr'
      cases herr'
    | listed hstop' hnews' herr' =>
      obtain hfresh | hbehind := hnews'
      · cases hfresh
      · rw [hseen] at hbehind
        cases hbehind
    | spent e registry hstop' hstage hbehind herr' =>
      rw [hseen] at hbehind
      cases hbehind

/-- A loop that tells somebody would find nothing new if it asked. -/
def Informed (r : Resolver Subscription) : Prop :=
  r.phase.isDelivering = true → (Feed.ask r.now r.feed).1 = none

theorem Informed.step {r : Resolver Subscription} (h : r.Informed) : r.step.1.Informed := by
  rw [Resolver.step]
  cases hphase : r.phase with
  | ended => exact h
  | sleeping wake =>
    dsimp only
    split
    · rintro ⟨⟩
    · split
      · rintro ⟨⟩
      · exact h
  | delivering addresses i =>
    have hnone : (Feed.ask r.now r.feed).1 = none := h (by rw [hphase]; rfl)
    dsimp only
    split
    · rintro ⟨⟩
    · split
      · exact fun _ => hnone
      · intro _
        obtain ⟨sinks, phase, hdeliver⟩ := exists_deliver_eq _ addresses (i + 1)
        rw [hdeliver]
        exact hnone
  | listing =>
    dsimp only
    split
    · rintro ⟨⟩
    · cases hask : Feed.ask r.now r.feed with
      | mk reply? feed =>
        cases reply? with
        | none => rintro ⟨⟩
        | some reply =>
          cases reply with
          | error e => cases e <;> rintro ⟨⟩
          | ok services =>
            intro _
            let heard : Resolver Subscription := { r with feed, phase := .listing }
            obtain ⟨sinks, phase, hhear⟩ := exists_hear_eq heard (.ok services)
            show (Feed.ask _ (heard.hear (.ok services)).1.feed).1 = none
            rw [hhear]
            exact ask_of_listed hask

theorem informed_settle {r : Resolver Subscription} (hr : r.phase.isDelivering = false) :
    r.settle.2.Informed := by
  have hbefore : r.Informed := fun h => absurd (hr.symm.trans h) (by simp)
  exact settle_induction (fun _ h => h.step) hbefore

/-- **The table at a rest does not depend on the sinks**, whether the loop tells somebody then or not, if it
told nobody when it got its turn. -/
theorem nodeSet_settle {r : Resolver Subscription} (hr : r.phase.isDelivering = false) :
    r.settle.2.nodeSet = r.bare.settle.2.nodeSet := by
  cases hafter : r.settle.2.phase.isDelivering with
  | false => rw [← bare_settle hafter, nodeSet_bare]
  | true =>
    -- the bare loop goes on from where the other one is held up, and finds nothing
    obtain ⟨k, hk⟩ := r.exists_bare_settle
    obtain ⟨addresses, i, hphase⟩ := Phase.exists_eq_of_isDelivering hafter
    have hlisting : r.settle.2.bare.phase = .listing := by rw [bare, hphase]; rfl
    obtain ⟨hrest, hnodes⟩ := rests_of_ask_none hlisting (informed_settle hr hafter)
    have hnext : moved r.settle.2.bare = moved^[k + 1] r.bare := by
      rw [hk, Function.iterate_succ_apply']
    rw [hnext] at hrest hnodes
    rw [settle_eq_of_rest hrest, hnodes, nodeSet_bare]

/-! ## With sinks and without -/

/-- A run as far as it is not about the sinks. -/
def aside (hs : List (Happening Write)) : List (Happening Write) := hs.filter fun what => !what.isSinks

theorem aside_cons {what : Happening Write} (hsinks : what.isSinks = false)
    (hs : List (Happening Write)) : aside (what :: hs) = what :: aside hs := by
  rw [aside, List.filter_cons_of_pos (by simp [hsinks])]
  rfl

/-- One happening of a loop that told nobody before, as the bare loop sees it. -/
theorem bare_attend {r : Resolver Subscription} (hr : r.phase.isDelivering = false)
    (what : Happening Write) :
    (r.attend what).nodeSet = (r.bare.course (aside [what])).nodeSet ∧
      ((r.attend what).phase.isDelivering = false →
        (r.attend what).bare = r.bare.course (aside [what])) := by
  cases hsinks : what.isSinks with
  | true =>
    cases what with
    | sinks sinks => exact ⟨rfl, fun _ => rfl⟩
    | _ => cases hsinks
  | false =>
    rw [aside_cons hsinks]
    cases hturn : what.isTurn with
    | true =>
      rw [Happening.isTurn_iff.1 hturn]
      exact ⟨nodeSet_settle hr, bare_settle⟩
    | false =>
      have hsame := r.bare_attend_of_not_turn hturn hsinks
      have hnodes : (r.attend what).bare.nodeSet = (r.bare.attend what).nodeSet := by rw [hsame]
      exact ⟨hnodes, fun _ => hsame⟩

/-- **As long as nothing happens while the loop tells somebody, its table is that of the bare loop.** -/
theorem nodeSet_course {r : Resolver Subscription} {hs : List (Happening Write)} (h : r.Flowing hs) :
    (r.course hs).nodeSet = (r.bare.course (aside hs)).nodeSet := by
  induction hs generalizing r with
  | nil => rfl
  | cons what rest ih =>
    obtain ⟨hr, hrest⟩ := h
    obtain ⟨hnodes, hbare⟩ := bare_attend hr what
    have hsplit : aside (what :: rest) = aside [what] ++ aside rest := by
      rw [aside, aside, aside, ← List.filter_append]
      rfl
    rw [hsplit, course_append, course_cons]
    cases hafter : (r.attend what).phase.isDelivering with
    | false =>
      rw [← hbare hafter]
      exact ih hrest
    | true =>
      -- the loop is held up, so this was the last thing to happen
      cases rest with
      | nil => exact hnodes
      | cons later rest => exact absurd (hrest.1.symm.trans hafter) (by simp)

/-- A new loop is the same whether it has sinks or not, apart from them. -/
theorem build_bare {σ : Type} {o : Options} {target : Target} {discover : String → Opening σ}
    {nodeSet : NodeSet} {sinks : List Sink} {r : Resolver σ}
    (h : (build o target discover nodeSet sinks).1 = .ok r) :
    r.phase = .listing ∧ r.sinks = sinks ∧ (build o target discover nodeSet []).1 = .ok r.bare := by
  rw [build] at h ⊢
  split at h
  · cases h
  · rename_i hintime
    rw [if_neg hintime]
    cases hresult : (discover target.endpoint).result with
    | error e =>
      rw [hresult] at h
      cases h
    | ok feed =>
      rw [hresult] at h
      cases h
      exact ⟨rfl, rfl, rfl⟩

end Resolver

namespace Client

open Resolver

theorem build_bare {σ : Type} {timer : Timer} {p : Plan σ} {chance : Chance} {c : Client σ}
    (h : (build timer p chance).1 = .ok c) :
    c.resolver.phase = .listing ∧ c.resolver.sinks = p.sinks ∧
      (build timer { p with sinks := [] } chance).1 = .ok { c with resolver := c.resolver.bare } := by
  rw [build] at h ⊢
  rw [show ({ p with sinks := [] } : Plan σ).check = p.check from rfl]
  cases hcheck : p.check with
  | error e =>
    rw [hcheck] at h
    cases h
  | ok found =>
    obtain ⟨discover, target⟩ := found
    rw [hcheck] at h
    dsimp only at h ⊢
    cases hbuilt : (Resolver.build (.ofSettings timer p.settings chance.word) target discover
        (p.nodeSet chance.stream) p.sinks).1 with
    | error e =>
      rw [hbuilt] at h
      cases h
    | ok r =>
      rw [hbuilt] at h
      cases h
      obtain ⟨hphase, hsinks, hbare⟩ := Resolver.build_bare hbuilt
      refine ⟨hphase, hsinks, ?_⟩
      rw [show ({ p with sinks := [] } : Plan σ).nodeSet chance.stream = p.nodeSet chance.stream from rfl,
        hbare]
      rfl

/-- **Sinks matter for routing once one of them holds the loop up, and not before.** The client without
sinks has the same table at every rest, as long as nothing has happened while the loop was held up. If
something does, it is because a stream is open and full, and until somebody sees to the sinks the table
stays what it is. Sinks that keep nobody waiting never matter. -/
theorem sinks_matter_once_held_up {timer : Timer} {p : Plan Subscription} {chance : Chance}
    {c : Client Subscription} (h : (build timer p chance).1 = .ok c) :
    ∃ c', (build timer { p with sinks := [] } chance).1 = .ok c' ∧ ∀ hs : List (Happening Write),
      (c.resolver.Flowing hs →
        (c.resolver.course hs).nodeSet = (c'.resolver.course (aside hs)).nodeSet) ∧
      (c.resolver.Flowing hs ∨
        ∃ calm rest, hs = calm ++ rest ∧ c.resolver.Flowing calm ∧ (c.resolver.course calm).HeldUp ∧
          ∀ more : List (Happening Write), (∀ what ∈ more, what.isSinks = false) →
            (c.resolver.course (calm ++ more)).nodeSet.nodes
              = (c.resolver.course calm).nodeSet.nodes) ∧
      ((∀ sink ∈ p.sinks, sink.canHold = false) →
        (∀ sinks, .sinks sinks ∈ hs → ∀ sink ∈ sinks, sink.canHold = false) →
        c.resolver.Flowing hs) := by
  obtain ⟨hphase, hsinks, hbare⟩ := build_bare h
  have hr : c.resolver.phase.isDelivering = false := by rw [hphase]; rfl
  refine ⟨_, hbare, fun hs => ⟨nodeSet_course, ?_, fun hplan hhs => ?_⟩⟩
  · obtain hflowing | ⟨calm, rest, heq, hcalm, hheld⟩ := flowing_or_heldUp hr hs
    · exact Or.inl hflowing
    · refine Or.inr ⟨calm, rest, heq, hcalm, hheld, fun more hnone => ?_⟩
      rw [course_append]
      exact (hheld.course hnone).2
  · have hobliged : c.resolver.Obliged := by
      rw [Obliged, hsinks]
      exact hplan
    exact hobliged.flowing hr hhs

/-- Three instances come, one after the other. -/
def arrivals : List (Happening Write) :=
  [.change (.register (orderAt "1" "10.0.0.1")), .turn,
    .change (.register (orderAt "2" "10.0.0.2")), .turn,
    .change (.register (orderAt "3" "10.0.0.3")), .turn]

/-- With a stream for one change the loop is held up by the second of three arrivals, and up to then the
table is that of the client without it. -/
theorem sinks_matter_once_held_up_by_two :
    let c := clientFor [.stream { capacity := 1 }]
    c.resolver.Flowing (arrivals.take 4) ∧ ¬ c.resolver.Flowing arrivals ∧
      ∃ c', (build .exact (planFor []) ⟨default, 0⟩).1 = .ok c' ∧
        (c.resolver.course (arrivals.take 4)).nodeSet
          = (c'.resolver.course (aside (arrivals.take 4))).nodeSet := by
  intro c
  have hflowing : c.resolver.Flowing (arrivals.take 4) := by decide +kernel
  have hheld : ¬ c.resolver.Flowing arrivals := by decide +kernel
  obtain ⟨c', hc', hmatter⟩ := sinks_matter_once_held_up (build_planFor [.stream { capacity := 1 }])
  exact ⟨hflowing, hheld, c', hc', (hmatter _).1 hflowing⟩

/-- The stream's receiver has taken nothing; the client with it knows two instances at rest, and the one
without it three. -/
theorem held_up_by_a_full_queue :
    (build .exact (planFor [.stream { capacity := 1 }]) ⟨default, 0⟩).1
        = .ok (clientFor [.stream { capacity := 1 }]) ∧
      (build .exact (planFor []) ⟨default, 0⟩).1 = .ok (clientFor []) ∧
      ((clientFor [.stream { capacity := 1 }]).resolver.course arrivals).step.2.isNone = true ∧
      ((clientFor []).resolver.course arrivals).step.2.isNone = true ∧
      ((clientFor [.stream { capacity := 1 }]).resolver.course arrivals).nodeSet.nodes.map
        WeightedNode.address = ["10.0.0.1:9000", "10.0.0.2:9000"] ∧
      ((clientFor []).resolver.course arrivals).nodeSet.nodes.map
        WeightedNode.address = ["10.0.0.1:9000", "10.0.0.2:9000", "10.0.0.3:9000"] :=
  ⟨rfl, rfl, by decide +kernel, by decide +kernel, by decide +kernel, by decide +kernel⟩

end Client

end Steering
