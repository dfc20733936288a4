import Steering.Proofs.NodeSet.Pick
import Steering.Proofs.Resolver.Handover

/-!
# `Steering.Proofs.Resolver.Life` — what can happen to a watch loop

A watch loop lives among others: the backend changes under it, time passes, calls are steered by the
table that it fills, sinks take or leave what they were told, and one day somebody closes it. All of that
comes in any order and between any two of its own moves, so a run is a list of happenings
(`Happening`), and what is said of a loop is said of every list. How a backend may change is part of
the kind of backend (`Backend`); for a registry in memory it is by writes.

The loop's own moves come one at a time here. `settle` and `advance` move many times at once, and they
are lists of happenings like others (`exists_turns_settle`, `exists_happenings_advance`).
-/

namespace Steering

/-- The ways in which something outside can change a source of lists. -/
class Backend (σ : Type) (ω : outParam Type) where
  change : σ → ω → σ

instance : Backend Subscription Write where
  change s w := s.write w.apply

/-- Something that happens to a watch loop, or that it does. -/
inductive Happening (ω : Type) where
  /-- The loop gets its turn. -/
  | turn
  | change (w : ω)
  | clock (now : Nat)
  /-- A call is steered by the table. -/
  | pick (c : Context) (filters : List Filter)
  /-- The sinks are replaced, or go on by themselves. -/
  | sinks (sinks : List Sink)
  | close
  | drop

namespace Happening

variable {ω : Type}

def isTurn : Happening ω → Bool
  | turn => true
  | _ => false

theorem isTurn_iff {h : Happening ω} : h.isTurn = true ↔ h = turn := by
  cases h <;> simp [isTurn]

/-- Whether a happening is one that a loop and the clock can bring about without anybody else. -/
def isOwn : Happening ω → Bool
  | turn | clock _ => true
  | _ => false

end Happening

/-- The list that an event has brought. -/
def Event.list? (e : Event) : Option (List Service) := e.reply?.bind Except.toOption

theorem Event.bind_list? (e? : Option Event) :
    e?.bind Event.list? = (e?.bind Event.reply?).bind Except.toOption := by
  cases e? <;> rfl

namespace Resolver

variable {σ ω : Type}

/-! ## Runs -/

variable [Feed σ] [Backend σ ω]

/-- What a happening makes of a loop, and the event if it was the loop's. -/
def act (r : Resolver σ) : Happening ω → Option Event × Resolver σ
  | .turn => (r.step.2, r.step.1)
  | .change w => (none, { r with feed := Backend.change r.feed w })
  | .clock now => (none, { r with now })
  | .pick c filters => (none, { r with nodeSet := ((NodeSet.Call.pick c filters).act r.nodeSet).2 })
  | .sinks sinks => (none, { r with sinks })
  | .close => (none, r.close.2)
  | .drop => (none, r.drop)

/-- A loop after some happenings. -/
def after (r : Resolver σ) (hs : List (Happening ω)) : Resolver σ :=
  hs.foldl (fun r h => (r.act h).2) r

/-- The events of a run. -/
def events (r : Resolver σ) : List (Happening ω) → List Event
  | [] => []
  | h :: rest => (r.act h).1.toList ++ (r.act h).2.events rest

/-- The lists that were handed to a loop. -/
def delivered (r : Resolver σ) (hs : List (Happening ω)) : List (List Service) :=
  (r.events hs).filterMap Event.list?

variable (r : Resolver σ) (h : Happening ω) (hs more : List (Happening ω))

@[simp] theorem after_nil : r.after ([] : List (Happening ω)) = r := rfl

@[simp] theorem after_cons : r.after (h :: hs) = (r.act h).2.after hs := rfl

@[simp] theorem after_append : r.after (hs ++ more) = (r.after hs).after more := List.foldl_append

@[simp] theorem events_nil : r.events ([] : List (Happening ω)) = [] := rfl

@[simp] theorem events_cons : r.events (h :: hs) = (r.act h).1.toList ++ (r.act h).2.events hs := rfl

theorem events_append : r.events (hs ++ more) = r.events hs ++ (r.after hs).events more := by
  induction hs generalizing r with
  | nil => rfl
  | cons h rest ih =>
    rw [List.cons_append, events_cons, events_cons, ih, List.append_assoc]
    rfl

theorem delivered_cons : r.delivered (h :: hs)
    = ((r.act h).1.bind Event.list?).toList ++ (r.act h).2.delivered hs := by
  rw [delivered, events_cons, List.filterMap_append]
  cases (r.act h).1 <;> rfl

theorem delivered_append :
    r.delivered (hs ++ more) = r.delivered hs ++ (r.after hs).delivered more := by
  rw [delivered, events_append, List.filterMap_append]
  rfl

/-! ## Moving on -/

theorem exists_turns_run (n : Nat) : ∃ turns : List (Happening ω), (∀ h ∈ turns, h = .turn) ∧
    r.run n = (r.events turns, r.after turns) := by
  induction n generalizing r with
  | zero => exact ⟨[], by simp, rfl⟩
  | succ n ih =>
    cases hstep : r.step with
    | mk r' event? =>
      cases event? with
      | none =>
        refine ⟨[.turn], by simp, ?_⟩
        simp [run, act, hstep]
      | some event =>
        obtain ⟨turns, hturns, hrun⟩ := ih r'
        refine ⟨.turn :: turns, by simpa using hturns, ?_⟩
        simp [run, act, hstep, hrun]

theorem exists_turns_settle : ∃ turns : List (Happening ω), (∀ h ∈ turns, h = .turn) ∧
    r.settle = (r.events turns, r.after turns) := r.exists_turns_run _

theorem exists_happenings_advanceTo (target stops : Nat) :
    ∃ hs : List (Happening ω), (∀ h ∈ hs, h.isOwn) ∧
      r.advanceTo target stops = (r.events hs, r.after hs) := by
  induction stops generalizing r with
  | zero => exact ⟨[.clock target], by simp [Happening.isOwn], rfl⟩
  | succ stops ih =>
    obtain ⟨turns, hturns, hsettle⟩ := r.exists_turns_settle (ω := ω)
    have hown : ∀ h ∈ turns, h.isOwn := by
      intro h hh
      rw [hturns h hh]
      rfl
    have hstop : ∃ hs : List (Happening ω), (∀ h ∈ hs, h.isOwn) ∧
        (r.events turns, { r.after turns with now := target }) = (r.events hs, r.after hs) := by
      refine ⟨turns ++ [.clock target], ?_, ?_⟩
      · simpa [or_imp, forall_and, Happening.isOwn] using hown
      · rw [events_append, after_append]
        simp [act]
    rw [advanceTo, hsettle]
    dsimp only
    cases (r.after turns).due? with
    | none => exact hstop
    | some t =>
      dsimp only
      split
      · obtain ⟨hs, hhs, hadvance⟩ := ih { r.after turns with now := t }
        refine ⟨turns ++ .clock t :: hs, ?_, ?_⟩
        · intro h hh
          rcases List.mem_append.1 hh with hh | hh
          · exact hown h hh
          · rcases List.mem_cons.1 hh with rfl | hh
            · rfl
            · exact hhs h hh
        · rw [hadvance, events_append, after_append]
          rfl
      · exact hstop

/-- **Letting time pass is a run** of turns and of movements of the clock. -/
theorem exists_happenings_advance (ms : Nat) :
    ∃ hs : List (Happening ω), (∀ h ∈ hs, h.isOwn) ∧ r.advance ms = (r.events hs, r.after hs) := by
  rw [advance]
  split
  · exact ⟨[], by simp, rfl⟩
  · exact r.exists_happenings_advanceTo _ _

end Resolver

end Steering
