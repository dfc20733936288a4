import Steering.Proofs.Resolver.Bare

/-!
# `Steering.Proofs.Resolver.Standstill` — a sink that holds the loop up

A publication reaches the routing table before it reaches the sinks, so no sink can keep a list from the
table once the loop has it. What a sink can do is to keep the loop from asking for the next one: a stream
with a full queue and changes left is waited for (`HeldUp`), and nothing but its receiver can end that,
no change of the backend, no passing of time, and not the end of the loop either.

So a run either never has anything happen while the loop tells somebody (`Flowing`), or there is a first
time, and the loop is held up then (`flowing_or_heldUp`). Sinks that take note at once and streams whose
receiver has left keep nobody waiting, and with no others there is no such time (`Obliged.flowing`).
-/

namespace Steering

namespace Resolver

/-! ## Waiting for a receiver -/

section

variable {σ : Type}

/-- The loop waits until the receiver of one of its streams takes something. -/
def HeldUp (r : Resolver σ) : Prop :=
  ∃ addresses i s, r.phase = .delivering addresses i ∧ r.sinks[i]? = some (.stream s) ∧
    s.isBusy = true ∧ s.isOpen = true ∧ s.hasRoom = false

variable [Feed σ]

/-- A loop that rests while it tells a sink is held up by it. -/
theorem heldUp_of_rest {r : Resolver σ} (hrest : r.step = (r, none))
    (h : r.phase.isDelivering = true) : r.HeldUp := by
  obtain ⟨addresses, i, hphase⟩ := Phase.exists_eq_of_isDelivering h
  rw [step, hphase] at hrest
  dsimp only at hrest
  cases hsink : r.sinks[i]? with
  | none =>
    rw [hsink] at hrest
    exact absurd (congrArg Prod.snd hrest) (by simp)
  | some sink =>
    rw [hsink] at hrest
    dsimp only at hrest
    split at hrest
    · rename_i hbusy
      have hsame : sink = sink.resume := by
        have hset := congrArg (fun x => x.1.sinks[i]?) hrest
        dsimp only at hset
        rw [List.getElem?_set_self (List.getElem?_eq_some_iff.1 hsink).1, hsink] at hset
        exact (Option.some.inj hset).symm
      cases sink with
      | observer => cases hbusy
      | stream s =>
        obtain ⟨hopen, hfull⟩ := ChangeStream.full_of_isBusy hbusy
        have hs : s = s.resume := Sink.stream.inj hsame
        refine ⟨addresses, i, s, hphase, hsink, ?_, ?_, ?_⟩
        · rw [hs]; exact hbusy
        · rw [hs]; exact hopen
        · rw [hs]; exact hfull
    · exact absurd (congrArg Prod.snd hrest) (by simp)

theorem HeldUp.step_eq {r : Resolver σ} (h : r.HeldUp) : r.step = (r, none) := by
  obtain ⟨addresses, i, s, hphase, hsink, hbusy, hopen, hfull⟩ := h
  have hresume : (Sink.stream s).resume = .stream s :=
    congrArg Sink.stream (ChangeStream.resume_of_full hopen hfull)
  have hset : r.sinks.set i (.stream s) = r.sinks := by
    obtain ⟨hi, hget⟩ := List.getElem?_eq_some_iff.1 hsink
    rw [← hget, List.set_getElem_self]
  rw [step, hphase]
  dsimp only
  rw [hsink]
  dsimp only
  rw [hresume, hset, if_pos (show (Sink.stream s).isBusy = true from hbusy), ← hphase]

theorem HeldUp.settle_eq {r : Resolver σ} (h : r.HeldUp) : r.settle.2 = r :=
  settle_eq_of_rest (n := 0) (congrArg Prod.fst h.step_eq)

variable {ω : Type} [Backend σ ω]

/-- **Only its sinks can move a loop on that is held up**, and until they do its table stays. -/
theorem HeldUp.attend {r : Resolver σ} (h : r.HeldUp) {what : Happening ω}
    (hsinks : what.isSinks = false) :
    (r.attend what).HeldUp ∧ (r.attend what).nodeSet.nodes = r.nodeSet.nodes := by
  have hkeep : ∀ r' : Resolver σ, r'.phase = r.phase → r'.sinks = r.sinks → r'.HeldUp := by
    intro r' hphase' hsinks'
    rw [HeldUp, hphase', hsinks']
    exact h
  cases what with
  | turn =>
    rw [Resolver.attend, h.settle_eq]
    exact ⟨h, rfl⟩
  | sinks sinks => cases hsinks
  | pick c filters => exact ⟨hkeep _ rfl rfl, NodeSet.nodes_act_pick _ _ _⟩
  | close =>
    obtain ⟨feed, canceled, closed, hclose⟩ := r.exists_closed_eq
    show r.close.2.HeldUp ∧ r.close.2.nodeSet.nodes = r.nodeSet.nodes
    rw [hclose]
    exact ⟨hkeep _ rfl rfl, rfl⟩
  | change w => exact ⟨hkeep _ rfl rfl, rfl⟩
  | clock now => exact ⟨hkeep _ rfl rfl, rfl⟩
  | drop => exact ⟨hkeep _ rfl rfl, rfl⟩

theorem HeldUp.course {r : Resolver σ} (h : r.HeldUp) {hs : List (Happening ω)}
    (hsinks : ∀ what ∈ hs, what.isSinks = false) :
    (r.course hs).HeldUp ∧ (r.course hs).nodeSet.nodes = r.nodeSet.nodes := by
  induction hs generalizing r with
  | nil => exact ⟨h, rfl⟩
  | cons what rest ih =>
    obtain ⟨hheld, hnodes⟩ := h.attend (hsinks what List.mem_cons_self)
    obtain ⟨hheld', hnodes'⟩ := ih hheld fun later hlater =>
      hsinks later (List.mem_cons_of_mem what hlater)
    exact ⟨hheld', hnodes'.trans hnodes⟩

/-- Nothing happens while the loop tells somebody. -/
def Flowing (r : Resolver σ) : List (Happening ω) → Prop
  | [] => True
  | what :: rest => r.phase.isDelivering = false ∧ (r.attend what).Flowing rest

instance decidableFlowing (r : Resolver σ) : (hs : List (Happening ω)) → Decidable (r.Flowing hs)
  | [] => isTrue trivial
  | what :: rest => @instDecidableAnd _ _ inferInstance (decidableFlowing (r.attend what) rest)

/-- A loop that is found telling somebody is held up. -/
theorem heldUp_attend {r : Resolver σ} {what : Happening ω} (hbefore : r.phase.isDelivering = false)
    (h : (r.attend what).phase.isDelivering = true) : (r.attend what).HeldUp := by
  cases hturn : what.isTurn with
  | true =>
    rw [Happening.isTurn_iff.1 hturn] at h ⊢
    exact heldUp_of_rest r.step_settle h
  | false =>
    rw [phase_attend r hturn, hbefore] at h
    cases h

/-- **Either nothing ever happens while the loop tells somebody, or there is a first time**, and the loop is
held up then. -/
theorem flowing_or_heldUp {r : Resolver σ} (hr : r.phase.isDelivering = false)
    (hs : List (Happening ω)) : r.Flowing hs ∨
      ∃ calm rest, hs = calm ++ rest ∧ r.Flowing calm ∧ (r.course calm).HeldUp := by
  induction hs generalizing r with
  | nil => exact Or.inl trivial
  | cons what rest ih =>
    cases hafter : (r.attend what).phase.isDelivering with
    | true => exact Or.inr ⟨[what], rest, rfl, ⟨hr, trivial⟩, heldUp_attend hr hafter⟩
    | false =>
      obtain hflowing | ⟨calm, later, rfl, hcalm, hheld⟩ := ih hafter
      · exact Or.inl ⟨hr, hflowing⟩
      · exact Or.inr ⟨what :: calm, later, rfl, ⟨hr, hcalm⟩, hheld⟩

end

/-! ## Sinks that keep nobody waiting -/

end Resolver

namespace ChangeStream

theorem isOpen_sendAll (s : ChangeStream) (cs : List Change) : (s.sendAll cs).isOpen = s.isOpen := by
  induction cs generalizing s with
  | nil => rfl
  | cons c rest ih =>
    rw [sendAll]
    split
    · rfl
    · split
      · exact ih (s.send c)
      · rfl

end ChangeStream

namespace Sink

/-- Whether a sink can keep somebody waiting: a stream can as long as its receiver is there. -/
def canHold : Sink → Bool
  | observer => false
  | stream s => s.isOpen

@[simp] theorem canHold_start (addresses : List Address) (sink : Sink) :
    (sink.start addresses).canHold = sink.canHold := by
  cases sink <;> rfl

@[simp] theorem canHold_resume (sink : Sink) : sink.resume.canHold = sink.canHold := by
  cases sink with
  | observer => rfl
  | stream s => exact s.isOpen_sendAll s.pending

end Sink

namespace Resolver

section

variable {σ : Type}

/-- None of the sinks can keep the loop waiting. -/
def Obliged (r : Resolver σ) : Prop := ∀ sink ∈ r.sinks, sink.canHold = false

theorem Obliged.not_heldUp {r : Resolver σ} (h : r.Obliged) : ¬ r.HeldUp := by
  rintro ⟨addresses, i, s, -, hsink, -, hopen, -⟩
  have hfree := h _ (List.mem_of_getElem? hsink)
  rw [Sink.canHold, hopen] at hfree
  cases hfree

/-- One sink in the place of another that can hold nobody up either. -/
theorem Obliged.set {r : Resolver σ} (h : r.Obliged) {i : Nat} {sink : Sink}
    (hsink : r.sinks[i]? = some sink) {sink' : Sink} (hlike : sink'.canHold = sink.canHold)
    (phase : Phase) : Obliged { r with sinks := r.sinks.set i sink', phase } := by
  intro other hother
  obtain hmem | rfl := List.mem_or_eq_of_mem_set hother
  · exact h other hmem
  · exact hlike.trans (h sink (List.mem_of_getElem? hsink))

theorem Obliged.deliver {r : Resolver σ} (h : r.Obliged) (addresses : List Address) (i : Nat) :
    (r.deliver addresses i).Obliged := by
  rw [Resolver.deliver]
  split
  · rename_i sink hsink
    exact h.set hsink (Sink.canHold_start addresses sink) _
  · exact h

theorem Obliged.hear {r : Resolver σ} (h : r.Obliged) (reply : Reply) : (r.hear reply).1.Obliged := by
  match reply with
  | .error .canceled => exact h
  | .error (.backend detail) => exact h
  | .ok services =>
    rw [Resolver.hear, publish]
    split
    · exact h
    · have htable : Obliged { r with nodeSet := r.saved (some (.ok services)) } := h
      exact htable.deliver _ 0

variable [Feed σ]

theorem Obliged.step {r : Resolver σ} (h : r.Obliged) : r.step.1.Obliged := by
  rw [Resolver.step]
  cases r.phase with
  | ended => exact h
  | sleeping wake =>
    dsimp only
    split
    · exact h
    · split <;> exact h
  | delivering addresses i =>
    dsimp only
    split
    · exact h
    · rename_i sink hsink
      have hset := h.set hsink (Sink.canHold_resume sink)
      split
      · exact hset _
      · exact (hset r.phase).deliver addresses (i + 1)
  | listing =>
    dsimp only
    split
    · exact h
    · cases Feed.ask r.now r.feed with
      | mk reply? feed =>
        cases reply? with
        | none => exact h
        | some reply => exact Obliged.hear (r := { r with feed, phase := .listing }) h reply

theorem Obliged.settle {r : Resolver σ} (h : r.Obliged) : r.settle.2.Obliged :=
  settle_induction (fun _ h => h.step) h

variable {ω : Type} [Backend σ ω]

theorem Obliged.attend {r : Resolver σ} (h : r.Obliged) {what : Happening ω}
    (hwhat : ∀ sinks, what = .sinks sinks → ∀ sink ∈ sinks, sink.canHold = false) :
    (r.attend what).Obliged := by
  cases what with
  | turn => exact h.settle
  | sinks sinks => exact hwhat sinks rfl
  | close =>
    obtain ⟨feed, canceled, closed, hclose⟩ := r.exists_closed_eq
    show r.close.2.Obliged
    rw [hclose]
    exact h
  | change w => exact h
  | clock now => exact h
  | pick c filters => exact h
  | drop => exact h

theorem Obliged.course {r : Resolver σ} (h : r.Obliged) {hs : List (Happening ω)}
    (hhs : ∀ sinks, .sinks sinks ∈ hs → ∀ sink ∈ sinks, sink.canHold = false) :
    (r.course hs).Obliged := by
  induction hs generalizing r with
  | nil => exact h
  | cons what rest ih =>
    refine ih (h.attend fun sinks hwhat => hhs sinks (hwhat ▸ List.mem_cons_self)) fun sinks hsinks => ?_
    exact hhs sinks (List.mem_cons_of_mem what hsinks)

/-- A loop that nobody keeps waiting is never found telling somebody. -/
theorem Obliged.flowing {r : Resolver σ} (h : r.Obliged) (hr : r.phase.isDelivering = false)
    {hs : List (Happening ω)}
    (hhs : ∀ sinks, .sinks sinks ∈ hs → ∀ sink ∈ sinks, sink.canHold = false) : r.Flowing hs := by
  obtain hflowing | ⟨calm, rest, rfl, -, hheld⟩ := flowing_or_heldUp hr hs
  · exact hflowing
  · exact absurd hheld (h.course fun sinks hsinks =>
      hhs sinks (List.mem_append_left rest hsinks)).not_heldUp

end

end Resolver

end Steering
