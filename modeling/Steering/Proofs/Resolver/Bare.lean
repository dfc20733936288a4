import Steering.Proofs.Resolver.Life
import Steering.Resolver.Rest

/-!
# `Steering.Proofs.Resolver.Bare` — the loop that has nobody to tell

Telling its sinks is the only thing that a watch loop does for others. Here a loop is compared with
itself without sinks (`bare`). A step that tells a sink is none for the bare loop, and every other step
is the same step (`bare_step`). So the bare loop goes through the same states and is never behind.

The two agree in particular wherever both rest. A loop makes all the moves that it can before it rests,
and where it rests does not depend on how the moves are counted (`settle_eq_of_rest`). Between two rests
things happen from outside only (`course`); what a loop makes of that is compared at its rests.
-/

namespace Steering

namespace Phase

/-- A phase as it is if nobody has to be told of anything. -/
def aside : Phase → Phase
  | .delivering _ _ => .listing
  | phase => phase

def isDelivering : Phase → Bool
  | .delivering _ _ => true
  | _ => false

theorem exists_eq_of_isDelivering {phase : Phase} (h : phase.isDelivering = true) :
    ∃ addresses i, phase = .delivering addresses i := by
  cases phase with
  | delivering addresses i => exact ⟨addresses, i, rfl⟩
  | listing => cases h
  | sleeping wake => cases h
  | ended => cases h

end Phase

/-- Whether a happening is about the sinks. -/
def Happening.isSinks {ω : Type} : Happening ω → Bool
  | .sinks _ => true
  | _ => false

namespace Resolver

variable {σ ω : Type}

/-- A loop without its sinks, as far as it would be. -/
def bare (r : Resolver σ) : Resolver σ := { r with sinks := [], phase := r.phase.aside }

@[simp] theorem nodeSet_bare (r : Resolver σ) : r.bare.nodeSet = r.nodeSet := rfl

theorem bare_deliver (r : Resolver σ) (addresses : List Address) (i j : Nat) :
    (r.deliver addresses i).bare = r.bare.deliver addresses j := by
  rw [deliver, deliver]
  split <;> rfl

theorem bare_publish (r : Resolver σ) (services : List Service) (addresses : List Address) :
    (r.publish services addresses).1.bare = (r.bare.publish services addresses).1 ∧
      (r.publish services addresses).2 = (r.bare.publish services addresses).2 := by
  rw [publish, publish]
  split
  · exact ⟨rfl, rfl⟩
  · exact ⟨bare_deliver _ addresses 0 0, rfl⟩

theorem bare_hear (r : Resolver σ) (reply : Reply) :
    (r.hear reply).1.bare = (r.bare.hear reply).1 ∧ (r.hear reply).2 = (r.bare.hear reply).2 := by
  match reply with
  | .ok services => exact r.bare_publish services _
  | .error .canceled => exact ⟨rfl, rfl⟩
  | .error (.backend detail) => exact ⟨rfl, rfl⟩

variable [Feed σ]

/-- Telling a sink is no step for the bare loop. -/
theorem bare_step_of_delivering {r : Resolver σ} (h : r.phase.isDelivering = true) :
    r.step.1.bare = r.bare := by
  obtain ⟨addresses, i, hphase⟩ := Phase.exists_eq_of_isDelivering h
  have hbare : r.bare = { r with sinks := [], phase := .listing } := by rw [bare, hphase]; rfl
  rw [hbare, step, hphase]
  dsimp only
  split
  · rfl
  · split
    · rfl
    · rw [bare_deliver _ addresses (i + 1) 0]
      rfl

/-- **Every other step is the same for the bare loop.** -/
theorem bare_step {r : Resolver σ} (h : r.phase.isDelivering = false) :
    r.step.1.bare = r.bare.step.1 ∧ r.step.2 = r.bare.step.2 := by
  have hbare : r.bare = { r with sinks := [] } := by
    rw [bare]
    cases hphase : r.phase with
    | delivering addresses i => rw [hphase] at h; cases h
    | _ => rfl
  rw [step, step, hbare]
  cases hphase : r.phase with
  | delivering addresses i => rw [hphase] at h; cases h
  | ended => exact ⟨by rw [bare, hphase]; rfl, rfl⟩
  | sleeping wake =>
    dsimp only
    split
    · exact ⟨rfl, rfl⟩
    · split
      · exact ⟨rfl, rfl⟩
      · exact ⟨by rw [bare, hphase]; rfl, rfl⟩
  | listing =>
    dsimp only
    split
    · exact ⟨rfl, rfl⟩
    · cases Feed.ask r.now r.feed with
      | mk reply? feed =>
        cases reply? with
        | none => exact ⟨rfl, rfl⟩
        | some reply =>
          have hhear := bare_hear { r with feed, phase := .listing } reply
          exact ⟨hhear.1, congrArg some hhear.2⟩

/-! ## Where a loop rests -/

/-- A loop after its next step, if it can make one. -/
def moved (r : Resolver σ) : Resolver σ := r.step.1

theorem exists_run_eq (n : Nat) (r : Resolver σ) : ∃ k, (r.run n).2 = moved^[k] r := by
  induction n generalizing r with
  | zero => exact ⟨0, rfl⟩
  | succ n ih =>
    rw [run]
    split
    · rename_i r' hstep
      exact ⟨1, by rw [Function.iterate_one, moved, hstep]⟩
    · rename_i r' e hstep
      obtain ⟨k, hk⟩ := ih r'
      exact ⟨k + 1, by rw [Function.iterate_succ_apply, moved, hstep]; exact hk⟩

theorem exists_settle_eq (r : Resolver σ) : ∃ k, r.settle.2 = moved^[k] r := exists_run_eq _ r

/-- What no step breaks, settling does not break. -/
theorem settle_induction {P : Resolver σ → Prop} (hstep : ∀ r, P r → P r.step.1) {r : Resolver σ}
    (h : P r) : P r.settle.2 := by
  obtain ⟨k, hk⟩ := r.exists_settle_eq
  rw [hk]
  exact Function.Iterate.rec P h hstep k

theorem moved_settle (r : Resolver σ) : moved r.settle.2 = r.settle.2 := by
  rw [moved, step_settle]

/-- **There is only one place to rest**, and a loop settles there. -/
theorem settle_eq_of_rest {r : Resolver σ} {n : Nat} (h : moved (moved^[n] r) = moved^[n] r) :
    r.settle.2 = moved^[n] r := by
  obtain ⟨k, hk⟩ := r.exists_settle_eq
  have hsettled : moved (moved^[k] r) = moved^[k] r := hk ▸ moved_settle r
  rw [hk]
  obtain hkn | hnk := Nat.le_total k n
  · rw [← Nat.sub_add_cancel hkn, Function.iterate_add_apply, Function.iterate_fixed hsettled]
  · rw [← Nat.sub_add_cancel hnk, Function.iterate_add_apply, Function.iterate_fixed h]

/-- A loop that would find nothing new rests after one more step, with the table that it has. -/
theorem rests_of_ask_none {r : Resolver σ} (hphase : r.phase = .listing)
    (hask : (Feed.ask r.now r.feed).1 = none) :
    moved (moved r) = moved r ∧ (moved r).nodeSet = r.nodeSet := by
  cases hcanceled : r.canceled with
  | true =>
    have hstep : r.step = ({ r with phase := .ended }, some .ended) := by
      rw [step, hphase]
      dsimp only
      rw [if_pos hcanceled]
    rw [show moved r = { r with phase := .ended } from congrArg Prod.fst hstep]
    exact ⟨rfl, rfl⟩
  | false =>
    cases hanswer : Feed.ask r.now r.feed with
    | mk reply? feed =>
      rw [hanswer] at hask
      cases hask
      have hstep : r.step = ({ r with feed }, none) := by
        rw [step, hphase]
        dsimp only
        rw [if_neg (by simp [hcanceled]), hanswer]
      rw [show moved r = { r with feed } from congrArg Prod.fst hstep]
      exact ⟨congrArg Prod.fst (step_again hstep), rfl⟩

theorem exists_moved_bare (r : Resolver σ) (n : Nat) : ∃ k, (moved^[n] r).bare = moved^[k] r.bare := by
  induction n with
  | zero => exact ⟨0, rfl⟩
  | succ n ih =>
    obtain ⟨k, hk⟩ := ih
    rw [Function.iterate_succ_apply']
    cases hphase : (moved^[n] r).phase.isDelivering with
    | true => exact ⟨k, (bare_step_of_delivering hphase).trans hk⟩
    | false =>
      refine ⟨k + 1, ?_⟩
      rw [Function.iterate_succ_apply', ← hk]
      exact (bare_step hphase).1

/-- The bare loop gets at least to where the loop rests. -/
theorem exists_bare_settle (r : Resolver σ) : ∃ k, r.settle.2.bare = moved^[k] r.bare := by
  obtain ⟨n, hn⟩ := r.exists_settle_eq
  rw [hn]
  exact r.exists_moved_bare n

/-- **A loop that rests and tells nobody rests where the bare loop does.** -/
theorem bare_settle {r : Resolver σ} (h : r.settle.2.phase.isDelivering = false) :
    r.settle.2.bare = r.bare.settle.2 := by
  obtain ⟨k, hk⟩ := r.exists_bare_settle
  have hrest : moved r.settle.2.bare = r.settle.2.bare := by
    rw [moved, ← (bare_step h).1, step_settle]
  rw [hk] at hrest
  rw [hk, settle_eq_of_rest hrest]

/-! ## From rest to rest -/

variable [Backend σ ω]

/-- What a happening makes of a loop that makes all the moves that it can when it gets its turn. -/
def attend (r : Resolver σ) : Happening ω → Resolver σ
  | .turn => r.settle.2
  | h => (r.act h).2

/-- A loop after some happenings, with all the moves that it can make at each of its turns. -/
def course (r : Resolver σ) (hs : List (Happening ω)) : Resolver σ := hs.foldl attend r

@[simp] theorem course_nil (r : Resolver σ) : r.course ([] : List (Happening ω)) = r := rfl

@[simp] theorem course_cons (r : Resolver σ) (h : Happening ω) (hs : List (Happening ω)) :
    r.course (h :: hs) = (r.attend h).course hs := rfl

@[simp] theorem course_append (r : Resolver σ) (hs more : List (Happening ω)) :
    r.course (hs ++ more) = (r.course hs).course more := List.foldl_append

omit [Backend σ ω] in
theorem exists_closed_eq (r : Resolver σ) :
    ∃ feed canceled closed, r.close.2 = { r with feed, canceled, closed } := by
  rw [close]
  split <;> exact ⟨_, _, _, rfl⟩

/-- Only its own turn moves a loop on. -/
theorem phase_attend (r : Resolver σ) {h : Happening ω} (hturn : h.isTurn = false) :
    (r.attend h).phase = r.phase := by
  cases h with
  | turn => cases hturn
  | close =>
    obtain ⟨feed, canceled, closed, hclose⟩ := r.exists_closed_eq
    show r.close.2.phase = r.phase
    rw [hclose]
  | _ => rfl

omit [Backend σ ω] in
theorem bare_close (r : Resolver σ) : r.close.2.bare = r.bare.close.2 := by
  rw [close, close]
  show _ = (if r.closed = true then _ else _ : Except Fault Unit × Resolver σ).2
  split <;> rfl

theorem bare_attend_of_not_turn (r : Resolver σ) {h : Happening ω} (hturn : h.isTurn = false)
    (hsinks : h.isSinks = false) : (r.attend h).bare = r.bare.attend h := by
  cases h with
  | turn => cases hturn
  | sinks sinks => cases hsinks
  | close => exact r.bare_close
  | _ => rfl

end Resolver

end Steering
