import Steering.Feed

/-!
# `Steering.Replay` — a feed that follows a script

A script is a list of answers, each with the time that it takes. The first look at a call takes the
next answer off the script and starts its time; the call is answered when that time is over. After
the last answer a call waits for ever. The calls and the stops are counted.
-/

namespace Steering

structure Replay.Item where
  delayMs : Nat := 0
  reply : Reply

/-- The call that a script is in. -/
inductive Replay.Call where
  | idle
  /-- A call that is answered at a time. -/
  | running (due : Nat) (reply : Reply)
  /-- A call behind the last answer. -/
  | endless

structure Replay where
  items : List Replay.Item
  call : Replay.Call := .idle
  stopError? : Option RegistryError := none
  lists : Nat := 0
  stops : Nat := 0

namespace Replay

instance : Inhabited Replay := ⟨{ items := [] }⟩

/-- When the call under way is answered. -/
def due? (s : Replay) : Option Nat :=
  match s.call with
  | .running due _ => some due
  | .idle | .endless => none

def begin (s : Replay) (now : Nat) : Replay :=
  match s.call with
  | .running .. | .endless => s
  | .idle =>
    match s.items with
    | item :: rest =>
      let call := .running (now + item.delayMs) item.reply
      { s with items := rest, call, lists := s.lists + 1 }
    | [] => { s with call := .endless, lists := s.lists + 1 }

/-- Answers the call under way if its time is over. -/
def finish (s : Replay) (now : Nat) : Option Reply × Replay :=
  match s.call with
  | .running due reply => if due ≤ now then (some reply, { s with call := .idle }) else (none, s)
  | .idle | .endless => (none, s)

/-- One look at a call. -/
def ask (now : Nat) (s : Replay) : Option Reply × Replay := (s.begin now).finish now

def stop (s : Replay) : Except RegistryError Unit × Replay :=
  (s.stopError?.elim (.ok ()) .error, { s with stops := s.stops + 1 })

/-- The answers that are left. -/
def budget (s : Replay) : Nat := s.items.length + (if s.due?.isSome then 1 else 0)

theorem budget_begin (s : Replay) (now : Nat) : (s.begin now).budget = s.budget := by
  unfold begin
  split
  · rfl
  · rfl
  · rename_i hc
    split
    · rename_i hi
      simp [budget, due?, hc, hi]
    · rename_i hi
      simp [budget, due?, hc, hi]

theorem budget_finish {s s' : Replay} {now : Nat} {reply : Reply}
    (h : s.finish now = (some reply, s')) : s'.budget < s.budget := by
  unfold finish at h
  split at h
  · rename_i hc
    split at h
    · simp only [Prod.mk.injEq] at h
      obtain ⟨-, rfl⟩ := h
      simp [budget, due?, hc]
    · simp at h
  · simp at h
  · simp at h

/-- A look that finds no answer starts the call, and looking again changes nothing. -/
theorem ask_again {s s' : Replay} {now : Nat} (h : s.ask now = (none, s')) :
    s'.ask now = (none, s') := by
  have waits : ∀ t : Replay, t.finish now = (none, s') → t.call ≠ .idle →
      s'.ask now = (none, s') := by
    intro t ht hc
    unfold finish at ht
    split at ht
    · rename_i hd
      split at ht
      · simp at ht
      · rename_i hl
        simp only [Prod.mk.injEq, true_and] at ht
        subst ht
        simp [ask, begin, finish, hd, hl]
    · rename_i hd
      exact absurd hd hc
    · rename_i hd
      simp only [Prod.mk.injEq, true_and] at ht
      subst ht
      simp [ask, begin, finish, hd]
  refine waits _ h ?_
  unfold begin
  split
  · rename_i hc
    simp [hc]
  · rename_i hc
    simp [hc]
  · split <;> simp

/-- Every answer is one answer fewer. -/
theorem budget_lt {s s' : Replay} {now : Nat} {reply : Reply}
    (h : s.ask now = (some reply, s')) : s'.budget < s.budget := by
  rw [← budget_begin s now]
  exact budget_finish h

end Replay

instance : Feed Replay where
  ask now s := s.ask now
  due? := Replay.due?
  stop := Replay.stop
  budget := Replay.budget
  ask_again := Replay.ask_again
  budget_lt h _ := Replay.budget_lt h

end Steering
