import Steering.Feed

/-!
# `Steering.Subscription` — a feed from a registry in memory

A registry with one watcher on it is a feed. The two are kept together because a look at a call can
take an error out of the registry; whoever registers instances in between writes to `registry`.
-/

namespace Steering

/-- A registry and a watcher on one of its names. -/
structure Subscription where
  registry : Registry
  watcher : Watcher
  deriving Inhabited

namespace Subscription

/-- A subscription to a name, from here on. -/
def follow (r : Registry) (name : String) : Subscription := ⟨r, Watcher.follow r name⟩

/-- One look at the watcher's call. If it is stopped and behind at once, the stop counts. -/
def ask (s : Subscription) : Option Reply × Subscription :=
  match s.watcher.poll .stop s.registry with
  | (reply?, watcher, registry) => (reply?, ⟨registry, watcher⟩)

/-- The answers that can come without another write: one for each queued error, one for the first
list, and one for a change that has not been seen. -/
def budget (s : Subscription) : Nat :=
  (s.registry.errors s.watcher.name).length + (if s.watcher.stage = .fresh then 1 else 0)
    + (if s.watcher.isBehind s.registry then 1 else 0)

def write (s : Subscription) (f : Registry → Registry) : Subscription :=
  { s with registry := f s.registry }

end Subscription

theorem Registry.errors_of_takeError? {r r' : Registry} {name : String} {e : RegistryError}
    (h : r.takeError? name = some (e, r')) :
    r.errors name = e :: r'.errors name ∧ r'.version name = r.version name := by
  unfold takeError? Slot.takeError? at h
  split at h
  · simp at h
  · rename_i first rest heq
    simp only [Option.map_some, Option.some.injEq, Prod.mk.injEq] at h
    obtain ⟨rfl, rfl⟩ := h
    simp [errors, version, slot_withSlot, heq]

namespace Subscription

theorem budget_lt_wait {r r' : Registry} {w w' : Watcher} {reply : Reply}
    (h : w.wait .stop r = (some reply, w', r')) (hr : reply ≠ .error .canceled) :
    budget ⟨r', w'⟩ < budget ⟨r, w⟩ := by
  unfold Watcher.wait at h
  split at h
  · simp only [Prod.mk.injEq, Option.some.injEq] at h
    exact absurd h.1.symm hr
  · split at h
    · rename_i hb
      simp only [Watcher.fetch, Prod.mk.injEq, Option.some.injEq] at h
      obtain ⟨-, rfl, rfl⟩ := h
      simp only [Watcher.isBehind, decide_eq_true_eq] at hb
      split
      · rename_i e r2 ht
        obtain ⟨h1, h2⟩ := Registry.errors_of_takeError? ht
        grind [budget, Watcher.caughtUp, Watcher.isBehind]
      · grind [budget, Watcher.caughtUp, Watcher.isBehind]
    · simp at h

theorem budget_lt_start {r r' : Registry} {w w' : Watcher} {reply : Reply}
    (h : w.start .stop r = (some reply, w', r')) (hr : reply ≠ .error .canceled) :
    budget ⟨r', w'⟩ < budget ⟨r, w⟩ := by
  unfold Watcher.start at h
  split at h
  · simp only [Prod.mk.injEq, Option.some.injEq] at h
    exact absurd h.1.symm hr
  · split at h
    · rename_i e r2 ht
      obtain ⟨h1, h2⟩ := Registry.errors_of_takeError? ht
      simp only [Prod.mk.injEq, Option.some.injEq] at h
      obtain ⟨-, rfl, rfl⟩ := h
      simp [budget, Watcher.isBehind, h1, h2]
    · split at h
      · rename_i hp
        simp only [Prod.mk.injEq, Option.some.injEq] at h
        obtain ⟨-, rfl, rfl⟩ := h
        grind [budget, Watcher.caughtUp, Watcher.isBehind]
      · exact budget_lt_wait h hr

/-- Every answer but the last one uses up a reason for an answer. -/
theorem budget_lt {s s' : Subscription} {reply : Reply} (h : s.ask = (some reply, s'))
    (hr : reply ≠ .error .canceled) : s'.budget < s.budget := by
  obtain ⟨r, w⟩ := s
  simp only [ask, Watcher.poll, Prod.mk.injEq] at h
  obtain ⟨h1, rfl⟩ := h
  split at h1
  · rename_i hp
    simp only [hp, if_true]
    exact budget_lt_wait (by rw [← h1]) hr
  · rename_i hp
    simp only [hp, if_false]
    exact budget_lt_start (by rw [← h1]) hr

theorem wait_again {r r' : Registry} {w w' : Watcher} (h : w.wait .stop r = (none, w', r')) :
    w'.poll .stop r' = (none, w', r') := by
  unfold Watcher.wait at h
  split at h
  · simp at h
  · rename_i h1
    split at h
    · simp at h
    · rename_i h2
      simp only [Prod.mk.injEq, true_and] at h
      obtain ⟨rfl, rfl⟩ := h
      have hs : w.stopped = false := by simpa using h1
      have hb : r.version w.name ≤ w.seen := by simpa [Watcher.isBehind] using h2
      simp [Watcher.poll, Watcher.wait, Watcher.isBehind, hs, hb]

/-- A look that finds no answer leaves the call parked, and looking again changes nothing. -/
theorem ask_again {s s' : Subscription} (h : s.ask = (none, s')) : s'.ask = (none, s') := by
  obtain ⟨r, w⟩ := s
  have key : ∀ w' r', w.poll .stop r = (none, w', r') → w'.poll .stop r' = (none, w', r') := by
    intro w' r' hp
    unfold Watcher.poll at hp
    split at hp
    · exact wait_again hp
    · unfold Watcher.start at hp
      split at hp
      · simp at hp
      · split at hp
        · simp at hp
        · split at hp
          · simp at hp
          · exact wait_again hp
  simp only [ask, Prod.mk.injEq] at h
  obtain ⟨h1, rfl⟩ := h
  have := key _ _ (by rw [← h1])
  simp only [ask, this]

end Subscription

instance : Feed Subscription where
  ask _ s := s.ask
  due? _ := none
  stop s := (.ok (), { s with watcher := s.watcher.stop })
  budget := Subscription.budget
  ask_again := Subscription.ask_again
  budget_lt := Subscription.budget_lt

/-- How a registry in memory answers the request to watch a name. -/
def Registry.watch (r : Registry) (delayMs : Nat) (name : String) : Opening Subscription :=
  { delayMs, result := .ok (Subscription.follow r name) }

end Steering
