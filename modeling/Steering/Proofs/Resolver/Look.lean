import Steering.Subscription

/-!
# `Steering.Proofs.Resolver.Look` — what one look at a call can come to

`Subscription.ask` is a nest of tests: is a call parked, is the watcher stopped, is an error queued, is
the watcher fresh, is it behind. Only five things come out of it, and `Look` is the list of them, each
with the tests that lead there. Everything downstream takes a look apart by these five cases and never
opens `ask` again.

One case is unlike the others. A call that *starts* with an error queued leaves the watcher as it was;
a parked call that *wakes* to one has already moved the mark (`Look.spent`). The list that came with
that version is then behind the mark without having been handed to anyone.

The other half of the file is what a write does to a name. If it is the write's own, the version is
raised, and the list or the queue of errors takes the write in; any other is left as it is.
-/

namespace Steering

/-! ## Reading an error leaves the lists alone -/

namespace Registry

variable {r r' : Registry} {name : String} {e : RegistryError}

theorem slot_of_takeError? (h : r.takeError? name = some (e, r')) (other : String) :
    (r'.slot other).services = (r.slot other).services ∧
      (r'.slot other).version = (r.slot other).version := by
  rw [takeError?] at h
  obtain ⟨⟨e', slot⟩, hslot, heq⟩ := Option.map_eq_some_iff.1 h
  obtain ⟨-, rfl⟩ := Prod.mk.inj heq
  rw [Slot.takeError?] at hslot
  rw [slot_withSlot]
  by_cases hname : name = other
  · subst hname
    rw [if_pos rfl]
    cases herr : (r.slot name).errors with
    | nil =>
      rw [herr] at hslot
      exact absurd hslot (by simp)
    | cons first rest =>
      rw [herr] at hslot
      obtain ⟨-, rfl⟩ := Prod.mk.inj (Option.some.inj hslot)
      exact ⟨rfl, rfl⟩
  · rw [if_neg hname]
    exact ⟨rfl, rfl⟩

theorem services_of_takeError? (h : r.takeError? name = some (e, r')) (other : String) :
    r'.services other = r.services other := (slot_of_takeError? h other).1

theorem version_of_takeError? (h : r.takeError? name = some (e, r')) (other : String) :
    r'.version other = r.version other := (slot_of_takeError? h other).2

theorem takeError?_eq_none_iff : r.takeError? name = none ↔ r.errors name = [] := by
  rw [takeError?, Option.map_eq_none_iff, Slot.takeError?, errors]
  cases (r.slot name).errors <;> simp

end Registry

/-! ## Writes -/

/-- A write to a registry. -/
inductive Write where
  | register (s : Service)
  | deregister (name id : String)
  | set (name : String) (services : List Service)
  | inject (name : String) (e : RegistryError)

namespace Write

def apply (r : Registry) : Write → Registry
  | register s => r.register s
  | deregister name id => r.deregister name id
  | set name services => r.set name services
  | inject name e => r.inject name e

def name : Write → String
  | register s => s.name
  | deregister name _ | set name _ | inject name _ => name

/-- What a write makes of the slot of its name. -/
def onSlot : Write → Slot → Slot
  | register s, slot => slot.write (Slot.put s slot.services)
  | deregister _ id, slot => slot.write (slot.services.filter fun s => s.id ≠ id)
  | set _ services, slot => slot.write services
  | inject _ e, slot => slot.fail e

/-- What a write makes of the list of its name. -/
def onList (w : Write) (l : List Service) : List Service := (w.onSlot { services := l }).services

/-- What some writes to a name make of its list, one after the other. -/
def listAfter (writes : List Write) (l : List Service) : List Service :=
  writes.foldl (fun l w => w.onList l) l

/-- The error that a write queues for a name. -/
def error? (w : Write) (name : String) : Option RegistryError :=
  match w with
  | inject other e => if other = name then some e else none
  | _ => none

variable {w : Write} {name : String}

theorem listAfter_append (writes more : List Write) (l : List Service) :
    listAfter (writes ++ more) l = listAfter more (listAfter writes l) := List.foldl_append

theorem apply_eq (w : Write) (r : Registry) : w.apply r = r.withSlot w.name w.onSlot := by
  cases w <;> rfl

theorem slot_apply (w : Write) (r : Registry) :
    (w.apply r).slot w.name = w.onSlot (r.slot w.name) := by
  rw [apply_eq, Registry.slot_withSlot, if_pos rfl]

theorem slot_apply_of_ne (h : w.name ≠ name) (r : Registry) :
    (w.apply r).slot name = r.slot name := by
  rw [apply_eq, Registry.slot_withSlot, if_neg h]

/-- A write raises the version of its name. -/
theorem version_apply (w : Write) (r : Registry) :
    (w.apply r).version w.name = r.version w.name + 1 := by
  rw [Registry.version, slot_apply]
  cases w <;> rfl

/-- What a write does to the list of its own name. -/
theorem services_apply (w : Write) (r : Registry) :
    (w.apply r).services w.name = w.onList (r.services w.name) := by
  rw [Registry.services, slot_apply]
  cases w <;> rfl

theorem services_apply_of_ne (h : w.name ≠ name) (r : Registry) :
    (w.apply r).services name = r.services name := by
  rw [Registry.services, slot_apply_of_ne h]
  rfl

theorem error?_of_ne (h : w.name ≠ name) : w.error? name = none := by
  cases w with
  | inject other e => exact if_neg h
  | _ => rfl

theorem errors_apply (w : Write) (r : Registry) (name : String) :
    (w.apply r).errors name = r.errors name ++ (w.error? name).toList := by
  by_cases hname : w.name = name
  · subst hname
    rw [Registry.errors, slot_apply]
    cases w with
    | inject other e => simp [error?, onSlot, Write.name, Slot.fail, Registry.errors]
    | _ => simp [error?, onSlot, Write.name, Slot.write, Registry.errors]
  · rw [Registry.errors, slot_apply_of_ne hname, error?_of_ne hname]
    exact (List.append_nil _).symm

end Write

/-! ## The five outcomes -/

/-- What one look at a watcher's call comes to. -/
inductive Look (s : Subscription) : Option Reply → Subscription → Prop where
  /-- The watcher is stopped. -/
  | refused (w : Watcher) (hstop : s.watcher.stopped = true)
      (hw : w = s.watcher ∨ s.watcher.stage = .parked ∧ w = { s.watcher with stage := .idle }) :
      Look s (some (.error .canceled)) { s with watcher := w }
  /-- A call that starts is handed the oldest error, and nothing else happens. -/
  | failed (e : RegistryError) (r : Registry) (hstop : s.watcher.stopped = false)
      (hstage : s.watcher.stage ≠ .parked)
      (herr : s.registry.takeError? s.watcher.name = some (e, r)) :
      Look s (some (.error e)) ⟨r, s.watcher⟩
  /-- A first call, or one that sees a change, is handed the list. -/
  | listed (hstop : s.watcher.stopped = false)
      (hnews : s.watcher.stage = .fresh ∨ s.watcher.isBehind s.registry = true)
      (herr : s.registry.takeError? s.watcher.name = none) :
      Look s (some (.ok (s.registry.services s.watcher.name)))
        ⟨s.registry, s.watcher.caughtUp s.registry⟩
  /-- A parked call wakes to the oldest error: the change counts as seen. -/
  | spent (e : RegistryError) (r : Registry) (hstop : s.watcher.stopped = false)
      (hstage : s.watcher.stage = .parked)
      (hbehind : s.watcher.isBehind s.registry = true)
      (herr : s.registry.takeError? s.watcher.name = some (e, r)) :
      Look s (some (.error e)) ⟨r, s.watcher.caughtUp s.registry⟩
  /-- There is nothing to see, and the call waits. Only one that starts has looked at the errors. -/
  | parks (hstop : s.watcher.stopped = false) (hstage : s.watcher.stage ≠ .fresh)
      (hquiet : s.watcher.isBehind s.registry = false)
      (herr : s.watcher.stage = .parked ∨ s.registry.takeError? s.watcher.name = none) :
      Look s none { s with watcher := { s.watcher with stage := .parked } }

theorem look_wait_of_parked {r : Registry} {w : Watcher} (hp : w.stage = .parked) :
    Look ⟨r, w⟩ (w.wait .stop r).1 ⟨(w.wait .stop r).2.2, (w.wait .stop r).2.1⟩ := by
  rw [Watcher.wait]
  by_cases hstop : w.stopped = true
  · rw [if_pos (by simp [hstop])]
    exact Look.refused _ hstop (Or.inr ⟨hp, rfl⟩)
  · rw [if_neg (by simp [hstop])]
    rw [Bool.not_eq_true] at hstop
    by_cases hb : w.isBehind r = true
    · rw [if_pos hb, Watcher.fetch]
      cases herr : r.takeError? w.name with
      | none => exact Look.listed (s := ⟨r, w⟩) hstop (Or.inr hb) herr
      | some x => exact Look.spent (s := ⟨r, w⟩) x.1 x.2 hstop hp hb herr
    · rw [if_neg hb]
      exact Look.parks (s := ⟨r, w⟩) hstop (by simp [hp]) (eq_false_of_ne_true hb) (Or.inl hp)

theorem look_start {r : Registry} {w : Watcher} (hp : w.stage ≠ .parked) :
    Look ⟨r, w⟩ (w.start .stop r).1 ⟨(w.start .stop r).2.2, (w.start .stop r).2.1⟩ := by
  rw [Watcher.start]
  by_cases hstop : w.stopped = true
  · rw [if_pos hstop]
    exact Look.refused w hstop (Or.inl rfl)
  · have hgoes : w.stopped = false := eq_false_of_ne_true hstop
    rw [if_neg hstop]
    cases herr : r.takeError? w.name with
    | some x => exact Look.failed (s := ⟨r, w⟩) x.1 x.2 hgoes hp herr
    | none =>
      dsimp only
      by_cases hf : w.stage = .fresh
      · rw [if_pos hf]
        exact Look.listed (s := ⟨r, w⟩) hgoes (Or.inl hf) herr
      · -- the errors have been looked at, so the wait that follows finds none
        rw [if_neg hf, Watcher.wait, if_neg (by simp [hgoes])]
        by_cases hb : w.isBehind r = true
        · rw [if_pos hb, Watcher.fetch, herr]
          exact Look.listed (s := ⟨r, w⟩) hgoes (Or.inr hb) herr
        · rw [if_neg hb]
          exact Look.parks (s := ⟨r, w⟩) hgoes hf (eq_false_of_ne_true hb) (Or.inr herr)

/-- **Every look is one of the five.** -/
theorem look_ask (s : Subscription) : Look s s.ask.1 s.ask.2 := by
  obtain ⟨r, w⟩ := s
  rw [Subscription.ask, Watcher.poll]
  by_cases hp : w.stage = .parked
  · rw [if_pos hp]
    exact look_wait_of_parked hp
  · rw [if_neg hp]
    exact look_start hp

end Steering
