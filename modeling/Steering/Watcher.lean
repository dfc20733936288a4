import Steering.Registry

/-!
# `Steering.Watcher` — following a name in a registry

A watcher asks for the instances of one name over and over. Its first call is answered at once with
the list as it stands; every later one *parks* until the name has been written since the version
that the watcher has seen. A queued error is handed out before any list: at the start of a call,
and again when a parked call wakes.

A call can be looked at many times before it is answered, so `poll` is one look. It starts a call if
none is parked and continues the parked one otherwise. Only the start of a call looks at the error
queue without a change; a parked call is past that point, and it needs a change to get there again.

A stopped watcher refuses. For a parked call the stop and a change are two signals, and if both are
there nothing says which one it reacts to; whoever looks decides (`Signal`).
-/

namespace Steering

/-- Which of two signals a parked call reacts to, if both are there. -/
inductive Signal where
  | stop
  | change
  deriving DecidableEq, Inhabited, Repr

/-- How far a watcher is with its calls. -/
inductive Watcher.Stage where
  /-- No list has been handed out yet. -/
  | fresh
  | idle
  /-- A call waits for a change. -/
  | parked
  deriving DecidableEq, Inhabited, Repr

structure Watcher where
  name : String
  /-- The version that has been seen. -/
  seen : Nat
  stage : Watcher.Stage := .fresh
  stopped : Bool := false
  deriving DecidableEq, Inhabited, Repr

namespace Watcher

def follow (r : Registry) (name : String) : Watcher := { name, seen := r.version name }

/-- Whether the name has been written since the version that was seen. -/
def isBehind (w : Watcher) (r : Registry) : Bool := w.seen < r.version w.name

/-- The watcher once it has seen the name as it stands. -/
def caughtUp (w : Watcher) (r : Registry) : Watcher :=
  { w with seen := r.version w.name, stage := .idle }

/-- The oldest error of the name, or else its list. -/
def fetch (w : Watcher) (r : Registry) : Reply × Registry :=
  match r.takeError? w.name with
  | some (e, r) => (.error e, r)
  | none => (.ok (r.services w.name), r)

/-- One look at a call that waits for a change. -/
def wait (w : Watcher) (favoured : Signal) (r : Registry) : Option Reply × Watcher × Registry :=
  if w.stopped && (favoured = .stop || !w.isBehind r) then
    (some (.error .canceled), { w with stage := .idle }, r)
  else if w.isBehind r then
    let (reply, r') := w.fetch r
    (some reply, w.caughtUp r, r')
  else (none, { w with stage := .parked }, r)

/-- One look at a call that starts here. -/
def start (w : Watcher) (favoured : Signal) (r : Registry) : Option Reply × Watcher × Registry :=
  if w.stopped then (some (.error .canceled), w, r)
  else
    match r.takeError? w.name with
    | some (e, r) => (some (.error e), w, r)
    | none =>
      if w.stage = .fresh then (some (.ok (r.services w.name)), w.caughtUp r, r)
      else w.wait favoured r

/-- One look at a call, which starts here if none is parked. -/
def poll (w : Watcher) (favoured : Signal) (r : Registry) : Option Reply × Watcher × Registry :=
  if w.stage = .parked then w.wait favoured r else w.start favoured r

def abandon (w : Watcher) : Watcher :=
  if w.stage = .parked then { w with stage := .idle } else w

def stop (w : Watcher) : Watcher := { w with stopped := true }

end Watcher

end Steering
