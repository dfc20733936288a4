import Steering.ChangeStream
import Steering.Feed
import Steering.NodeSet
import Steering.Publication
import Steering.Settings
import Steering.Target

/-!
# `Steering.Resolver` — the watch loop

A resolver keeps a routing table in step with a feed. It asks for a list, publishes what the list is
good for, and asks again; after an error of the backend it waits for a fixed time first; when
watching has ended, it ends.

The loop is a machine that moves in steps. `step` makes one move, if one can be made without the
clock moving or something else happening, and says what it did (`Event`). `settle` moves until the
loop rests; `advance` moves the clock, with a stop at every time on the way at which the loop has
something to do, and whoever has waited for the time at its end goes before the loop. Closing a
resolver only leaves a mark, which the loop looks at before anything else whenever it would ask or
wait: an update that has been begun is completed, and nothing is begun after it.

A move is taken to be made in one piece. The look at the mark, the look at the feed and the start of
the publication that comes of it are one poll of the loop, which gives way only where it waits; so
whatever else happens, a closing or a write, comes before the whole of it or after it. That is assumed
of whoever runs the loop. With several threads a closing can also fall into a poll, and then counts
from the next one on.

A publication goes to the routing table first and then to the sinks one by one. The table takes it
at once; a sink can hold the loop up.

The loop waits by a timer, which is not part of this library. All that a law about waits may ask of
it is that it keeps the time that is asked for (`Timer.Keeps`), as `sleep` of the package `tokio` is
documented to do. Times are whole milliseconds, which is how finely that timer measures: a part of a
millisecond in an interval is not told apart here.
-/

namespace Steering

/-- How long a wait takes that is asked for. -/
structure Timer where
  takesMs : Nat → Nat

namespace Timer

/-- What is documented of a timer: a wait is over when the time that was asked for has elapsed. -/
def Keeps (timer : Timer) (ms : Nat) : Prop := timer.takesMs ms = ms

/-- A timer that keeps every time. -/
def exact : Timer := ⟨id⟩

theorem keeps_exact (ms : Nat) : exact.Keeps ms := rfl

end Timer

inductive Phase where
  /-- Asking for a list, or about to. -/
  | listing
  /-- Telling the sinks of a publication, and at which of them. -/
  | delivering (addresses : List Address) (sink : Nat)
  /-- Waiting after an error, until a time. -/
  | sleeping (wake : Nat)
  | ended
  deriving Inhabited

inductive Event where
  /-- A call was answered, with nothing to publish. -/
  | heard (reply : Reply)
  /-- A list was published to the routing table. -/
  | published (services : List Service) (addresses : List Address)
  /-- A sink has been told of a publication. -/
  | delivered (sink : Nat) (addresses : List Address)
  /-- The wait after an error is over. -/
  | woke
  | ended

/-- A watch loop on a feed, and the routing table that it keeps. -/
structure Resolver (σ : Type) where
  service : String
  feed : σ
  /-- The scheme that endpoints must have. -/
  scheme : String
  subset? : Option Subset
  timer : Timer
  /-- How long the loop is to wait after an error, in whole milliseconds. -/
  retryMs : Nat
  nodeSet : NodeSet
  sinks : List Sink
  now : Nat
  phase : Phase
  /-- Whether the loop has been told to end. -/
  canceled : Bool := false
  /-- Whether the resolver has been closed. -/
  closed : Bool := false

namespace Resolver

variable {σ : Type}

/-! ## Steps -/

/-- How long the wait after an error takes. -/
def waitMs (r : Resolver σ) : Nat := r.timer.takesMs r.retryMs

/-- Starts to tell a sink of a publication; behind the last sink the loop asks again. -/
def deliver (r : Resolver σ) (addresses : List Address) (i : Nat) : Resolver σ :=
  match r.sinks[i]? with
  | some sink =>
    { r with sinks := r.sinks.set i (sink.start addresses), phase := .delivering addresses i }
  | none => { r with phase := .listing }

/-- Publishes what a list is good for: to the routing table at once, and then to the sinks. Nothing
is published if there is nothing to publish. -/
def publish (r : Resolver σ) (services : List Service) (addresses : List Address) :
    Resolver σ × Event :=
  if addresses.isEmpty then ({ r with phase := .listing }, .heard (.ok services))
  else
    let nodeSet := (r.nodeSet.save (Publication.nodes addresses)).1
    (({ r with nodeSet }).deliver addresses 0, .published services addresses)

/-- Deals with the answer to a call. -/
def hear (r : Resolver σ) : Reply → Resolver σ × Event
  | .ok services => r.publish services (Publication.ofServices r.scheme r.subset? services)
  | .error .canceled => ({ r with phase := .ended }, .heard (.error .canceled))
  | .error e => ({ r with phase := .sleeping (r.now + r.waitMs) }, .heard (.error e))

section

variable [Feed σ]

/-- One move of the loop, if it can make one: a poll, with nothing else in the middle of it. -/
def step (r : Resolver σ) : Resolver σ × Option Event :=
  match r.phase with
  | .ended => (r, none)
  | .listing =>
    if r.canceled then ({ r with phase := .ended }, some .ended)
    else
      match Feed.ask r.now r.feed with
      | (none, feed) => ({ r with feed }, none)
      | (some reply, feed) =>
        let (r, event) := ({ r with feed }).hear reply
        (r, some event)
  | .delivering addresses i =>
    match r.sinks[i]? with
    | none => ({ r with phase := .listing }, some (.delivered i addresses))
    | some sink =>
      let r := { r with sinks := r.sinks.set i sink.resume }
      if sink.resume.isBusy then (r, none)
      else (r.deliver addresses (i + 1), some (.delivered i addresses))
  | .sleeping wake =>
    if r.canceled then ({ r with phase := .ended }, some .ended)
    else if wake ≤ r.now then ({ r with phase := .listing }, some .woke)
    else (r, none)

/-- A bound on the moves that the loop can make before it rests. -/
def rank (r : Resolver σ) : Nat :=
  let rest := Feed.budget r.feed * (r.sinks.length + 2)
  match r.phase with
  | .ended => 0
  | .listing => rest + 1
  | .delivering _ i => rest + (r.sinks.length - i) + 2
  | .sleeping _ => rest + 2

/-- Moves at most a number of times. -/
def run : Nat → Resolver σ → List Event × Resolver σ
  | 0, r => ([], r)
  | n + 1, r =>
    match r.step with
    | (r, none) => ([], r)
    | (r, some e) =>
      let (events, r) := r.run n
      (e :: events, r)

/-- Moves until the loop rests. -/
def settle (r : Resolver σ) : List Event × Resolver σ := r.run (r.rank + 1)

/-! ## Time -/

/-- When the loop has something to do by itself. -/
def due? (r : Resolver σ) : Option Nat :=
  match r.phase with
  | .listing => Feed.due? r.feed
  | .sleeping wake => some wake
  | .delivering .. | .ended => none

/-- Moves the clock to a time, with a bounded number of stops on the way. -/
def advanceTo (target : Nat) : Nat → Resolver σ → List Event × Resolver σ
  | 0, r => ([], { r with now := target })
  | stops + 1, r =>
    let (events, r) := r.settle
    match r.due? with
    | some t =>
      if t < target then
        let (more, r) := ({ r with now := t }).advanceTo target stops
        (events ++ more, r)
      else (events, { r with now := target })
    | none => (events, { r with now := target })

/-- Lets a time pass. What falls due at its very end is left to the next move of the loop. If no
time passes, the loop does not get its turn. -/
def advance (r : Resolver σ) (ms : Nat) : List Event × Resolver σ :=
  if ms = 0 then ([], r) else r.advanceTo (r.now + ms) (r.rank + 1)

/-! ## The end -/

/-- Closes the resolver: the loop is told to end, and the feed is stopped. Closing again does
nothing. -/
def close (r : Resolver σ) : Except Fault Unit × Resolver σ :=
  if r.closed then (.ok (), r)
  else
    let (result, feed) := Feed.stop r.feed
    (result.mapError RegistryError.fault, { r with feed, canceled := true, closed := true })

end

/-- Forgets the resolver: the loop is told to end. -/
def drop (r : Resolver σ) : Resolver σ := { r with canceled := true }

/-! ## The beginning -/

structure Options where
  timer : Timer
  /-- How long a backend may take to begin with. -/
  timeoutMs : Nat
  /-- How long the loop is to wait after an error, in whole milliseconds. -/
  retryMs : Nat
  /-- Whether instances are called without encryption. -/
  insecure : Bool
  scheme : String
  subset? : Option Subset

namespace Options

/-- The options that settings ask for. A subset without a key gets one from a random word. -/
def ofSettings (timer : Timer) (s : Settings) (word : Nat) : Options where
  timer
  timeoutMs := s.discoveryTimeoutMs
  retryMs := s.retryIntervalMs
  insecure := s.insecure
  scheme := s.scheme
  subset? :=
    if s.subsetSize = 0 then none
    else
      match s.subsetKey with
      | some key => some (ShuffleSubset.select { key, size := s.subsetSize })
      | none => some (ShuffleSubset.ofWord word s.subsetSize).select

/-- The scheme that endpoints must have. -/
def expectedScheme (o : Options) : String := Endpoint.schemeFor o.scheme (!o.insecure)

end Options

/-- Starts a resolver for a target, and says how long that took. A backend that answers in the very
moment in which its time is over is in time. -/
def build (o : Options) (target : Target) (discover : String → Opening σ) (nodeSet : NodeSet)
    (sinks : List Sink) : Except Fault (Resolver σ) × Nat :=
  let opening := discover target.endpoint
  let patienceMs := o.timer.takesMs o.timeoutMs
  if patienceMs < opening.delayMs then
    (.error (.discoveryTimeout target.text (o.timeoutMs * 1000000)), patienceMs)
  else
    match opening.result with
    | .error e => (.error e.fault, opening.delayMs)
    | .ok feed =>
      (.ok
        { service := target.endpoint
          feed
          scheme := o.expectedScheme
          subset? := o.subset?
          timer := o.timer
          retryMs := o.retryMs
          nodeSet
          sinks
          now := opening.delayMs
          phase := .listing }, opening.delayMs)

end Resolver

end Steering
