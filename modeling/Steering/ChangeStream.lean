import Steering.Endpoint
import Steering.Subset

/-!
# `Steering.ChangeStream` — publications as insertions and removals

A connection pool is told what changes, not what is. A change stream keeps the addresses that the
changes sent so far leave in place, its *active* addresses, and turns each publication into the
changes that lead from them to the published list: first the removals, then the insertions in the
order of the list. An address whose URI cannot be parsed is left out.

Changes go through a queue of limited capacity. When it is full, the update waits with the rest of
its changes; the ones already sent count as sent. When the receiver is gone, the rest is dropped.
-/

namespace Steering

/-- A change that a connection pool is told. -/
inductive Change where
  | insert (address uri : String)
  | remove (address : String)
  deriving DecidableEq, Inhabited, Repr

/-- The addresses in place after a change. -/
def Change.apply (active : List String) : Change → List String
  | insert address _ => active ++ [address]
  | remove address => active.erase address

/-- A queue of changes to a receiver. -/
structure ChangeStream where
  capacity : Nat
  secure : Bool := false
  isOpen : Bool := true
  /-- The changes that have been sent and not taken, the oldest first. -/
  queue : List Change := []
  active : List String := []
  /-- The changes that the update under way still has to send. -/
  pending : List Change := []
  deriving Inhabited, Repr

namespace ChangeStream

/-- The insertions for a list, given the addresses in place. -/
def insertions (secure : Bool) (present : List String) : List Address → List Change
  | [] => []
  | a :: rest =>
    let uri := Endpoint.channelUri a.addr a.service.endpoint secure
    if a.addr ∈ present || !(Uri.parse uri).isOk then insertions secure present rest
    else .insert a.addr uri :: insertions secure (a.addr :: present) rest

/-- The changes that lead from the active addresses to a list. -/
def changesTo (s : ChangeStream) (addresses : List Address) : List Change :=
  let listed := addresses.map Address.addr
  (s.active.filter fun address => address ∉ listed).map .remove
    ++ insertions s.secure (s.active.filter fun address => address ∈ listed) addresses

def hasRoom (s : ChangeStream) : Bool := s.queue.length < s.capacity

def send (s : ChangeStream) (c : Change) : ChangeStream :=
  { s with queue := s.queue ++ [c], active := c.apply s.active }

/-- Sends changes as long as there is room for them. -/
def sendAll (s : ChangeStream) : List Change → ChangeStream
  | [] => { s with pending := [] }
  | c :: rest =>
    if !s.isOpen then { s with pending := [] }
    else if s.hasRoom then (s.send c).sendAll rest
    else { s with pending := c :: rest }

def start (s : ChangeStream) (addresses : List Address) : ChangeStream :=
  { s with pending := s.changesTo addresses }

def resume (s : ChangeStream) : ChangeStream := s.sendAll s.pending

def isBusy (s : ChangeStream) : Bool := !s.pending.isEmpty

/-- Starts an update and takes it as far as it goes. -/
def update (s : ChangeStream) (addresses : List Address) : ChangeStream :=
  (s.start addresses).resume

/-- Gives up the update under way. -/
def abandon (s : ChangeStream) : ChangeStream := { s with pending := [] }

def receive? (s : ChangeStream) : Option (Change × ChangeStream) :=
  match s.queue with
  | [] => none
  | c :: rest => some (c, { s with queue := rest })

def close (s : ChangeStream) : ChangeStream := { s with isOpen := false }

/-- An update stays under way only because the queue is full. -/
theorem full_of_isBusy {s : ChangeStream} {cs : List Change} (h : (s.sendAll cs).isBusy = true) :
    (s.sendAll cs).isOpen = true ∧ (s.sendAll cs).hasRoom = false := by
  induction cs generalizing s with
  | nil => simp [sendAll, isBusy] at h
  | cons c rest ih =>
    unfold sendAll at h ⊢
    split
    · rename_i ho
      simp [ho, isBusy] at h
    · rename_i ho
      split
      · rename_i hr
        simp only [ho, hr, if_true] at h
        exact ih h
      · rename_i hr
        simp only [Bool.not_eq_true] at hr
        exact ⟨by simpa using ho, hr⟩

theorem resume_of_full {s : ChangeStream} (ho : s.isOpen = true) (hr : s.hasRoom = false) :
    s.resume = s := by
  unfold resume
  cases hp : s.pending with
  | nil =>
    rw [sendAll, ← hp]
  | cons c rest =>
    obtain ⟨capacity, secure, isOpen, queue, active, pending⟩ := s
    simp only at ho hp
    subst ho hp
    simp [sendAll, hr]

end ChangeStream

/-- Who is told of a publication besides the routing table. -/
inductive Sink where
  /-- Somebody who takes note at once. -/
  | observer
  | stream (s : ChangeStream)
  deriving Inhabited, Repr

namespace Sink

/-- Starts to tell of a publication. -/
def start (addresses : List Address) : Sink → Sink
  | observer => observer
  | stream s => stream (s.start addresses)

/-- Goes on telling, as far as it goes. -/
def resume : Sink → Sink
  | observer => observer
  | stream s => stream s.resume

/-- Whether there is more to tell. -/
def isBusy : Sink → Bool
  | observer => false
  | stream s => s.isBusy

/-- A sink that is still busy has told all that it can. -/
theorem resume_resume {sink : Sink} (h : sink.resume.isBusy = true) :
    sink.resume.resume = sink.resume := by
  cases sink with
  | observer => rfl
  | stream s =>
    obtain ⟨ho, hr⟩ := ChangeStream.full_of_isBusy h
    exact congrArg stream (ChangeStream.resume_of_full ho hr)

end Sink

end Steering
