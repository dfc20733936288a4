import Steering.Fault
import Steering.Service

/-!
# `Steering.Registry` — who offers a service

A registry holds a list of instances for each service name. Within a name an instance is known by
its id: registering an id again replaces the record where it stands, so the order of a list is the
order in which its ids first came.

Whoever waits for a change compares two numbers. Every write to a name raises its *version*, whether
or not the list differs afterwards, and a reader remembers the version that it has seen
(`Steering.Watcher`). A failure of the backend is such a write too: it queues an error, to be handed
to the next reader in line, and raises the version to wake those who wait.

A name that was never written is a name with an empty list, so looking at one leaves no trace.
-/

namespace Steering

inductive RegistryError where
  | canceled
  /-- The backend failed; asking again may succeed. -/
  | backend (detail : String)
  deriving DecidableEq, Inhabited, Repr

namespace RegistryError

def message : RegistryError → String
  | canceled => "watch canceled"
  | backend detail => s!"registry backend error: {detail}"

def isCanceled : RegistryError → Bool
  | canceled => true
  | backend _ => false

def fault (e : RegistryError) : Fault :=
  match e with
  | canceled => .canceled
  | backend _ => .discovery e.message

end RegistryError

/-- The answer to a request for the instances of a name. -/
abbrev Reply := Except RegistryError (List Service)

/-- What a registry holds for one name. -/
structure Slot where
  services : List Service := []
  /-- The number of writes so far. -/
  version : Nat := 0
  /-- The errors that nobody has been handed yet, the oldest first. -/
  errors : List RegistryError := []
  deriving Inhabited

namespace Slot

/-- Replaces the record with an id, or appends one. -/
def put (s : Service) : List Service → List Service
  | [] => [s]
  | t :: rest => if t.id = s.id then s :: rest else t :: put s rest

def write (slot : Slot) (services : List Service) : Slot :=
  { slot with services, version := slot.version + 1 }

def fail (slot : Slot) (e : RegistryError) : Slot :=
  { slot with errors := slot.errors ++ [e], version := slot.version + 1 }

def takeError? (slot : Slot) : Option (RegistryError × Slot) :=
  match slot.errors with
  | [] => none
  | e :: rest => some (e, { slot with errors := rest })

end Slot

structure Registry where
  slots : Table String Slot := Table.empty
  deriving Inhabited

namespace Registry

/-- What the registry holds for a name. -/
def slot (r : Registry) (name : String) : Slot := (r.slots.get? name).getD {}

/-- Changes what the registry holds for a name. -/
def withSlot (r : Registry) (name : String) (f : Slot → Slot) : Registry :=
  { r with slots := r.slots.insert name (f (r.slot name)) }

theorem slot_withSlot (r : Registry) (name other : String) (f : Slot → Slot) :
    (r.withSlot name f).slot other = if name = other then f (r.slot name) else r.slot other := by
  simp only [slot, withSlot, Table.get?_insert]
  split <;> rfl

def services (r : Registry) (name : String) : List Service := (r.slot name).services

def version (r : Registry) (name : String) : Nat := (r.slot name).version

def errors (r : Registry) (name : String) : List RegistryError := (r.slot name).errors

/-- Registers an instance under its service name. -/
def register (r : Registry) (s : Service) : Registry :=
  r.withSlot s.name fun slot => slot.write (Slot.put s slot.services)

/-- Removes the instance with an id from a name. -/
def deregister (r : Registry) (name id : String) : Registry :=
  r.withSlot name fun slot => slot.write (slot.services.filter fun s => s.id ≠ id)

def set (r : Registry) (name : String) (services : List Service) : Registry :=
  r.withSlot name fun slot => slot.write services

def inject (r : Registry) (name : String) (e : RegistryError) : Registry :=
  r.withSlot name fun slot => slot.fail e

def takeError? (r : Registry) (name : String) : Option (RegistryError × Registry) :=
  (r.slot name).takeError?.map fun (e, slot) => (e, r.withSlot name fun _ => slot)

/-- The registry with instances registered from the first to the last. -/
def ofServices (services : List Service) : Registry := services.foldl register {}

end Registry

end Steering
