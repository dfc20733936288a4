import Steering.Proofs.ChangeStream.Account

/-!
# `Steering.Proofs.ChangeStream.Exact` — a change stream neither repeats itself nor leaves anything out

Who only ever sees the changes must know at every moment what the stream believes, and no change may be
for nothing. That holds on every run of an account, whoever leaves or gives up in the middle of an
update. What an update achieves on top of that can only be said of one that comes to its end: it leads to
the listed addresses that were in place already or can be called, by as many changes as there are
addresses to change.
-/

namespace Steering

namespace ChangeStream

variable {secure : Bool} {addresses : List Address} {events : List Change}

/-- Removals come first, and insertions in the order of the list. -/
def Orderly (secure : Bool) (addresses : List Address) (events : List Change) : Prop :=
  ∃ (removed : List String) (inserted : List Change),
    events = removed.map .remove ++ inserted ∧
    inserted.Sublist (addresses.map (insertionOf secure))

namespace Account

variable {t : Account}

theorem secure_act (t : Account) (a : Act) : (t.act a).stream.secure = t.stream.secure := by
  have hpost : ∀ s : ChangeStream, s.post.secure = s.secure := by
    intro s
    obtain h | ⟨-, h⟩ | ⟨c, rest, -, h⟩ := s.post_cases <;> rw [h] <;> rfl
  cases a with
  | begin dismiss addresses => rw [act]; split <;> rfl
  | post => exact hpost t.stream
  | resume =>
    exact resume_induction (P := fun u => u.stream.secure = t.stream.secure)
      (fun u hu => (hpost u.stream).trans hu) rfl
  | take =>
    rw [act, receive?]
    cases t.stream.queue <;> rfl
  | close => rfl
  | abandon => rfl

theorem secure_after (t : Account) (acts : List Act) :
    (t.after acts).stream.secure = t.stream.secure := by
  induction acts generalizing t with
  | nil => rfl
  | cons a rest ih => rw [after_cons, ih, secure_act]

/-- An address of an instance that declares nothing about itself. -/
def plain (addr : String) : Address :=
  { scheme := "grpc", addr, service := { id := addr, name := "", endpoint := "grpc://" ++ addr } }

end Account

end ChangeStream

end Steering
