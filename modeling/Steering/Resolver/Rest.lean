import Steering.Resolver

/-!
# `Steering.Resolver.Rest` — the loop comes to rest

`settle` moves a bounded number of times, and the bound is `rank`. Two facts make that more than a
precaution. Every move lowers the rank (`rank_step`): an answer uses up the feed's budget, and what
it starts — telling the sinks, or waiting — is worth less than one answer. So the bound is never
what stops the loop: the state that `settle` returns is one in which no move can be made
(`step_settle`).
-/

namespace Steering.Resolver

variable {σ : Type} [Feed σ]

/-- A loop that starts to tell a sink has at most that sink and the later ones before it. -/
theorem rank_deliver_le (r : Resolver σ) (addresses : List Address) (i : Nat) :
    (r.deliver addresses i).rank
      ≤ Feed.budget r.feed * (r.sinks.length + 2) + (r.sinks.length - i) + 2 := by
  unfold deliver
  split
  · simp [rank]
  · simp only [rank]
    omega

theorem rank_publish_le (r : Resolver σ) (services : List Service) (addresses : List Address) :
    (r.publish services addresses).1.rank
      ≤ Feed.budget r.feed * (r.sinks.length + 2) + r.sinks.length + 2 := by
  unfold publish
  split
  · simp only [rank]
    omega
  · exact rank_deliver_le _ addresses 0

/-- What an answer starts is worth less than the answer. -/
theorem rank_hear_lt (r : Resolver σ) (budget : Nat) (reply : Reply)
    (h : reply ≠ .error .canceled → Feed.budget r.feed < budget) :
    (r.hear reply).1.rank < budget * (r.sinks.length + 2) + 1 := by
  have more : Feed.budget r.feed < budget →
      Feed.budget r.feed * (r.sinks.length + 2) + (r.sinks.length + 2)
        ≤ budget * (r.sinks.length + 2) := fun hb => by
    rw [← Nat.succ_mul]
    exact Nat.mul_le_mul_right _ hb
  match reply with
  | .ok services =>
    have hb := more (h (by simp))
    have hp := rank_publish_le r services (Publication.ofServices r.scheme r.subset? services)
    simp only [hear]
    omega
  | .error .canceled => simp [hear, rank]
  | .error (.backend detail) =>
    have hb := more (h (by simp))
    simp only [hear, rank]
    omega

/-- Every move lowers the rank. -/
theorem rank_step {r r' : Resolver σ} {e : Event} (h : r.step = (r', some e)) :
    r'.rank < r.rank := by
  unfold step at h
  split at h
  · simp at h
  · rename_i hp
    split at h
    · simp only [Prod.mk.injEq] at h
      obtain ⟨rfl, -⟩ := h
      simp [rank, hp]
    · split at h
      · simp at h
      · rename_i reply feed ha
        simp only [Prod.mk.injEq] at h
        obtain ⟨rfl, -⟩ := h
        have := rank_hear_lt { r with feed } (Feed.budget r.feed) reply
          fun hr => Feed.budget_lt ha hr
        simpa [rank, hp] using this
  · rename_i addresses i hp
    split at h
    · simp only [Prod.mk.injEq] at h
      obtain ⟨rfl, -⟩ := h
      simp only [rank, hp]
      omega
    · rename_i sink hs
      have hi : i < r.sinks.length := (List.getElem?_eq_some_iff.1 hs).1
      split at h
      · simp at h
      · simp only [Prod.mk.injEq] at h
        obtain ⟨rfl, -⟩ := h
        have hd := rank_deliver_le { r with sinks := r.sinks.set i sink.resume } addresses (i + 1)
        have hr :
            r.rank = Feed.budget r.feed * (r.sinks.length + 2) + (r.sinks.length - i) + 2 := by
          simp [rank, hp]
        simp only [List.length_set] at hd
        omega
  · rename_i wake hp
    split at h
    · simp only [Prod.mk.injEq] at h
      obtain ⟨rfl, -⟩ := h
      simp [rank, hp]
    · split at h
      · simp only [Prod.mk.injEq] at h
        obtain ⟨rfl, -⟩ := h
        simp only [rank, hp]
        omega
      · simp at h

/-- Where no move can be made, looking again changes nothing. -/
theorem step_again {r r' : Resolver σ} (h : r.step = (r', none)) : r'.step = (r', none) := by
  unfold step at h
  split at h
  · rename_i hp
    simp only [Prod.mk.injEq, and_true] at h
    subst h
    simp [step, hp]
  · rename_i hp
    split at h
    · simp at h
    · rename_i hc
      split at h
      · rename_i feed ha
        simp only [Prod.mk.injEq, and_true] at h
        subst h
        simp [step, hp, hc, Feed.ask_again ha]
      · simp at h
  · rename_i addresses i hp
    split at h
    · simp at h
    · rename_i sink hs
      have hi : i < r.sinks.length := (List.getElem?_eq_some_iff.1 hs).1
      split at h
      · rename_i hb
        simp only [Prod.mk.injEq, and_true] at h
        subst h
        simp [step, hp, hi, Sink.resume_resume hb, hb]
      · simp at h
  · rename_i wake hp
    split at h
    · simp at h
    · rename_i hc
      split at h
      · simp at h
      · rename_i hw
        simp only [Prod.mk.injEq, and_true] at h
        subst h
        simp [step, hp, hc, hw]

theorem step_run {n : Nat} {r : Resolver σ} (h : r.rank < n) :
    (r.run n).2.step = ((r.run n).2, none) := by
  induction n generalizing r with
  | zero => omega
  | succ n ih =>
    unfold run
    split
    · rename_i r' hs
      exact step_again hs
    · rename_i r' e hs
      have := rank_step hs
      exact ih (by omega)

/-- The loop rests once it has settled: it can make no move. -/
theorem step_settle (r : Resolver σ) : r.settle.2.step = (r.settle.2, none) :=
  step_run (by omega)

end Steering.Resolver
