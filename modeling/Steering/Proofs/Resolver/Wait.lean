import Steering.Proofs.Resolver.End
import Steering.Resolver.Rest

/-!
# `Steering.Proofs.Resolver.Wait` — the wait after an error

After an error of the backend a loop sleeps until a time. Much can happen meanwhile: instances come and go,
calls are steered, the loop is given turns that it has no use for, it is closed. `Retried` says what comes of
all this. Either the loop still sleeps, and nothing has come of it (`Slept`); or it has been told to end, and
the next turn ends it; or the time has come, and the turn after the one that wakes it is a call again.

How late it wakes depends on whoever moves the clock. `Prompt` is the discipline of a clock that moves only
while the loop rests, and never past a time at which the loop has something to do. Under it the loop wakes at
the very time. Letting time pass (`advance`) is prompt for a loop on a registry in memory
(`exists_prompt_advance`): the stops that it makes on the way are enough.
-/

namespace Steering.Resolver

variable {σ ω : Type} [Feed σ] [Backend σ ω] {r : Resolver σ} {wake : Nat}

/-! ## Prompt runs -/

/-- A clock that moves while the loop rests, and not past what is due. -/
def InTime (r : Resolver σ) : Happening ω → Prop
  | .clock now => r.step.2 = none ∧ r.now ≤ now ∧ ∀ due ∈ r.due?, now ≤ due
  | _ => True

/-- A run in which the clock always moves in time. -/
def Prompt : Resolver σ → List (Happening ω) → Prop
  | _, [] => True
  | r, h :: rest => InTime r h ∧ Prompt (r.act h).2 rest

theorem prompt_append {hs more : List (Happening ω)} :
    Prompt r (hs ++ more) ↔ Prompt r hs ∧ Prompt (r.after hs) more := by
  induction hs generalizing r with
  | nil => simp [Prompt]
  | cons h rest ih => simp [Prompt, ih, and_assoc]

theorem prompt_turns {turns : List (Happening ω)} (h : ∀ t ∈ turns, t = .turn) : Prompt r turns := by
  induction turns generalizing r with
  | nil => trivial
  | cons t rest ih =>
    obtain rfl := h t List.mem_cons_self
    exact ⟨trivial, ih fun t' ht' => h t' (List.mem_cons_of_mem _ ht')⟩

/-- The loop settles, and then the clock moves in time. -/
theorem prompt_pass {turns : List (Happening ω)} (hturns : ∀ t ∈ turns, t = .turn) {now : Nat}
    (hrest : (r.after turns).step.2 = none) (hle : (r.after turns).now ≤ now)
    (hdue : ∀ due ∈ (r.after turns).due?, now ≤ due) :
    let hs := turns ++ [.clock now]
    (∀ h ∈ hs, h.isOwn) ∧ Prompt r hs ∧ r.events hs = r.events turns ∧
      r.after hs = { r.after turns with now } := by
  intro hs
  refine ⟨fun h hh => ?_, prompt_append.2 ⟨prompt_turns hturns, ⟨hrest, hle, hdue⟩, trivial⟩, ?_, ?_⟩
  · rcases List.mem_append.1 hh with hh | hh
    · rw [hturns h hh]
      rfl
    · rw [List.mem_singleton.1 hh]
      rfl
  · rw [events_append]
    exact List.append_nil _
  · rw [after_append]
    rfl

/-! ## Asleep -/

theorem step_of_sleeping (hp : r.phase = .sleeping wake) :
    (r.canceled = true ∧ r.step.2 = some .ended) ∨
      (r.canceled = false ∧ wake ≤ r.now ∧ r.step = ({ r with phase := .listing }, some .woke)) ∨
      (r.canceled = false ∧ r.now < wake ∧ r.step = (r, none)) := by
  rw [step, hp]
  dsimp only
  by_cases hc : r.canceled = true
  · rw [if_pos hc]
    exact Or.inl ⟨hc, rfl⟩
  · rw [if_neg hc]
    rw [Bool.not_eq_true] at hc
    by_cases hw : wake ≤ r.now
    · rw [if_pos hw]
      exact Or.inr (Or.inl ⟨hc, hw, rfl⟩)
    · rw [if_neg hw]
      exact Or.inr (Or.inr ⟨hc, Nat.lt_of_not_le hw, rfl⟩)

/-- A sleeping loop that can make no move has its time still to come. -/
theorem rests_of_sleeping (hp : r.phase = .sleeping wake) (hnone : r.step.2 = none) :
    r.now < wake ∧ r.step = (r, none) := by
  rcases step_of_sleeping hp with ⟨-, hended⟩ | ⟨-, -, hwoke⟩ | ⟨-, hlt, hrest⟩
  · rw [hended] at hnone
    cases hnone
  · rw [hwoke] at hnone
    cases hnone
  · exact ⟨hlt, hrest⟩

theorem now_act_le {first : Happening ω} (hfirst : first.isTurn = false) (hp : r.phase = .sleeping wake)
    (hin : InTime r first) (hle : r.now ≤ wake) : (r.act first).2.now ≤ wake := by
  cases first with
  | turn => cases hfirst
  | clock now => exact hin.2.2 wake (by simp [due?, hp])
  | close =>
    rw [act.eq_def, close]
    dsimp only
    split <;> exact hle
  | _ => exact hle

/-- A loop has slept through some happenings: nothing has come of its turns, its feed is what others have
made of it, and a prompt clock has not left it asleep past its time. -/
structure Slept (r : Resolver σ) (wake : Nat) (hs : List (Happening ω)) : Prop where
  phase : (r.after hs).phase = .sleeping wake
  quiet : r.events hs = []
  feed : (r.after hs).feed = (r.after (hs.filter fun h => !h.isTurn)).feed
  punctual : Prompt r hs → r.now ≤ wake → (r.after hs).now ≤ wake

namespace Slept

variable {first : Happening ω} {rest : List (Happening ω)}

theorem nil (hp : r.phase = .sleeping wake) : Slept r wake ([] : List (Happening ω)) :=
  ⟨hp, rfl, rfl, fun _ => id⟩

theorem turn (hstep : r.step = (r, none)) (h : Slept r wake rest) : Slept r wake (.turn :: rest) := by
  have hact : r.act (.turn : Happening ω) = (none, r) := by rw [act, hstep]
  refine ⟨?_, ?_, ?_, fun hprompt => ?_⟩
  · rw [after_cons, hact]
    exact h.phase
  · rw [events_cons, hact, h.quiet]
    rfl
  · rw [after_cons, hact, List.filter_cons_of_neg (by simp [Happening.isTurn])]
    exact h.feed
  · have hrest := hprompt.2
    rw [hact] at hrest
    rw [after_cons, hact]
    exact h.punctual hrest

theorem other (hfirst : first.isTurn = false) (hp : r.phase = .sleeping wake)
    (h : Slept (r.act first).2 wake rest) : Slept r wake (first :: rest) := by
  refine ⟨h.phase, ?_, ?_, fun hprompt hle => ?_⟩
  · rw [events_cons, (act_of_not_turn hfirst r).1, h.quiet]
    rfl
  · rw [List.filter_cons_of_pos (by simp [hfirst])]
    exact h.feed
  · exact h.punctual hprompt.2 (now_act_le hfirst hp hprompt.1 hle)

end Slept

/-! ## Awake -/

theorem after_of_not_turn {others : List (Happening ω)} (h : ∀ o ∈ others, o.isTurn = false)
    (r : Resolver σ) : (r.after others).phase = r.phase ∧ r.events others = [] := by
  induction others generalizing r with
  | nil => exact ⟨rfl, rfl⟩
  | cons first rest ih =>
    obtain ⟨hnone, hphase⟩ := act_of_not_turn (h first List.mem_cons_self) r
    obtain ⟨hphase', hquiet⟩ := ih (fun o ho => h o (List.mem_cons_of_mem _ ho)) (r.act first).2
    refine ⟨hphase'.trans hphase, ?_⟩
    rw [events_cons, hnone, hquiet]
    rfl

/-- A loop that lists makes a call with its turn, unless it has been told to end. -/
theorem step_of_listing (hp : r.phase = .listing) (hc : r.canceled = false) :
    r.step.2.bind Event.reply? = (Feed.ask r.now r.feed).1 ∧
      r.step.1.feed = (Feed.ask r.now r.feed).2 := by
  rw [step, hp]
  dsimp only
  rw [if_neg (by simp [hc])]
  cases Feed.ask r.now r.feed with
  | mk reply? feed =>
    cases reply? with
    | none => exact ⟨rfl, rfl⟩
    | some reply =>
      obtain ⟨sinks, phase, hhear⟩ := exists_hear_eq { r with feed } reply
      exact ⟨reply?_hear _ reply, congrArg Resolver.feed hhear⟩

/-- The first turn of a run is a call, unless the loop has been told to end before it. -/
def AsksFirst (r : Resolver σ) (hs : List (Happening ω)) : Prop :=
  ∀ others rest, hs = others ++ .turn :: rest → (∀ h ∈ others, h.isTurn = false) →
    let s := r.after others
    r.events others = [] ∧
      (s.canceled = true ∧ s.step.2 = some .ended ∨
        s.canceled = false ∧ s.step.2.bind Event.reply? = (Feed.ask s.now s.feed).1 ∧
          s.step.1.feed = (Feed.ask s.now s.feed).2)

theorem asksFirst_of_listing (hp : r.phase = .listing) (hs : List (Happening ω)) : AsksFirst r hs := by
  rintro others rest - hothers
  obtain ⟨hphase, hquiet⟩ := after_of_not_turn hothers r
  have hlisting := hphase.trans hp
  refine ⟨hquiet, ?_⟩
  cases hc : (r.after others).canceled with
  | true =>
    refine Or.inl ⟨rfl, ?_⟩
    simp [step, hlisting, hc]
  | false => exact Or.inr ⟨rfl, step_of_listing hlisting hc⟩

/-- What comes of a wait until a time, whatever happens. -/
inductive Retried (r : Resolver σ) (wake : Nat) : List (Happening ω) → Prop
  | asleep {hs : List (Happening ω)} (slept : Slept r wake hs) : Retried r wake hs
  /-- The loop has been told to end in its sleep, and its turn ends it. -/
  | ended {before rest : List (Happening ω)} (slept : Slept r wake before)
      (told : (r.after before).canceled = true) (ended : (r.after before).step.2 = some .ended) :
      Retried r wake (before ++ .turn :: rest)
  /-- The time has come, and if the clock is prompt, has come just now (`Slept.punctual`): a turn wakes the
  loop, and the next one is a call. -/
  | woken {before rest : List (Happening ω)} (slept : Slept r wake before)
      (due : wake ≤ (r.after before).now)
      (woke : (r.after before).step = ({ r.after before with phase := .listing }, some .woke))
      (asks : AsksFirst { r.after before with phase := .listing } rest) :
      Retried r wake (before ++ .turn :: rest)

/-- A loop sleeps until one of its turns is a move. -/
theorem slept_or_moves (hp : r.phase = .sleeping wake) (hs : List (Happening ω)) :
    Slept r wake hs ∨ ∃ before rest, hs = before ++ .turn :: rest ∧ Slept r wake before ∧
      (r.after before).step.2 ≠ none := by
  induction hs generalizing r with
  | nil => exact Or.inl (Slept.nil hp)
  | cons first rest ih =>
    cases hturn : first.isTurn with
    | true =>
      obtain rfl := Happening.isTurn_iff.1 hturn
      by_cases hnone : r.step.2 = none
      · obtain ⟨-, hstep⟩ := rests_of_sleeping hp hnone
        have hact : (r.act (.turn : Happening ω)).2 = r := by rw [act, hstep]
        refine (ih hp).imp (Slept.turn hstep) ?_
        rintro ⟨before, rest, rfl, hslept, hmoves⟩
        refine ⟨.turn :: before, rest, rfl, hslept.turn hstep, ?_⟩
        rwa [after_cons, hact]
      · exact Or.inr ⟨[], rest, rfl, Slept.nil hp, hnone⟩
    | false =>
      refine (ih ((act_of_not_turn hturn r).2.trans hp)).imp (Slept.other hturn hp) ?_
      rintro ⟨before, rest, rfl, hslept, hmoves⟩
      exact ⟨first :: before, rest, rfl, hslept.other hturn hp, hmoves⟩

/-- **What comes of a wait**: it lasts, the loop has been told to end, or a call comes next. -/
theorem retried_of_sleeping (hp : r.phase = .sleeping wake) (hs : List (Happening ω)) :
    Retried r wake hs := by
  rcases slept_or_moves hp hs with hslept | ⟨before, rest, rfl, hslept, hmoves⟩
  · exact .asleep hslept
  · rcases step_of_sleeping hslept.phase with ⟨htold, hended⟩ | ⟨-, hdue, hwoke⟩ | ⟨-, -, hrest⟩
    · exact .ended hslept htold hended
    · exact .woken hslept hdue hwoke (asksFirst_of_listing rfl rest)
    · exact absurd (congrArg Prod.snd hrest) hmoves

/-- **A loop that has heard an error of the backend waits**, for as long as it has been told. -/
theorem phase_of_heard_backend {detail : String}
    (h : r.step.2 = some (.heard (.error (.backend detail)))) :
    r.step.1.phase = .sleeping (r.now + r.waitMs) ∧ r.step.1.now = r.now := by
  rcases exists_step_eq r with ⟨hp, hc, -, -, -, hreply⟩ | ⟨-, -, -, hnone⟩
  · rw [h] at hreply
    have hask : Feed.ask r.now r.feed = (some (.error (.backend detail)), (Feed.ask r.now r.feed).2) :=
      Prod.ext hreply.symm rfl
    rw [step, hp]
    dsimp only
    rw [if_neg (by simp [hc]), hask]
    exact ⟨rfl, rfl⟩
  · rw [h] at hnone
    cases hnone

/-! ## Letting time pass -/

section

variable {r r' : Resolver Subscription}

/-- A look that finds no answer leaves the reasons for one as they are. -/
theorem budget_of_ask_none {s s' : Subscription} (h : s.ask = (none, s')) : s'.budget = s.budget := by
  have hlook := look_ask s
  rw [h] at hlook
  cases hlook with
  | parks hstop hstage hquiet herr => simp [Subscription.budget, hstage, Watcher.isBehind]

theorem rank_of_rest (h : r.step = (r', none)) : r'.rank = r.rank := by
  unfold step at h
  split at h
  · obtain ⟨rfl, -⟩ := Prod.mk.inj h
    rfl
  · rename_i hp
    split at h
    · simp at h
    · split at h
      · rename_i feed hask
        obtain ⟨rfl, -⟩ := Prod.mk.inj h
        have hbudget : Feed.budget feed = Feed.budget r.feed := budget_of_ask_none hask
        simp [rank, hp, hbudget]
      · simp at h
  · rename_i addresses i hp
    split at h
    · simp at h
    · split at h
      · obtain ⟨rfl, -⟩ := Prod.mk.inj h
        simp [rank, hp]
      · simp at h
  · rename_i hp
    split at h
    · simp at h
    · split at h
      · simp at h
      · obtain ⟨rfl, -⟩ := Prod.mk.inj h
        rfl

/-- Moving does not raise the rank, and lowers it if a move can be made. -/
theorem rank_run_le (n : Nat) (r : Resolver Subscription) :
    (r.run n).2.rank ≤ r.rank ∧ (0 < n → r.step.2 ≠ none → (r.run n).2.rank < r.rank) := by
  induction n generalizing r with
  | zero => exact ⟨le_refl _, fun h => absurd h (Nat.lt_irrefl 0)⟩
  | succ n ih =>
    cases hstep : r.step with
    | mk r' event? =>
      cases event? with
      | none =>
        simp only [run, hstep]
        exact ⟨(rank_of_rest hstep).le, fun _ hmoves => absurd rfl hmoves⟩
      | some event =>
        simp only [run, hstep]
        have hlt := (ih r').1.trans_lt (rank_step hstep)
        exact ⟨hlt.le, fun _ _ => hlt⟩

theorem now_run (n : Nat) (r : Resolver Subscription) : (r.run n).2.now = r.now := by
  induction n generalizing r with
  | zero => rfl
  | succ n ih =>
    have hnow : r.step.1.now = r.now := by
      rcases exists_step_eq r with ⟨-, -, _, _, hstep, -⟩ | ⟨_, _, hstep, -⟩ <;> rw [hstep]
    cases hstep : r.step with
    | mk r' event? =>
      rw [hstep] at hnow
      cases event? with
      | none => simpa only [run, hstep] using hnow
      | some event =>
        simp only [run, hstep]
        exact (ih r').trans hnow

theorem phase_of_due {due : Nat} (h : r.due? = some due) : r.phase = .sleeping due := by
  cases hp : r.phase with
  | sleeping wake => simpa [due?, hp] using h
  | _ => simp [due?, hp, Feed.due?] at h

/-- When the time has come at which a loop has something to do, it can make a move. -/
theorem moves_when_due {due : Nat} (h : r.due? = some due) :
    ({ r with now := due } : Resolver Subscription).step.2 ≠ none := by
  intro hnone
  have hp : ({ r with now := due } : Resolver Subscription).phase = .sleeping due := phase_of_due h
  exact absurd (rests_of_sleeping hp hnone).1 (Nat.lt_irrefl due)

/-- The rank after settling: lower, if a move could be made. -/
theorem rank_settle_le {stops : Nat} (h : r.rank < stops + 1 ∨ r.rank ≤ stops + 1 ∧ r.step.2 ≠ none) :
    r.settle.2.rank ≤ stops := by
  obtain ⟨hle, hlt⟩ := rank_run_le (r.rank + 1) r
  rcases h with hfew | ⟨hfew, hmoves⟩
  · exact hle.trans (Nat.le_of_lt_succ hfew)
  · exact Nat.le_of_lt_succ ((hlt (Nat.succ_pos _) hmoves).trans_le hfew)

/-- The stops that are left are enough if they are more than the moves that are, not counting a move that
is made at once. -/
theorem exists_prompt_advanceTo (target stops : Nat) (r : Resolver Subscription) (hnow : r.now ≤ target)
    (hstops : r.rank < stops ∨ r.rank ≤ stops ∧ r.step.2 ≠ none) :
    ∃ hs : List (Happening Write), (∀ h ∈ hs, h.isOwn) ∧ Prompt r hs ∧
      r.advanceTo target stops = (r.events hs, r.after hs) ∧ (r.after hs).now = target := by
  induction stops generalizing r with
  | zero =>
    exfalso
    rcases hstops with hlt | ⟨hle, hmoves⟩
    · exact Nat.not_lt_zero _ hlt
    · cases hstep : r.step with
      | mk r' event? =>
        cases event? with
        | none => exact hmoves (congrArg Prod.snd hstep)
        | some event => exact Nat.not_lt_zero _ ((rank_step hstep).trans_le hle)
  | succ stops ih =>
    have hrest := congrArg Prod.snd (step_settle r)
    have hsettled : r.settle.2.now ≤ target := (now_run _ r).le.trans hnow
    have hrank := rank_settle_le hstops
    rw [advanceTo]
    obtain ⟨turns, hturns, hsettle⟩ := r.exists_turns_settle (ω := Write)
    rw [hsettle] at hrest hsettled hrank ⊢
    dsimp only at hrest hsettled hrank ⊢
    have hstop : (∀ due ∈ (r.after turns).due?, target ≤ due) →
        ∃ hs : List (Happening Write), (∀ h ∈ hs, h.isOwn) ∧ Prompt r hs ∧
          (r.events turns, { r.after turns with now := target }) = (r.events hs, r.after hs) ∧
          (r.after hs).now = target := by
      intro hdue
      obtain ⟨hown, hprompt, hevents, hafter⟩ := prompt_pass hturns hrest hsettled hdue
      exact ⟨_, hown, hprompt, by rw [hevents, hafter], by rw [hafter]⟩
    cases hdue : (r.after turns).due? with
    | none => exact hstop (by simp [hdue])
    | some due =>
      dsimp only
      split
      · rename_i hbefore
        have hlater := (rests_of_sleeping (phase_of_due hdue) hrest).1
        obtain ⟨hown, hprompt, hevents, hafter⟩ := prompt_pass hturns hrest hlater.le (by simp [hdue])
        obtain ⟨hs, hhs, hprompt', hadvance, hend⟩ := ih { r.after turns with now := due } hbefore.le
          (Or.inr ⟨hrank, moves_when_due hdue⟩)
        rw [← hafter] at hprompt' hadvance hend
        refine ⟨turns ++ [.clock due] ++ hs, List.forall_mem_append.2 ⟨hown, hhs⟩,
          prompt_append.2 ⟨hprompt, hprompt'⟩, ?_, ?_⟩
        · rw [← hafter, hadvance, events_append r _ hs, hevents, after_append r _ hs]
        · rw [after_append, hend]
      · rename_i hlate
        exact hstop (by simpa [hdue] using hlate)

/-- **Letting time pass is a prompt run**, which ends when the time has passed. -/
theorem exists_prompt_advance (r : Resolver Subscription) (ms : Nat) :
    ∃ hs : List (Happening Write), (∀ h ∈ hs, h.isOwn) ∧ Prompt r hs ∧
      r.advance ms = (r.events hs, r.after hs) ∧ (r.after hs).now = r.now + ms := by
  rw [advance]
  split
  · rename_i hms
    exact ⟨[], by simp, trivial, rfl, by simp [hms]⟩
  · exact exists_prompt_advanceTo _ _ r (Nat.le_add_right _ _) (Or.inl (Nat.lt_succ_self _))

end

end Steering.Resolver
