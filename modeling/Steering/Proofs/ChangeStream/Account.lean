import Steering.Proofs.ChangeStream.Plan

/-!
# `Steering.Proofs.ChangeStream.Account` — what the receiver was told is what the stream believes

A stream and its receiver move independently. Calls start and wait for room, the receiver takes changes
one by one or goes away, somebody gives a call up, and all of it in any order. An account follows both
sides: the stream, and what its receiver has taken. The changes that were sent are then those taken and
those still in the queue.

A call sends one change after the other, and each is sent and booked in one go (`post`); between two of
them anything may happen. `resume` takes a call as far as it goes, which is some number of such steps
(`exists_posts_resume`), so what every step preserves holds of it as well.

Two invariants carry the rest. `Sound` relates the changes sent to the bookkeeping, at every moment and
with whatever is still to come. `Progress` relates the changes of one call to what the call planned.
-/

namespace Steering

namespace ChangeStream

/-! ## One change at a time -/

/-- Sends the next change of the update under way, unless it has to wait. -/
def post (s : ChangeStream) : ChangeStream :=
  match s.pending with
  | [] => s
  | c :: rest =>
    if !s.isOpen then s.abandon
    else if s.hasRoom then { s.send c with pending := rest }
    else s

theorem post_cases (s : ChangeStream) :
    s.post = s ∨ (s.isOpen = false ∧ s.post = s.abandon) ∨
      ∃ c rest, s.pending = c :: rest ∧ s.post = { s.send c with pending := rest } := by
  rw [post]
  split
  · exact Or.inl rfl
  · rename_i c rest hpending
    split
    · rename_i hclosed
      exact Or.inr (Or.inl ⟨by simpa using hclosed, rfl⟩)
    · split
      · exact Or.inr (Or.inr ⟨c, rest, hpending, rfl⟩)
      · exact Or.inl rfl

/-- What is sent next does not depend on what was intended before. -/
theorem sendAll_pending (s : ChangeStream) (pending cs : List Change) :
    ({ s with pending } : ChangeStream).sendAll cs = s.sendAll cs := by
  induction cs generalizing s pending with
  | nil => rfl
  | cons c rest ih =>
    rw [sendAll, sendAll]
    refine if_congr Iff.rfl rfl (if_congr Iff.rfl ?_ rfl)
    exact ih (s.send c) pending

theorem exists_posts_resume (s : ChangeStream) : ∃ n, s.resume = post^[n] s := by
  rw [resume]
  generalize hcs : s.pending = cs
  induction cs generalizing s with
  | nil => exact ⟨0, by rw [sendAll, ← hcs]; rfl⟩
  | cons c rest ih =>
    rw [sendAll]
    split
    · rename_i hclosed
      exact ⟨1, by simp only [Function.iterate_one, post, hcs, if_pos hclosed, abandon]⟩
    · rename_i hopen
      split
      · rename_i hroom
        obtain ⟨n, hn⟩ := ih { s.send c with pending := rest } rfl
        have hpost : s.post = { s.send c with pending := rest } := by
          simp only [post, hcs, if_neg hopen, if_pos hroom]
        refine ⟨n + 1, ?_⟩
        rw [Function.iterate_succ_apply, hpost, ← hn]
        exact (sendAll_pending _ _ _).symm
      · exact ⟨0, by rw [← hcs]; rfl⟩

/-! ## Accounts -/

/-- A stream, and the changes that its receiver has taken. -/
structure Account where
  stream : ChangeStream
  taken : List Change := []

namespace Account

/-- Something that happens to a stream. -/
inductive Act where
  /-- An update begins, with some order in which the addresses that go are gone through. It has to wait
  for the one before it. -/
  | begin (dismiss : Shuffle String) (addresses : List Address)
  | post
  | resume
  | take
  | close
  | abandon

def Act.isBegin : Act → Bool
  | .begin _ _ => true
  | _ => false

def Act.isAbandon : Act → Bool
  | .abandon => true
  | _ => false

def act (t : Account) : Act → Account
  | .begin dismiss addresses =>
    if t.stream.isBusy then t
    else { t with stream := { t.stream with pending := t.stream.changesBy dismiss addresses } }
  | .post => { t with stream := t.stream.post }
  | .resume => { t with stream := t.stream.resume }
  | .take =>
    match t.stream.receive? with
    | none => t
    | some (c, stream) => { stream, taken := t.taken ++ [c] }
  | .close => { t with stream := t.stream.close }
  | .abandon => { t with stream := t.stream.abandon }

def after (t : Account) (acts : List Act) : Account := acts.foldl act t

/-- A stream that nobody has used yet. -/
def new (capacity : Nat) (secure : Bool) : Account := { stream := { capacity, secure } }

/-- The changes that were sent. -/
def sent (t : Account) : List Change := t.taken ++ t.stream.queue

/-- The addresses that the stream believes in place. -/
def active (t : Account) : List String := t.stream.active

variable {t : Account}

@[simp] theorem after_nil (t : Account) : t.after [] = t := rfl

@[simp] theorem after_cons (t : Account) (a : Act) (acts : List Act) :
    t.after (a :: acts) = (t.act a).after acts := rfl

@[simp] theorem after_append (t : Account) (acts more : List Act) :
    t.after (acts ++ more) = (t.after acts).after more := List.foldl_append

/-- An update of a stream is an act of beginning and one of going on. -/
theorem stream_after_update (hidle : t.stream.isBusy = false) (addresses : List Address) :
    (t.after [.begin (.keep _) addresses, .resume]).stream = t.stream.update addresses := by
  simp only [after_cons, after_nil, act, hidle, Bool.false_eq_true, if_false, update, start,
    changesTo_eq]

/-- What no single change can break, going on does not break. -/
theorem resume_induction {P : Account → Prop} (hpost : ∀ t, P t → P (t.act .post)) (h : P t) :
    P (t.act .resume) := by
  obtain ⟨n, hn⟩ := t.stream.exists_posts_resume
  rw [act, hn]
  clear hn
  induction n with
  | zero => exact h
  | succ n ih =>
    rw [Function.iterate_succ_apply']
    exact hpost _ ih

/-- Apart from the beginning of an update, an act breaks nothing that no single step can break. -/
theorem act_induction {P : Account → Prop} {a : Act} (hbegin : a.isBegin = false)
    (hstep : ∀ {t : Account} {a : Act}, P t → a.isBegin = false → a ≠ .resume → P (t.act a))
    (h : P t) : P (t.act a) := by
  by_cases hresume : a = .resume
  · subst hresume
    exact resume_induction (fun t ht => hstep ht rfl nofun) h
  · exact hstep h hbegin hresume

/-- **What a step can do.** Apart from the beginning of an update and from going on, which is made of
steps, a change moves from what is pending to what was sent, or what is pending is dropped, or neither
of the two changes. -/
theorem act_cases (t : Account) {a : Act} (hbegin : a.isBegin = false) (hresume : a ≠ .resume) :
    ((t.act a).sent = t.sent ∧ (t.act a).active = t.active ∧
        (t.act a).stream.pending = t.stream.pending) ∨
      ((t.act a).sent = t.sent ∧ (t.act a).active = t.active ∧ (t.act a).stream.pending = [] ∧
        (a.isAbandon = true ∨ (t.act a).stream.isOpen = false)) ∨
      ∃ c, (t.act a).sent = t.sent ++ [c] ∧ (t.act a).active = c.apply t.active ∧
        t.stream.pending = c :: (t.act a).stream.pending := by
  cases a with
  | begin dismiss addresses => cases hbegin
  | resume => exact absurd rfl hresume
  | post =>
    rw [act]
    obtain hsame | ⟨hclosed, hdrop⟩ | ⟨c, rest, hpending, hsend⟩ := t.stream.post_cases
    · exact Or.inl (by rw [hsame]; exact ⟨rfl, rfl, rfl⟩)
    · exact Or.inr (Or.inl (by rw [hdrop]; exact ⟨rfl, rfl, rfl, Or.inr hclosed⟩))
    · refine Or.inr (Or.inr ⟨c, ?_, ?_, ?_⟩) <;> rw [hsend]
      · exact (List.append_assoc t.taken t.stream.queue [c]).symm
      · rfl
      · exact hpending
  | take =>
    rw [act, receive?]
    cases hqueue : t.stream.queue with
    | nil => exact Or.inl ⟨rfl, rfl, rfl⟩
    | cons c rest =>
      refine Or.inl ⟨?_, rfl, rfl⟩
      rw [sent, sent, hqueue, List.append_assoc]
      rfl
  | close => exact Or.inl ⟨rfl, rfl, rfl⟩
  | abandon => exact Or.inr (Or.inl ⟨rfl, rfl, rfl, Or.inl rfl⟩)

theorem act_begin_of_idle (hidle : t.stream.isBusy = false) (dismiss : Shuffle String)
    (addresses : List Address) : t.act (.begin dismiss addresses)
      = { t with stream := { t.stream with pending := t.stream.changesBy dismiss addresses } } := by
  rw [act, hidle]
  rfl

/-- A receiver that has left does not come back. -/
theorem isOpen_of_act_step {a : Act} (hbegin : a.isBegin = false) (hresume : a ≠ .resume)
    (h : (t.act a).stream.isOpen = true) : t.stream.isOpen = true := by
  cases a with
  | begin dismiss addresses => cases hbegin
  | resume => exact absurd rfl hresume
  | post =>
    rw [act] at h
    obtain hsame | ⟨-, hdrop⟩ | ⟨c, rest, -, hsend⟩ := t.stream.post_cases
    · rwa [hsame] at h
    · rwa [hdrop] at h
    · rwa [hsend] at h
  | take =>
    rw [act, receive?] at h
    cases hqueue : t.stream.queue with
    | nil => rwa [hqueue] at h
    | cons c rest => rwa [hqueue] at h
  | close => cases h
  | abandon => exact h

/-! ## The bookkeeping is right -/

/-- The changes sent leave in place just what the stream believes to be, and each of them, and each that
is still to be sent, is news when its turn comes. -/
structure Sound (t : Account) : Prop where
  nodup : t.active.Nodup
  replay_eq : replay ∅ t.sent = t.active.toFinset
  lawful : Lawful ∅ (t.sent ++ t.stream.pending)

theorem sound_new (capacity : Nat) (secure : Bool) : (new capacity secure).Sound :=
  ⟨List.nodup_nil, rfl, trivial⟩

namespace Sound

theorem lawful_sent (h : t.Sound) : Lawful ∅ t.sent := (lawful_append.1 h.lawful).1

theorem act_step (h : t.Sound) {a : Act} (hbegin : a.isBegin = false) (hresume : a ≠ .resume) :
    (t.act a).Sound := by
  obtain ⟨hsent, hactive, hpending⟩ | ⟨hsent, hactive, hpending, -⟩ |
    ⟨c, hsent, hactive, hpending⟩ := t.act_cases hbegin hresume
  · refine ⟨hactive ▸ h.nodup, by rw [hsent, hactive, h.replay_eq], ?_⟩
    rw [hsent, hpending]
    exact h.lawful
  · refine ⟨hactive ▸ h.nodup, by rw [hsent, hactive, h.replay_eq], ?_⟩
    rw [hsent, hpending, List.append_nil]
    exact h.lawful_sent
  · have hlawful : Lawful ∅ ((t.sent ++ [c]) ++ (t.act a).stream.pending) := by
      have hlawful := h.lawful
      rwa [hpending, List.append_cons] at hlawful
    have hnews : Lawful t.active.toFinset [c] := by
      rw [← h.replay_eq]
      exact (lawful_append.1 (lawful_append.1 hlawful).1).2
    obtain ⟨hnodup, hset⟩ := hnews.apply h.nodup
    refine ⟨hactive ▸ hnodup, ?_, hsent ▸ hlawful⟩
    rw [hsent, hactive, replay_append, h.replay_eq, hset]

theorem act_begin (h : t.Sound) (dismiss : Shuffle String) (addresses : List Address) :
    (t.act (.begin dismiss addresses)).Sound := by
  cases hbusy : t.stream.isBusy with
  | true => rwa [Account.act, hbusy]
  | false =>
    rw [act_begin_of_idle hbusy]
    refine ⟨h.nodup, h.replay_eq, lawful_append.2 ⟨h.lawful_sent, ?_⟩⟩
    change Lawful (replay ∅ t.sent) _
    rw [h.replay_eq]
    exact lawful_changesBy dismiss addresses h.nodup

theorem act (h : t.Sound) (a : Act) : (t.act a).Sound := by
  cases a with
  | begin dismiss addresses => exact h.act_begin dismiss addresses
  | _ => exact act_induction rfl (fun h => h.act_step) h

theorem after (h : t.Sound) (acts : List Act) : (t.after acts).Sound := by
  induction acts generalizing t with
  | nil => exact h
  | cons a rest ih => exact ih (h.act a)

end Sound

/-! ## The changes of one update -/

/-- An update with some plan has sent the first changes of it, and unless it was given up or the receiver
left, the others are pending. `before` are the changes that had been sent when it began. -/
def Progress (before plan : List Change) (undisturbed : Prop) (t : Account) : Prop :=
  ∃ events, t.sent = before ++ events ∧ events ++ t.stream.pending <+: plan ∧
    (undisturbed → t.stream.isOpen = true → events ++ t.stream.pending = plan)

variable {before plan : List Change} {undisturbed : Prop}

namespace Progress

theorem act_step (h : t.Progress before plan undisturbed) {a : Act} (hbegin : a.isBegin = false)
    (hresume : a ≠ .resume) :
    (t.act a).Progress before plan (undisturbed ∧ a.isAbandon = false) := by
  obtain ⟨events, hevents, hprefix, hall⟩ := h
  have hopen : (t.act a).stream.isOpen = true → t.stream.isOpen = true :=
    isOpen_of_act_step hbegin hresume
  obtain ⟨hsent, -, hpending⟩ | ⟨hsent, -, hpending, hwhy⟩ | ⟨c, hsent, -, hpending⟩ :=
    t.act_cases hbegin hresume
  · exact ⟨events, by rw [hsent, hevents], by rwa [hpending], fun hu ho => by
      rw [hpending, hall hu.1 (hopen ho)]⟩
  · refine ⟨events, by rw [hsent, hevents], ?_, fun hu ho => ?_⟩
    · rw [hpending, List.append_nil]
      exact (List.prefix_append _ _).trans hprefix
    · simp [hu.2, ho] at hwhy
  · have hmoved : (events ++ [c]) ++ (t.act a).stream.pending = events ++ t.stream.pending := by
      rw [hpending, List.append_assoc]
      rfl
    exact ⟨events ++ [c], by rw [hsent, hevents, List.append_assoc], hmoved ▸ hprefix,
      fun hu ho => by rw [hmoved, hall hu.1 (hopen ho)]⟩

theorem act (h : t.Progress before plan undisturbed) {a : Act} (hbegin : a.isBegin = false) :
    (t.act a).Progress before plan (undisturbed ∧ a.isAbandon = false) := by
  cases a with
  | begin dismiss addresses => cases hbegin
  | resume =>
    have hpost : ∀ t : Account, t.Progress before plan undisturbed →
        (t.act .post).Progress before plan undisturbed := by
      intro t ht
      simpa [Act.isAbandon] using ht.act_step (a := .post) rfl nofun
    simpa [Act.isAbandon] using resume_induction hpost h
  | post => exact h.act_step rfl nofun
  | take => exact h.act_step rfl nofun
  | close => exact h.act_step rfl nofun
  | abandon => exact h.act_step rfl nofun

theorem after (h : t.Progress before plan undisturbed) {acts : List Act}
    (hacts : ∀ a ∈ acts, a.isBegin = false) :
    (t.after acts).Progress before plan (undisturbed ∧ ∀ a ∈ acts, a.isAbandon = false) := by
  induction acts generalizing t undisturbed with
  | nil => simpa using h
  | cons a rest ih =>
    simpa [and_assoc] using ih (h.act (hacts a List.mem_cons_self))
      fun b hb => hacts b (List.mem_cons_of_mem a hb)

end Progress

theorem progress_begin (hidle : t.stream.isBusy = false) (dismiss : Shuffle String)
    (addresses : List Address) : (t.act (.begin dismiss addresses)).Progress t.sent
      (t.stream.changesBy dismiss addresses) True := by
  rw [act_begin_of_idle hidle]
  exact ⟨[], (List.append_nil _).symm, List.prefix_refl _, fun _ _ => rfl⟩

/-- **The changes of one update** are the first ones of its plan, and all of them if it comes to its end
with nobody leaving or giving up. -/
theorem exists_events (hidle : t.stream.isBusy = false) (dismiss : Shuffle String)
    (addresses : List Address) {during : List Act} (hduring : ∀ a ∈ during, a.isBegin = false) :
    ∃ events, ((t.act (.begin dismiss addresses)).after during).sent = t.sent ++ events ∧
      events <+: t.stream.changesBy dismiss addresses ∧
      ((∀ a ∈ during, a.isAbandon = false) →
        ((t.act (.begin dismiss addresses)).after during).stream.isOpen = true →
        ((t.act (.begin dismiss addresses)).after during).stream.isBusy = false →
        events = t.stream.changesBy dismiss addresses) := by
  obtain ⟨events, hsent, hprefix, hall⟩ := (progress_begin hidle dismiss addresses).after hduring
  refine ⟨events, hsent, (List.prefix_append _ _).trans hprefix, fun hkept hopen hdone => ?_⟩
  have hpending : ((t.act (.begin dismiss addresses)).after during).stream.pending = [] := by
    simpa [isBusy] using hdone
  have := hall ⟨trivial, hkept⟩ hopen
  rwa [hpending, List.append_nil] at this

end Account

end ChangeStream

end Steering
