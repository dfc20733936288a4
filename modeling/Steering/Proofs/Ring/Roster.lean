import Mathlib
import Steering.Ring

/-!
# `Steering.Proofs.Ring.Roster` — what a ring should answer

A ring keeps three tables that overlap: a sorted list of positions with repetitions, a slot for each
position, a count for each text. What it is *for* can be said with none of them. A `Roster` is the
list of the members with their counts, in the order in which they came; changing it is filtering
and appending, and a lookup reads the definition of consistent hashing off the list — all positions
of all acceptable members, the least one that is not before the key, the nodes that stand there.

Nothing here is sorted, cached or kept up to date, and a lookup visits every member. That is the
point: this file is the specification, and `Steering.Proofs.Ring.Refinement` says that no sequence
of operations lets a ring and its roster answer differently.
-/

namespace Steering

/-- The members of a ring, each with the number of its positions, in the order in which they came,
and the number of positions of a full member. -/
structure Roster (α : Type) where
  replicas : Nat
  members : List (α × Nat)

namespace Roster

section

variable {α : Type} [ToString α]

def empty (replicas : Nat) : Roster α := ⟨if replicas = 0 then 32 else replicas, []⟩

def texts (m : Roster α) : List String := m.members.map fun e => toString e.1

/-! ## Changes -/

/-- The roster without the member of a text. -/
def erase (m : Roster α) (text : String) : Roster α :=
  { m with members := m.members.filter fun e => toString e.1 ≠ text }

/-- Enters a node with a count in place of the member with its text. A count of zero only takes that
member off. -/
def enter (m : Roster α) (a : α) (n : Nat) : Roster α :=
  let m := m.erase (toString a)
  if n = 0 then m else { m with members := m.members ++ [(a, n)] }

def add (m : Roster α) (a : α) : Roster α := m.enter a m.replicas

/-- Enters a node with a count, at most that of a full member. -/
def addReplicas (m : Roster α) (a : α) (n : Nat) : Roster α := m.enter a (min n m.replicas)

/-- Enters a node with the share of a full member's count that a percentage is, kept between one and
the whole. -/
def addWeight (m : Roster α) (a : α) (weight : Nat) : Roster α :=
  m.enter a (if weight = 0 then 0 else max 1 (min (m.replicas * weight / 100) m.replicas))

/-- Takes a node off, and says whether it was there. -/
def remove (m : Roster α) (a : α) : Roster α × Bool :=
  (m.erase (toString a), decide (toString a ∈ m.texts))

/-- The distinct texts of a list of nodes in the order in which they first occur, each with the last
node that has it. -/
def latest (nodes : List α) : List (String × α) :=
  (nodes.map toString).eraseDups.filterMap fun t =>
    (nodes.reverse.find? fun a => toString a = t).map fun a => (t, a)

/-- Makes the members those of a list of nodes, and says whether their texts changed: members whose
text is not in the list leave, and each missing text joins as a full member, in an arbitrary
order. -/
def reconcile (arrange : List (String × α) → List (String × α)) (m : Roster α) (nodes : List α) :
    Roster α × Bool :=
  if m.texts ⊆ nodes.map toString ∧ nodes.map toString ⊆ m.texts then (m, false)
  else
    let stay := m.members.filter fun e => toString e.1 ∈ nodes.map toString
    let come := (arrange (latest nodes)).filter fun e => e.1 ∉ m.texts
    ({ m with members := stay ++ come.map fun e => (e.2, m.replicas) }, true)

/-! ## Lookup -/

/-- The positions of one member, each with its node. -/
def seatsOf (e : α × Nat) : List (Nat × α) :=
  (List.range e.2).map fun i => (Hash.ofText (toString e.1 ++ toString i), e.1)

/-- The positions of all members, each with its node. -/
def seats (m : Roster α) : List (Nat × α) := m.members.flatMap seatsOf

/-- The positions of the acceptable members. -/
def taken (m : Roster α) (accept : α → Bool) : List Nat :=
  (m.seats.filter fun s => accept s.2).map Prod.fst

/-- The position that a digest belongs to: the least one that is not before it, or else the least of
all. -/
def owner (m : Roster α) (accept : α → Bool) (digest : Nat) : Option Nat :=
  (((m.taken accept).filter (digest ≤ ·)).min?).or (m.taken accept).min?

/-- The acceptable nodes at a position, once for each index that leads there. -/
def slot (m : Roster α) (accept : α → Bool) (p : Nat) : List α :=
  (m.seats.filter fun s => s.1 = p ∧ accept s.2).map Prod.snd

/-- The acceptable nodes at the position that a digest belongs to. -/
def slotFor (m : Roster α) (accept : α → Bool) (digest : Nat) : List α :=
  (m.owner accept digest).elim [] (m.slot accept)

/-- The node of a shared position that a key means. -/
def choose (key : String) : List α → Option α
  | [] => none
  | [a] => some a
  | nodes => nodes[Hash.ofText ("16777619:" ++ key) % nodes.length]?

/-- The node that a key belongs to among the acceptable ones. -/
def lookup (m : Roster α) (key : String) (accept : α → Bool) : Option α :=
  (m.owner accept (Hash.ofText key)).bind fun p => choose key (m.slot accept p)

end

/-! ## Small facts -/

section

variable {α : Type} [ToString α]

/-- All nodes at a position. -/
abbrev slotAll (m : Roster α) (p : Nat) : List α := m.slot (fun _ => true) p

theorem slot_eq_filter (m : Roster α) (accept : α → Bool) (p : Nat) :
    m.slot accept p = (m.slotAll p).filter accept := by
  simp only [slotAll, slot, List.filter_map, List.filter_filter, and_true]
  congr 1
  refine List.filter_congr fun s _ => ?_
  simp [and_comm]

theorem mem_taken {m : Roster α} {accept : α → Bool} {p : Nat} :
    p ∈ m.taken accept ↔ ∃ a, (p, a) ∈ m.seats ∧ accept a = true := by
  simp only [taken, List.mem_map, List.mem_filter]
  constructor
  · rintro ⟨⟨q, a⟩, ⟨hs, ha⟩, rfl⟩
    exact ⟨a, hs, ha⟩
  · rintro ⟨a, hs, ha⟩
    exact ⟨(p, a), ⟨hs, ha⟩, rfl⟩

theorem mem_slotAll {m : Roster α} {p : Nat} {a : α} : a ∈ m.slotAll p ↔ (p, a) ∈ m.seats := by
  simp [slotAll, slot]

omit [ToString α] in
theorem choose_isSome {key : String} {nodes : List α} :
    (choose key nodes).isSome ↔ nodes ≠ [] := by
  match nodes with
  | [] => simp [choose]
  | [a] => simp [choose]
  | a :: b :: rest =>
    have hlt : Hash.ofText ("16777619:" ++ key) % (a :: b :: rest).length
        < (a :: b :: rest).length := Nat.mod_lt _ (by simp)
    show ((a :: b :: rest)[_]?).isSome ↔ _
    rw [List.getElem?_eq_getElem hlt]
    simp

/-- A position is taken by an acceptable member exactly when a key finds a node there. -/
theorem mem_taken_iff_choose (m : Roster α) (accept : α → Bool) (key : String) (p : Nat) :
    p ∈ m.taken accept ↔ (choose key (m.slot accept p)).isSome := by
  rw [choose_isSome, mem_taken, slot_eq_filter, Ne, List.filter_eq_nil_iff]
  push Not
  exact exists_congr fun a => by rw [mem_slotAll]

omit [ToString α] in
theorem mem_of_choose {key : String} {nodes : List α} {a : α} (h : choose key nodes = some a) :
    a ∈ nodes := by
  match nodes with
  | [] => exact absurd h (by simp [choose])
  | [b] =>
    obtain rfl := Option.some.inj h
    exact List.mem_cons_self
  | b :: c :: rest => exact List.mem_of_getElem? h

theorem lookup_eq_choose (m : Roster α) (key : String) (accept : α → Bool) :
    m.lookup key accept = choose key (m.slotFor accept (Hash.ofText key)) := by
  rw [lookup, slotFor]
  cases m.owner accept (Hash.ofText key) <;> rfl

theorem owner_mem {m : Roster α} {accept : α → Bool} {d p : Nat}
    (ho : m.owner accept d = some p) : p ∈ m.taken accept := by
  rw [owner] at ho
  cases hahead : ((m.taken accept).filter (d ≤ ·)).min? with
  | some q =>
    rw [hahead, Option.some_or] at ho
    obtain rfl := Option.some.inj ho
    exact List.mem_of_mem_filter (List.min?_mem hahead)
  | none =>
    rw [hahead, Option.none_or] at ho
    exact List.min?_mem ho

/-! ## Some of the members -/

/-- The roster of the members whose node passes a test. -/
def keep (m : Roster α) (p : α → Bool) : Roster α :=
  { m with members := m.members.filter fun e => p e.1 }

theorem seats_keep (m : Roster α) (p : α → Bool) :
    (m.keep p).seats = m.seats.filter fun s => p s.2 := by
  obtain ⟨replicas, members⟩ := m
  simp only [seats, keep]
  induction members with
  | nil => rfl
  | cons e rest ih =>
    -- the positions of one member carry one node, so they pass together or not at all
    have hnode : ∀ s ∈ seatsOf e, p s.2 = p e.1 := by
      intro s hs
      obtain ⟨i, -, rfl⟩ := List.mem_map.1 hs
      rfl
    rw [List.flatMap_cons, List.filter_append, ← ih]
    cases he : p e.1 with
    | false =>
      have hgone : (seatsOf e).filter (fun s => p s.2) = [] := by
        refine List.filter_eq_nil_iff.2 fun s hs => ?_
        simp [hnode s hs, he]
      rw [hgone, List.filter_cons_of_neg (by simp [he])]
      rfl
    | true =>
      have hall : (seatsOf e).filter (fun s => p s.2) = seatsOf e := by
        refine List.filter_eq_self.2 fun s hs => ?_
        rw [hnode s hs, he]
      rw [hall, List.filter_cons_of_pos (by simpa using he)]
      rfl

theorem taken_keep (m : Roster α) (p : α → Bool) :
    (m.keep p).taken (fun _ => true) = m.taken p := by
  simp only [taken, seats_keep, List.filter_true]

theorem slotAll_keep (m : Roster α) (p : α → Bool) (k : Nat) :
    (m.keep p).slotAll k = m.slot p k := by
  simp only [slotAll, slot, seats_keep, List.filter_filter, and_true]
  congr 1
  refine List.filter_congr fun s _ => ?_
  simp

/-- Asking for some members only is asking a roster that has only them. -/
theorem slotFor_keep (m : Roster α) (p : α → Bool) (d : Nat) :
    (m.keep p).slotFor (fun _ => true) d = m.slotFor p d := by
  rw [slotFor, slotFor, owner, owner, taken_keep]
  cases ((m.taken p).filter (d ≤ ·)).min?.or (m.taken p).min? with
  | none => rfl
  | some k => exact m.slotAll_keep p k

/-! ## Taking a member off -/

theorem erase_of_notMem {m : Roster α} {t : String} (h : t ∉ m.texts) : m.erase t = m := by
  have : m.members.filter (fun e => decide (toString e.1 ≠ t)) = m.members := by
    refine List.filter_eq_self.2 fun e he => decide_eq_true fun heq => h ?_
    exact heq ▸ List.mem_map_of_mem he
  rw [erase, this]

/-- The members are the one with a text and those without it. -/
theorem perm_erase {m : Roster α} (hnodup : m.texts.Nodup) {e : α × Nat} (he : e ∈ m.members) :
    m.members.Perm (e :: (m.erase (toString e.1)).members) := by
  obtain ⟨replicas, members⟩ := m
  simp only [texts, erase] at *
  induction members with
  | nil => exact absurd he List.not_mem_nil
  | cons x rest ih =>
    obtain ⟨hx, hrest⟩ := List.nodup_cons.1 hnodup
    rcases List.mem_cons.1 he with rfl | he
    · -- no other entry has the text, so the filter drops this one only
      have hkeep : rest.filter (fun b => decide (toString b.1 ≠ toString e.1)) = rest := by
        refine List.filter_eq_self.2 fun b hb => decide_eq_true fun heq => hx ?_
        exact List.mem_map.2 ⟨b, hb, heq⟩
      rw [List.filter_cons_of_neg (by simp), hkeep]
    · have hne : toString x.1 ≠ toString e.1 := fun heq => hx (List.mem_map.2 ⟨e, he, heq.symm⟩)
      rw [List.filter_cons_of_pos (by simpa using hne)]
      exact ((ih hrest he).cons x).trans (List.Perm.swap e x _)

theorem seats_erase (m : Roster α) (t : String) :
    (m.erase t).seats = m.seats.filter fun s => toString s.2 ≠ t :=
  m.seats_keep fun a => toString a ≠ t

theorem slotAll_erase (m : Roster α) (t : String) (p : Nat) :
    (m.erase t).slotAll p = (m.slotAll p).filter fun a => toString a ≠ t := by
  simp only [slotAll, slot, seats_erase, List.filter_map, List.filter_filter]
  congr 1
  refine List.filter_congr fun s _ => ?_
  simp [Bool.and_comm]

theorem mem_seats {m : Roster α} {p : Nat} {a : α} :
    (p, a) ∈ m.seats ↔
      ∃ n, (a, n) ∈ m.members ∧ ∃ i < n, Hash.ofText (toString a ++ toString i) = p := by
  simp only [seats, seatsOf, List.mem_flatMap, List.mem_map, List.mem_range]
  constructor
  · rintro ⟨⟨b, n⟩, hb, i, hi, heq⟩
    obtain ⟨hp, rfl⟩ := Prod.mk.inj heq
    exact ⟨n, hb, i, hi, hp⟩
  · rintro ⟨n, ha, i, hi, hp⟩
    exact ⟨(a, n), ha, i, hi, by rw [hp]⟩

/-! ## Appending a member -/

/-- The roster with one more entry at its end. -/
def append (m : Roster α) (e : α × Nat) : Roster α := { m with members := m.members ++ [e] }

theorem enter_of_pos (m : Roster α) (a : α) {n : Nat} (hn : n ≠ 0) :
    m.enter a n = (m.erase (toString a)).append (a, n) := by
  rw [enter, if_neg hn]
  rfl

theorem texts_append (m : Roster α) (e : α × Nat) :
    (m.append e).texts = m.texts ++ [toString e.1] := by
  simp [texts, append]

theorem notMem_texts_erase (m : Roster α) (t : String) : t ∉ (m.erase t).texts := by
  simp [texts, erase]

theorem seats_append (m : Roster α) (e : α × Nat) : (m.append e).seats = m.seats ++ seatsOf e := by
  simp [seats, append]

theorem slotAll_append (m : Roster α) (e : α × Nat) (p : Nat) :
    (m.append e).slotAll p
      = m.slotAll p ++ List.replicate (((seatsOf e).map Prod.fst).count p) e.1 := by
  have hnode : ∀ s ∈ seatsOf e, s.2 = e.1 := by
    intro s hs
    obtain ⟨i, -, rfl⟩ := List.mem_map.1 hs
    rfl
  rw [slotAll, slot, seats_append, List.filter_append, List.map_append]
  congr 1
  refine List.eq_replicate_iff.2 ⟨?_, fun a ha => ?_⟩
  · rw [List.length_map, List.count_eq_length_filter, List.filter_map, List.length_map]
    congr 1
    exact List.filter_congr fun s _ => by simp [beq_eq_decide]
  · obtain ⟨s, hs, rfl⟩ := List.mem_map.1 ha
    exact hnode s (List.mem_of_mem_filter hs)

/-- At each position, the copies of a member are as many as its indices that lead there. -/
theorem filter_slotAll {m : Roster α} (hnodup : m.texts.Nodup) {a : α} {n : Nat}
    (h : (a, n) ∈ m.members) (p : Nat) :
    (m.slotAll p).filter (fun b => decide (toString b = toString a))
      = List.replicate (((seatsOf (a, n)).map Prod.fst).count p) a := by
  have hkeep : (m.keep fun b => toString b = toString a) = (Roster.mk m.replicas []).append (a, n) := by
    have hothers : (m.erase (toString a)).members.filter (fun e => toString e.1 = toString a) = [] := by
      refine List.filter_eq_nil_iff.2 fun e he => ?_
      simpa using (List.mem_filter.1 he).2
    have hperm := (perm_erase hnodup h).filter fun e => decide (toString e.1 = toString a)
    rw [List.filter_cons_of_pos (by simp), hothers, List.perm_singleton] at hperm
    rw [keep, hperm]
    rfl
  rw [← slot_eq_filter, ← slotAll_keep, hkeep, slotAll_append]
  rfl

end

end Roster

end Steering
