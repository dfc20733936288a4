import Steering.Proofs.Ring.Search
import Steering.Proofs.Ring.Reconcile

/-!
# `Steering.Proofs.Ring.Coherence` — the three tables of a ring tell one story

What a ring is made of is stored three times over: a position is in the sorted list, with copies; at the
position stand nodes; and the member has a number of positions. `Coherent` says how the three hang
together, and it says so of the tables alone, without a roster. It is counted in one currency, the pairs of
a member and one of its indices (`indicesAt`): a position has as many copies as pairs lead there, and as
many nodes.

Everything a ring does to its tables it does by two *edits*, taking a text off and putting a node in. An
operation is a row of edits (`apply_eq_edited`) — a reconciliation may be a long one — and the tables are
coherent after each of them, so in particular whenever one of the two functions or an operation returns
(`Laid.exists_edited`, `Laid.coherent`).

Two things are sure because of it. Whoever takes a member off finds a copy of each of its positions, also
where it shares positions (`Coherent.neverMisses`); and a key that walks clockwise never comes to a position
where no nodes are kept (`Coherent.contains_of_mem_clockwise`).
-/

namespace Steering.Ring

open Roster

section

variable {α : Type} {r : Ring α}

/-! ## Pairs of a member and an index -/

/-- The pairs of a member's text and one of its indices. -/
def indices (r : Ring α) : List (String × Nat) :=
  r.members.entries.flatMap fun e => (List.range e.2).map fun i => (e.1, i)

/-- The pairs that lead to a position. -/
def indicesAt (r : Ring α) (p : Nat) : Finset (String × Nat) :=
  (r.indices.filter fun e => position e.1 e.2 = p).toFinset

theorem nodup_indices (r : Ring α) : r.indices.Nodup := by
  rw [indices, List.nodup_flatMap]
  refine ⟨fun e _ => ?_, ?_⟩
  · exact List.nodup_range.map fun i j h => (Prod.mk.inj h).2
  · -- entries differ in their texts, and so do their pairs
    refine (List.pairwise_map.1 r.members.nodup).imp fun {e f} hne => ?_
    rintro ⟨t, i⟩ he hf
    obtain ⟨_, _, heq⟩ := List.mem_map.1 he
    obtain ⟨_, _, hfeq⟩ := List.mem_map.1 hf
    exact hne ((Prod.mk.inj heq).1.trans (Prod.mk.inj hfeq).1.symm)

theorem mem_indicesAt {p : Nat} {t : String} {i : Nat} :
    (t, i) ∈ r.indicesAt p ↔ ∃ n, r.members.get? t = some n ∧ i < n ∧ position t i = p := by
  simp only [indicesAt, indices, List.mem_toFinset, List.mem_filter, List.mem_flatMap, List.mem_map,
    List.mem_range, decide_eq_true_iff, Table.get?_eq_some_iff]
  constructor
  · rintro ⟨⟨e, he, j, hj, heq⟩, hp⟩
    obtain ⟨rfl, rfl⟩ := Prod.mk.inj heq
    exact ⟨e.2, he, hj, hp⟩
  · rintro ⟨n, hn, hi, hp⟩
    exact ⟨⟨(t, n), hn, i, hi, rfl⟩, hp⟩

theorem map_position_indices (r : Ring α) :
    (r.indices.map fun e => position e.1 e.2)
      = r.members.entries.flatMap fun e => positions e.1 e.2 := by
  rw [indices, List.map_flatMap]
  refine List.flatMap_congr fun e _ => ?_
  rw [List.map_map]
  rfl

/-- A position occurs among the positions of all members as often as pairs lead there. -/
theorem count_positions (r : Ring α) (p : Nat) :
    (r.members.entries.flatMap fun e => positions e.1 e.2).count p = (r.indicesAt p).card := by
  rw [← map_position_indices, indicesAt, List.toFinset_card_of_nodup ((nodup_indices r).filter _),
    List.count_eq_length_filter, List.filter_map, List.length_map]
  rfl

end

section

variable {α : Type} [ToString α] {r : Ring α} {m : Roster α}

/-! ## Coherence -/

/-- The three tables of a ring agree. -/
structure Coherent (r : Ring α) : Prop where
  sorted : r.keys.Pairwise (· ≤ ·)
  /-- A position is listed once for each pair of a member and an index that leads there. -/
  count_keys : ∀ p, r.keys.count p = (r.indicesAt p).card
  /-- As many nodes stand there. -/
  length_slotAt : ∀ p, (r.slotAt p).length = (r.indicesAt p).card
  /-- There is a slot exactly where somebody stands. -/
  contains_iff : ∀ p, r.slots.contains p = true ↔ r.slotAt p ≠ []
  /-- A member has a node that stands at each position once for each of its indices that leads there. -/
  copies : ∀ t n, r.members.get? t = some n → ∃ a, toString a = t ∧
    ∀ p, (r.slotAt p).filter (fun b => toString b = t) = List.replicate ((positions t n).count p) a
  /-- Nobody else stands anywhere. -/
  hasText : ∀ p, ∀ a ∈ r.slotAt p, r.hasText (toString a) = true
  /-- Nodes with one text are one node. -/
  same : ∀ a b, r.Stores a → r.Stores b → toString a = toString b → a = b
  counts : ∀ t n, r.members.get? t = some n → 1 ≤ n ∧ n ≤ r.replicas

namespace Coherent

/-- The list of positions holds those of each member. -/
theorem exists_perm (h : Coherent r) {t : String} {n : Nat} (hn : r.members.get? t = some n) :
    ∃ rest, r.keys.Perm (positions t n ++ rest) := by
  have hkeys : r.keys.Perm (r.members.entries.flatMap fun e => positions e.1 e.2) :=
    List.perm_iff_count.2 fun p => by rw [h.count_keys, count_positions]
  have he : (t, n) ∈ r.members.entries := Table.get?_eq_some_iff.1 hn
  exact ⟨_, hkeys.trans ((List.perm_cons_erase he).flatMap_right _)⟩

/-- **Whoever takes a member off finds all its positions.** -/
theorem neverMisses (h : Coherent r) (s : Search) (t : String) :
    NeverMisses s r t ∧ r.deleteBy s t = r.delete t :=
  neverMisses_of_perm s h.sorted fun _ hn => h.exists_perm hn

/-- **A walk only meets positions that have a slot.** -/
theorem contains_of_mem_clockwise (h : Coherent r) {digest k : Nat} (hk : k ∈ r.clockwise digest) :
    r.slots.contains k = true := by
  have hkey : k ∈ r.keys := by
    rw [clockwise, (List.perm_append_comm).mem_iff, List.takeWhile_append_dropWhile] at hk
    exact hk
  rw [h.contains_iff, ← List.length_pos_iff, h.length_slotAt, ← h.count_keys]
  exact List.count_pos_iff.2 hkey

end Coherent

/-! ## The tables of a roster -/

theorem Laid.positions_entries (h : Laid r m) :
    (r.members.entries.flatMap fun e => positions e.1 e.2) = m.seats.map Prod.fst := by
  rw [h.members, List.flatMap_map, seats, List.map_flatMap]
  exact List.flatMap_congr fun e _ => positions_eq e.1 e.2

/-- **Tables that hold a roster are coherent.** -/
theorem Laid.coherent (h : Laid r m) : Coherent r := by
  have hcount : ∀ p, r.keys.count p = (r.indicesAt p).card := by
    intro p
    rw [h.keys.count_eq, ← h.positions_entries, count_positions]
  exact
    { sorted := h.sorted
      count_keys := hcount
      length_slotAt := fun p => by rw [← h.count_keys, hcount]
      contains_iff := by
        intro p
        rw [Table.contains, h.slotAt_eq, h.slots]
        cases m.slotAll p <;> simp [stored]
      copies := by
        intro t n hn
        obtain ⟨a, ha, rfl⟩ := h.exists_member hn
        refine ⟨a, rfl, fun p => ?_⟩
        rw [h.slotAt_eq, positions_eq]
        exact filter_slotAll h.nodup ha p
      hasText := by
        intro p a ha
        rw [h.slotAt_eq] at ha
        obtain ⟨n, hn, -⟩ := mem_seats.1 (mem_slotAll.1 ha)
        rw [h.hasText_eq]
        exact decide_eq_true (List.mem_map.2 ⟨_, hn, rfl⟩)
      same := fun a b ha hb => h.stores_eq ha hb
      counts := by
        intro t n hn
        obtain ⟨a, ha, -⟩ := h.exists_member hn
        rw [h.replicas]
        exact h.counts _ ha }

/-! ## Edits -/

/-- A change of the tables. -/
inductive Edit (α : Type) where
  | delete (text : String)
  | join (a : α) (n : Nat)
  deriving DecidableEq

namespace Edit

/-- The text that is taken off; a node that is put in takes the place of the member with its text. -/
def text : Edit α → String
  | delete t => t
  | join a _ => toString a

def act (r : Ring α) : Edit α → Ring α
  | delete t => (r.delete t).1
  | join a n => r.join a n

omit [ToString α] in
/-- Whether a node that is put in has a number of positions that a member can have. -/
def Fits (replicas : Nat) : Edit α → Prop
  | delete _ => True
  | join _ n => 1 ≤ n ∧ n ≤ replicas

end Edit

/-- A ring after some edits. -/
def edited (r : Ring α) (edits : List (Edit α)) : Ring α := edits.foldl Edit.act r

theorem edited_append (r : Ring α) (edits more : List (Edit α)) :
    r.edited (edits ++ more) = (r.edited edits).edited more := List.foldl_append

/-- The edit that adding a node comes to. -/
def entering (r : Ring α) (a : α) (n : Nat) : Edit α :=
  if min n r.replicas = 0 then .delete (toString a) else .join a (min n r.replicas)

/-- The edits that put in what is missing. -/
def joining (r : Ring α) : List (String × α) → List (Edit α)
  | [] => []
  | e :: rest =>
    if r.hasText e.1 then r.joining rest
    else .join e.2 r.replicas :: (r.join e.2 r.replicas).joining rest

/-- The edits that an operation is made of. -/
def edits (r : Ring α) : Op α → List (Edit α)
  | .add a => [r.entering a r.replicas]
  | .addReplicas a n => [r.entering a n]
  | .addWeight a weight => [r.entering a (r.replicasOf weight)]
  | .remove a => [.delete (toString a)]
  | .reconcile dismiss arrange nodes =>
    if r.hasExactly (wanted nodes) then []
    else
      let stale := dismiss.order (r.members.keys.filter fun t => !(wanted nodes).contains t)
      let dismissals := stale.map Edit.delete
      dismissals ++ (r.edited dismissals).joining (arrange.order (wanted nodes).entries)

theorem act_entering (r : Ring α) (a : α) (n : Nat) :
    (r.entering a n).act r = r.addReplicas a n := by
  rw [entering, addReplicas]
  by_cases hn : min n r.replicas = 0
  · rw [if_pos hn]
    exact (if_pos hn).symm
  · rw [if_neg hn]
    exact (if_neg hn).symm

theorem edited_joining (r : Ring α) (come : List (String × α)) :
    r.edited (r.joining come) = come.foldl joinMissing r := by
  induction come generalizing r with
  | nil => rfl
  | cons e rest ih =>
    rw [joining, List.foldl_cons, joinMissing]
    split
    · exact ih r
    · exact ih _

/-- **An operation is its edits**, one after the other. -/
theorem apply_eq_edited (r : Ring α) (op : Op α) : (r.apply op).1 = r.edited (r.edits op) := by
  cases op with
  | add a => exact (act_entering r a r.replicas).symm
  | addReplicas a n => exact (act_entering r a n).symm
  | addWeight a weight => exact (act_entering r a (r.replicasOf weight)).symm
  | remove a => rfl
  | reconcile dismiss arrange nodes =>
    show (r.reconcileBy dismiss.order arrange.order nodes).1 = _
    rw [reconcileBy, edits]
    split
    · rfl
    · rw [edited_append, edited_joining, edited, List.foldl_map]
      rfl

/-! ## Coherence at every step -/

theorem replicas_delete (r : Ring α) (t : String) : (r.delete t).1.replicas = r.replicas := by
  rw [delete]
  split <;> rfl

theorem replicas_act (r : Ring α) (e : Edit α) : (e.act r).replicas = r.replicas := by
  cases e with
  | delete t => exact replicas_delete r t
  | join a n => exact replicas_delete r (toString a)

theorem replicas_edited (r : Ring α) (edits : List (Edit α)) :
    (r.edited edits).replicas = r.replicas := by
  induction edits generalizing r with
  | nil => rfl
  | cons e rest ih => exact (ih (e.act r)).trans (replicas_act r e)

theorem fits_entering (r : Ring α) (a : α) (n : Nat) : (r.entering a n).Fits r.replicas := by
  rw [entering]
  split
  · trivial
  · exact ⟨Nat.one_le_iff_ne_zero.2 ‹_›, Nat.min_le_right n r.replicas⟩

theorem fits_joining {r : Ring α} {n : Nat} (hn : r.replicas = n) (hpos : 0 < n)
    (come : List (String × α)) : ∀ e ∈ r.joining come, e.Fits n := by
  induction come generalizing r with
  | nil => exact fun e he => absurd he List.not_mem_nil
  | cons b rest ih =>
    rw [joining]
    split
    · exact ih hn
    · intro e he
      rcases List.mem_cons.1 he with rfl | he
      · exact ⟨hn.symm ▸ hpos, hn.le⟩
      · exact ih ((replicas_act r (.join b.2 r.replicas)).trans hn) e he

/-- Nobody is put in with no positions or with more than a full member has. -/
theorem fits_edits {r : Ring α} (hpos : 0 < r.replicas) (op : Op α) :
    ∀ e ∈ r.edits op, e.Fits r.replicas := by
  have hone : ∀ (a : α) (n : Nat), ∀ e ∈ [r.entering a n], e.Fits r.replicas := by
    intro a n e he
    rw [List.mem_singleton.1 he]
    exact fits_entering r a n
  cases op with
  | add a => exact hone a _
  | addReplicas a n => exact hone a n
  | addWeight a weight => exact hone a _
  | remove a =>
    intro e he
    rw [List.mem_singleton.1 he]
    trivial
  | reconcile dismiss arrange nodes =>
    rw [edits]
    split
    · exact fun e he => absurd he List.not_mem_nil
    · intro e he
      rcases List.mem_append.1 he with he | he
      · obtain ⟨t, -, rfl⟩ := List.mem_map.1 he
        trivial
      · exact fits_joining (replicas_edited r _) hpos _ e he

/-- **After an edit** the tables are again those of some roster. -/
theorem Laid.exists_act (h : Laid r m) {e : Edit α} (he : e.Fits m.replicas) :
    ∃ m', Laid (e.act r) m' ∧ m'.replicas = m.replicas := by
  cases e with
  | delete t => exact ⟨_, (h.delete t).1, rfl⟩
  | join a n => exact ⟨_, h.join a he.1 he.2, rfl⟩

/-- **After any number of edits** they are. -/
theorem Laid.exists_edited (h : Laid r m) {edits : List (Edit α)}
    (hfits : ∀ e ∈ edits, e.Fits m.replicas) :
    ∃ m', Laid (r.edited edits) m' ∧ m'.replicas = m.replicas := by
  induction edits generalizing r m with
  | nil => exact ⟨m, h, rfl⟩
  | cons e rest ih =>
    obtain ⟨mid, hmid, hsame⟩ := h.exists_act (hfits e List.mem_cons_self)
    have hrest : ∀ f ∈ rest, f.Fits mid.replicas := by
      rw [hsame]
      exact fun f hf => hfits f (List.mem_cons_of_mem e hf)
    obtain ⟨m', h', heq⟩ := ih hmid hrest
    exact ⟨m', h', heq.trans hsame⟩

/-- **The tables of a ring are coherent whenever anything returns.** After any operations a ring is
coherent, and a walk for a key finds a slot at every position that it comes to. Any further operation
consists of edits. The ring is coherent before each of them, once the text has been taken off, and after
it; and all searches for the positions of the member that is taken off hit, whichever way they are made,
and take out what is to be taken out. -/
theorem coherent_at_every_return (replicas : Nat) (ops : List (Op α)) (search : Search) :
    let ring := ((Ring.empty replicas : Ring α).run ops).1
    ring.replicas = (if replicas = 0 then 32 else replicas) ∧
      Coherent ring ∧
      (∀ key, ∀ k ∈ ring.clockwise (Hash.ofText key), ring.slots.contains k = true) ∧
      ∀ op, (ring.apply op).1 = ring.edited (ring.edits op) ∧
        ∀ before e after, ring.edits op = before ++ e :: after →
          let now := ring.edited before
          now.replicas = ring.replicas ∧
            Coherent now ∧ Coherent (now.delete e.text).1 ∧ Coherent (e.act now) ∧
            NeverMisses search now e.text ∧ now.deleteBy search e.text = now.delete e.text := by
  intro ring
  obtain ⟨m, h⟩ := exists_laid (α := α) replicas ops
  refine ⟨replicas_run replicas ops, h.coherent,
    fun key k hk => h.coherent.contains_of_mem_clockwise hk, fun op => ⟨apply_eq_edited ring op, ?_⟩⟩
  intro before e after hedits now
  have hfits : ∀ f ∈ ring.edits op, f.Fits m.replicas := by
    rw [← h.replicas]
    exact fits_edits (h.replicas.symm ▸ h.replicas_pos) op
  have hbefore : ∀ f ∈ before, f.Fits m.replicas :=
    fun f hf => hfits f (hedits ▸ List.mem_append_left _ hf)
  obtain ⟨m', hnow, hsame⟩ := h.exists_edited hbefore
  have he : e.Fits m'.replicas := by
    rw [hsame]
    exact hfits e (hedits ▸ List.mem_append_right _ List.mem_cons_self)
  obtain ⟨m'', hnext, -⟩ := hnow.exists_act he
  exact ⟨replicas_edited ring before, hnow.coherent, (hnow.delete e.text).1.coherent, hnext.coherent,
    hnow.coherent.neverMisses search e.text⟩

/-- `a` and `a1` share two positions. A list with neither `a` nor `b` takes both off; the position of `a`
with index ten, which is listed twice, then stays listed once, for `a1`. -/
theorem coherent_at_every_return_shared :
    let ring := ((Ring.empty 12).run lightNeighbour).1
    let now := ring.edited [.delete "b"]
    let place := position "a" 10
    ring.edits (.reconcile (.backward _) (.keep _) [⟨"a1", 5⟩, ⟨"c", 1⟩])
        = [.delete "b", .delete "a", .join ⟨"c", 1⟩ 12] ∧
      (("a", 10) ∈ now.indicesAt place ∧ ("a1", 0) ∈ now.indicesAt place) ∧
      ((now.indicesAt place).card = 2 ∧ now.slotAt place = [⟨"a", 0⟩, ⟨"a1", 0⟩]) ∧
      Search.halving.Hits ((positions "a" 10).foldl Search.halving.erase now.keys) place ∧
      now.deleteBy .halving "a" = now.delete "a" ∧
      ((now.delete "a").1.indicesAt place).card = 1 := by
  intro ring now place
  obtain ⟨-, -, -, hop⟩ := coherent_at_every_return 12 lightNeighbour Search.halving
  obtain ⟨-, hcalls⟩ := hop (.reconcile (.backward _) (.keep _) [⟨"a1", 5⟩, ⟨"c", 1⟩])
  have hedits : ring.edits (.reconcile (.backward _) (.keep _) [⟨"a1", 5⟩, ⟨"c", 1⟩])
      = [.delete "b", .delete "a", .join ⟨"c", 1⟩ 12] := by decide +kernel
  obtain ⟨-, hnow, hless, -, hhits, hsame⟩ := hcalls [.delete "b"] (.delete "a") _ hedits
  have hfull : now.members.get? "a" = some 12 := by decide +kernel
  have hlight : now.members.get? "a1" = some 2 := by decide +kernel
  have htwo : now.keys.count place = 2 := by decide +kernel
  have hslot : now.slotAt place = [⟨"a", 0⟩, ⟨"a1", 0⟩] := by decide +kernel
  have hone : (now.delete "a").1.keys.count place = 1 := by decide +kernel
  refine ⟨hedits, ⟨?_, ?_⟩, ⟨?_, hslot⟩, hhits 12 hfull 10 (by decide), hsame, ?_⟩
  · exact mem_indicesAt.2 ⟨12, hfull, by decide, rfl⟩
  · exact mem_indicesAt.2 ⟨2, hlight, by decide, congrArg Hash.ofText (by decide)⟩
  · exact (hnow.count_keys place).symm.trans htwo
  · exact (hless.count_keys place).symm.trans hone

end

end Steering.Ring
