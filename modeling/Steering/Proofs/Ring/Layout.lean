import Steering.Proofs.Ring.Roster
import Steering.Proofs.Tables

/-!
# `Steering.Proofs.Ring.Layout` — how a ring lays out its members

`Laid r m` says what each of the three tables of a ring holds when its members are those of a roster:
the position list is the roster's positions, sorted, *with* repetitions; the slot of a position is
the roster's, and there is none where the roster's is empty; the counts are the roster's, in its
order. It is the whole invariant of the ring — every operation re-establishes it, and a lookup needs
nothing else.

The one operation that has to be argued is taking a member off. It walks the member's indices and at
each one removes *one* copy of the position but *all* the member's nodes of the slot, so the two
tables disagree on the way; only after the last index do they agree again. Hence the steps are not
shown to keep `Laid`. Instead each table is followed through the whole walk on its own: the copies
that leave are the member's positions as a multiset (`foldl_erase_perm`), and clearing a slot twice is
clearing it once (`get?_foldl_clearSlot`).
-/

namespace Steering.Ring

open Roster

/-! ## The sorted positions -/

theorem insertSorted_eq (k : Nat) (l : List Nat) :
    insertSorted k l = l.orderedInsert (· ≤ ·) k := by
  induction l with
  | nil => rfl
  | cons x rest ih => rw [insertSorted, List.orderedInsert_cons, ih]

theorem foldl_insertSorted (added l : List Nat) (h : l.Pairwise (· ≤ ·)) :
    (added.foldl (fun keys k => insertSorted k keys) l).Pairwise (· ≤ ·) ∧
      (added.foldl (fun keys k => insertSorted k keys) l).Perm (l ++ added) := by
  induction added generalizing l with
  | nil => exact ⟨h, by simp⟩
  | cons k rest ih =>
    rw [List.foldl_cons, insertSorted_eq]
    obtain ⟨hs, hp⟩ := ih _ (h.orderedInsert k l)
    refine ⟨hs, hp.trans ?_⟩
    exact ((List.perm_orderedInsert _ k l).append_right rest).trans List.perm_middle.symm

/-- Removing one copy of each of some positions leaves the others. -/
theorem foldl_erase_perm {gone rest l : List Nat} (h : l.Perm (gone ++ rest)) :
    (gone.foldl (fun keys k => keys.erase k) l).Perm rest := by
  induction gone generalizing l with
  | nil => exact h
  | cons k gone ih =>
    refine ih ?_
    have := h.erase k
    rwa [List.cons_append, List.erase_cons_head] at this

theorem foldl_erase_sorted {l : List Nat} (gone : List Nat) (h : l.Pairwise (· ≤ ·)) :
    (gone.foldl (fun keys k => keys.erase k) l).Pairwise (· ≤ ·) := by
  rw [← List.diff_eq_foldl]
  exact h.sublist (List.diff_sublist l gone)

/-! ## The slots -/

/-- What a table of slots stores for the nodes at a position: nothing when there are none. -/
def stored {α : Type} : List α → Option (List α)
  | [] => none
  | nodes => some nodes

@[simp] theorem stored_nil {α : Type} : stored ([] : List α) = none := rfl

theorem stored_of_ne_nil {α : Type} {l : List α} (h : l ≠ []) : stored l = some l := by
  cases l with
  | nil => exact absurd rfl h
  | cons => rfl

theorem eq_of_stored {α : Type} {l nodes : List α} (h : stored l = some nodes) : l = nodes := by
  cases l with
  | nil => exact absurd h (by simp)
  | cons a rest => exact Option.some.inj h

theorem getD_stored {α : Type} (l : List α) : (stored l).getD [] = l := by
  cases l <;> rfl

section

variable {α : Type} [ToString α]

/-- Clearing a slot changes the nodes there to those of other texts, and no other slot. -/
theorem get?_clearSlot {slots : Table Nat (List α)} {nodes : Nat → List α}
    (h : ∀ k, slots.get? k = stored (nodes k)) (text : String) (j k : Nat) :
    (clearSlot text slots j).get? k
      = stored (if k = j then (nodes k).filter fun a => toString a ≠ text else nodes k) := by
  rw [clearSlot, h j]
  by_cases hj : nodes j = []
  · rw [hj, stored_nil, h k]
    by_cases hk : k = j
    · rw [if_pos hk, hk, hj, List.filter_nil]
    · rw [if_neg hk]
  · rw [stored_of_ne_nil hj]
    show (if ((nodes j).filter fun a => decide (toString a ≠ text)).isEmpty = true then _
      else _ : Table Nat (List α)).get? k = _
    by_cases hk : k = j
    · subst hk
      rw [if_pos rfl]
      by_cases he : ((nodes k).filter fun a => decide (toString a ≠ text)) = []
      · rw [if_pos (by rw [he]; rfl), Table.get?_erase, if_pos rfl, he, stored_nil]
      · rw [if_neg (by rw [List.isEmpty_iff]; exact he), Table.get?_insert, if_pos rfl,
          stored_of_ne_nil he]
    · rw [if_neg hk]
      split
      · rw [Table.get?_erase, if_neg hk, h k]
      · rw [Table.get?_insert, if_neg (Ne.symm hk), h k]

/-- **A position that is met twice is cleared once**: the second time there is nothing left of the
text. -/
theorem get?_foldl_clearSlot {slots : Table Nat (List α)} {nodes : Nat → List α}
    (h : ∀ k, slots.get? k = stored (nodes k)) (text : String) (gone : List Nat) (k : Nat) :
    (gone.foldl (clearSlot text) slots).get? k
      = stored (if k ∈ gone then (nodes k).filter fun a => toString a ≠ text else nodes k) := by
  induction gone generalizing slots nodes with
  | nil => simp [h k]
  | cons j rest ih =>
    rw [List.foldl_cons, ih (get?_clearSlot h text j)]
    -- at a repeated position the second filter has nothing to do
    by_cases hj : k = j
    · by_cases hr : k ∈ rest <;> simp [hj, List.filter_filter]
    · by_cases hr : k ∈ rest <;> simp [hj, hr]

omit [ToString α] in
/-- Filling slots appends the node once for each time that the position is met. -/
theorem get?_foldl_fillSlot {slots : Table Nat (List α)} {nodes : Nat → List α}
    (h : ∀ k, slots.get? k = stored (nodes k)) (a : α) (added : List Nat) (k : Nat) :
    (added.foldl (fillSlot a) slots).get? k
      = stored (nodes k ++ List.replicate (added.count k) a) := by
  induction added generalizing slots nodes with
  | nil => simp [h k]
  | cons j rest ih =>
    have hstep : ∀ i, (fillSlot a slots j).get? i
        = stored (if i = j then nodes i ++ [a] else nodes i) := by
      intro i
      rw [fillSlot, Table.get?_insert, h j, getD_stored, h i]
      by_cases hi : i = j
      · rw [if_pos hi.symm, if_pos hi, hi, stored_of_ne_nil (by simp)]
      · rw [if_neg (Ne.symm hi), if_neg hi]
    rw [List.foldl_cons, ih hstep]
    by_cases hk : k = j
    · rw [if_pos hk, ← hk, List.count_cons_self, List.append_assoc, List.replicate_succ]
      rfl
    · rw [if_neg hk, List.count_cons_of_ne (Ne.symm hk)]

/-! ## The invariant -/

/-- The three tables of a ring hold the members of a roster. -/
structure Laid (r : Ring α) (m : Roster α) : Prop where
  replicas : r.replicas = m.replicas
  replicas_pos : 0 < m.replicas
  sorted : r.keys.Pairwise (· ≤ ·)
  keys : r.keys.Perm (m.seats.map Prod.fst)
  slots : ∀ k, r.slots.get? k = stored (m.slotAll k)
  members : r.members.entries = m.members.map fun e => (toString e.1, e.2)
  counts : ∀ e ∈ m.members, 0 < e.2 ∧ e.2 ≤ m.replicas

namespace Laid

variable {r : Ring α} {m : Roster α}

theorem texts_eq (h : Laid r m) : r.members.keys = m.texts := by
  rw [Table.keys, h.members, List.map_map]
  rfl

theorem nodup (h : Laid r m) : m.texts.Nodup := h.texts_eq ▸ r.members.nodup_keys

theorem size_eq (h : Laid r m) : r.size = m.members.length := by
  rw [Ring.size, Table.size, h.members, List.length_map]

theorem hasText_eq (h : Laid r m) (t : String) : r.hasText t = decide (t ∈ m.texts) := by
  rw [Ring.hasText, Bool.eq_iff_iff, ← Table.mem_keys_iff, h.texts_eq, decide_eq_true_iff]

/-- The count that a ring finds for a text is that of a member. -/
theorem exists_member (h : Laid r m) {t : String} {n : Nat} (hn : r.members.get? t = some n) :
    ∃ a, (a, n) ∈ m.members ∧ toString a = t := by
  rw [Table.get?_eq_some_iff, h.members, List.mem_map] at hn
  obtain ⟨⟨a, k⟩, he, heq⟩ := hn
  obtain ⟨ht, rfl⟩ := Prod.mk.inj heq
  exact ⟨a, he, ht⟩

end Laid

theorem laid_empty (replicas : Nat) :
    Laid (Ring.empty replicas : Ring α) (Roster.empty replicas) where
  replicas := rfl
  replicas_pos := by
    rw [Roster.empty]
    split
    · exact Nat.succ_pos 31
    · exact Nat.pos_of_ne_zero ‹_›
  sorted := List.Pairwise.nil
  keys := List.Perm.nil
  slots := fun _ => rfl
  members := rfl
  counts := fun e he => absurd he List.not_mem_nil

/-! ## Members that leave and members that come -/

theorem positions_eq (a : α) (n : Nat) :
    positions (toString a) n = (seatsOf (a, n)).map Prod.fst := by
  rw [seatsOf, List.map_map]
  rfl

/-- A node stands only at positions of its own member. -/
theorem Laid.mem_positions {r : Ring α} {m : Roster α} (h : Laid r m) {b : α} {n : Nat}
    (hn : r.members.get? (toString b) = some n) {k : Nat} (hb : b ∈ m.slotAll k) :
    k ∈ positions (toString b) n := by
  obtain ⟨j, hj, i, hi, hp⟩ := mem_seats.1 (mem_slotAll.1 hb)
  have hcount : r.members.get? (toString b) = some j := by
    rw [Table.get?_eq_some_iff, h.members]
    exact List.mem_map.2 ⟨_, hj, rfl⟩
  rw [hn] at hcount
  rw [Option.some.inj hcount]
  exact List.mem_map.2 ⟨i, List.mem_range.2 hi, hp⟩

/-- **Taking a text off** takes its entry off the roster, and answers whether there was one. -/
theorem Laid.delete {r : Ring α} {m : Roster α} (h : Laid r m) (t : String) :
    Laid (r.delete t).1 (m.erase t) ∧ (r.delete t).2 = decide (t ∈ m.texts) := by
  cases hn : r.members.get? t with
  | none =>
    have ht : t ∉ m.texts := by
      rw [← h.texts_eq, Table.mem_keys_iff, Table.contains, hn]
      simp
    rw [Ring.delete, hn, erase_of_notMem ht, decide_eq_false ht]
    exact ⟨h, rfl⟩
  | some n =>
    obtain ⟨a, ha, rfl⟩ := h.exists_member hn
    have hmem : toString a ∈ m.texts := List.mem_map.2 ⟨_, ha, rfl⟩
    rw [Ring.delete, hn, decide_eq_true hmem]
    refine ⟨?_, rfl⟩
    have hperm := perm_erase h.nodup ha
    exact
      { replicas := h.replicas
        replicas_pos := h.replicas_pos
        sorted := foldl_erase_sorted _ h.sorted
        keys := by
          refine foldl_erase_perm (h.keys.trans ?_)
          rw [positions_eq, ← List.map_append]
          exact (hperm.flatMap_right seatsOf).map Prod.fst
        slots := by
          intro k
          rw [get?_foldl_clearSlot h.slots, slotAll_erase]
          by_cases hk : k ∈ positions (toString a) n
          · rw [if_pos hk]
          · -- a position that the walk does not meet has none of the member's nodes
            rw [if_neg hk, List.filter_eq_self.2]
            intro b hb
            refine decide_eq_true fun heq => hk ?_
            rw [← heq] at hn ⊢
            exact h.mem_positions hn hb
        members := by
          show r.members.entries.filter _ = (m.members.filter _).map _
          rw [h.members, List.filter_map]
          rfl
        counts := fun e he => h.counts e (List.mem_of_mem_filter he) }

/-- **Putting a node in** appends its entry to the roster without its text. -/
theorem Laid.join {r : Ring α} {m : Roster α} (h : Laid r m) (a : α) {n : Nat} (hpos : 0 < n)
    (hle : n ≤ m.replicas) : Laid (r.join a n) ((m.erase (toString a)).append (a, n)) := by
  obtain ⟨hd, -⟩ := h.delete (toString a)
  obtain ⟨hsorted, hperm⟩ :=
    foldl_insertSorted (positions (toString a) n) (r.delete (toString a)).1.keys hd.sorted
  exact
    { replicas := hd.replicas
      replicas_pos := h.replicas_pos
      sorted := hsorted
      keys := by
        rw [seats_append, List.map_append, ← positions_eq]
        exact hperm.trans (hd.keys.append_right _)
      slots := by
        intro k
        rw [slotAll_append, ← positions_eq]
        exact get?_foldl_fillSlot hd.slots a _ k
      members := by
        -- the text has just been taken off, so the new entry comes last
        have habs : toString a ∉ (r.delete (toString a)).1.members.keys := by
          rw [hd.texts_eq]
          exact notMem_texts_erase m _
        show ((r.delete (toString a)).1.members.insert (toString a) n).entries = _
        rw [Table.entries_insert_of_notMem habs, hd.members, append, List.map_append]
        rfl
      counts := by
        intro e he
        rcases List.mem_append.1 he with he | he
        · exact hd.counts e he
        · rw [List.mem_singleton.1 he]
          exact ⟨hpos, hle⟩ }

theorem Laid.addReplicas {r : Ring α} {m : Roster α} (h : Laid r m) (a : α) (n : Nat) :
    Laid (r.addReplicas a n) (m.addReplicas a n) := by
  rw [Ring.addReplicas, Roster.addReplicas, h.replicas]
  by_cases hn : min n m.replicas = 0
  · rw [if_pos hn, enter, if_pos hn]
    exact (h.delete _).1
  · rw [if_neg hn, enter_of_pos m a hn]
    exact h.join a (Nat.pos_of_ne_zero hn) (Nat.min_le_right n m.replicas)

theorem Laid.add {r : Ring α} {m : Roster α} (h : Laid r m) (a : α) :
    Laid (r.add a) (m.add a) := by
  have := h.addReplicas a m.replicas
  rw [Roster.addReplicas, Nat.min_self] at this
  rw [Ring.add, h.replicas]
  exact this

/-- As long as the product fits a word, the count that a ring computes from a weight and caps is the
one that the roster asks for. -/
theorem Laid.addWeight {r : Ring α} {m : Roster α} (h : Laid r m) (a : α) {weight : Nat}
    (hw : m.replicas * weight < 2 ^ 64) : Laid (r.addWeight a weight) (m.addWeight a weight) := by
  have hword : m.replicas * weight ≤ Nat.pow 2 64 - 1 := Nat.le_sub_one_of_lt hw
  have hcount : min (r.replicasOf weight) m.replicas
      = if weight = 0 then 0 else max 1 (min (m.replicas * weight / 100) m.replicas) := by
    rw [Ring.replicasOf, h.replicas]
    by_cases hz : weight = 0
    · rw [if_pos hz, if_pos hz, Nat.zero_min]
    · rw [if_neg hz, if_neg hz, Nat.min_eq_left hword, fullWeight]
      have := h.replicas_pos
      omega
  have := h.addReplicas a (r.replicasOf weight)
  rwa [Roster.addReplicas, hcount] at this

/-! ## Reconciliation -/

/-- The nodes wanted of a list are the last ones with each text. -/
theorem wanted_entries (nodes : List α) : (wanted nodes).entries = latest nodes := by
  rw [Table.entries_eq_filterMap, wanted, Table.keys_ofList, List.map_map, latest]
  refine List.filterMap_congr fun t _ => ?_
  rw [Table.get?_ofList, ← List.map_reverse, List.find?_map, Option.map_map, Option.map_map]
  rfl

theorem wanted_keys (nodes : List α) : (wanted nodes).keys = (nodes.map toString).eraseDups := by
  rw [wanted, Table.keys_ofList, List.map_map]
  rfl

theorem mem_wanted_keys {nodes : List α} {t : String} :
    t ∈ (wanted nodes).keys ↔ t ∈ nodes.map toString := by
  rw [wanted_keys, List.mem_eraseDups]

/-- **Counting is enough**: as no text occurs twice on either side, equal numbers and one inclusion
make the members' texts those of the list. -/
theorem Laid.hasExactly_iff {r : Ring α} {m : Roster α} (h : Laid r m) (nodes : List α) :
    r.hasExactly (wanted nodes) = true ↔
      m.texts ⊆ nodes.map toString ∧ nodes.map toString ⊆ m.texts := by
  have hsize : r.members.size = m.texts.length := by
    rw [Table.size_eq_length_keys, h.texts_eq]
  rw [hasExactly, Bool.and_eq_true, decide_eq_true_iff, hsize, Table.size_eq_length_keys,
    List.all_eq_true]
  simp only [h.hasText_eq, decide_eq_true_iff]
  constructor
  · rintro ⟨hlen, hsub⟩
    -- a list without repetitions inside one that is no longer is all of it
    have hperm : (wanted nodes).keys.Perm m.texts :=
      (List.subperm_of_subset (Table.nodup_keys _) hsub).perm_of_length_le hlen.le
    refine ⟨fun t ht => mem_wanted_keys.1 (hperm.mem_iff.2 ht), fun t ht => ?_⟩
    exact hperm.mem_iff.1 (mem_wanted_keys.2 ht)
  · rintro ⟨hsub, hsup⟩
    have hperm : m.texts.Perm (wanted nodes).keys := by
      refine (List.perm_ext_iff_of_nodup h.nodup (Table.nodup_keys _)).2 fun t => ?_
      rw [mem_wanted_keys]
      exact ⟨fun ht => hsub ht, fun ht => hsup ht⟩
    exact ⟨hperm.length_eq, fun t ht => hperm.mem_iff.2 ht⟩

/-- Dismissing texts one by one filters them out, in whatever order they come. -/
theorem Laid.foldl_delete {r : Ring α} {m : Roster α} (h : Laid r m) (stale : List String) :
    Laid (stale.foldl (fun r t => (r.delete t).1) r)
      { m with members := m.members.filter fun e => toString e.1 ∉ stale } := by
  induction stale generalizing r m with
  | nil =>
    have : (m.members.filter fun e => decide (toString e.1 ∉ ([] : List String))) = m.members :=
      List.filter_eq_self.2 fun e _ => by simp
    rw [this]
    exact h
  | cons t rest ih =>
    have hsplit : (m.erase t).members.filter (fun e => decide (toString e.1 ∉ rest))
        = m.members.filter fun e => decide (toString e.1 ∉ t :: rest) := by
      rw [erase, List.filter_filter]
      exact List.filter_congr fun e _ => by simp [Bool.and_comm]
    rw [← hsplit]
    exact ih (h.delete t).1

/-- Nodes with distinct texts join one by one, those that are there already excepted. -/
theorem Laid.foldl_joinMissing {r : Ring α} {m : Roster α} (h : Laid r m)
    {come : List (String × α)} (htext : ∀ e ∈ come, e.1 = toString e.2)
    (hnodup : (come.map Prod.fst).Nodup) :
    Laid (come.foldl joinMissing r)
      { m with members := m.members
          ++ (come.filter fun e => e.1 ∉ m.texts).map fun e => (e.2, m.replicas) } := by
  induction come generalizing r m with
  | nil =>
    rw [List.filter_nil, List.map_nil, List.append_nil]
    exact h
  | cons e rest ih =>
    have hrest : ∀ b ∈ rest, b.1 = toString b.2 := fun b hb => htext b (List.mem_cons_of_mem e hb)
    have he : e.1 = toString e.2 := htext e List.mem_cons_self
    obtain ⟨hnew, hnodup⟩ := List.nodup_cons.1 hnodup
    rw [List.foldl_cons, joinMissing, h.hasText_eq]
    by_cases hm : e.1 ∈ m.texts
    · rw [decide_eq_true hm, if_pos rfl, List.filter_cons_of_neg (by simpa using hm)]
      exact ih h hrest hnodup
    · rw [decide_eq_false hm, if_neg (by simp), List.filter_cons_of_pos (by simpa using hm)]
      have hjoin := h.join e.2 h.replicas_pos le_rfl
      rw [← he, erase_of_notMem hm, ← h.replicas] at hjoin
      have := ih hjoin hrest hnodup
      -- the texts to come are not the one that has just joined
      have hsame : rest.filter (fun b => decide (b.1 ∉ (m.append (e.2, m.replicas)).texts))
          = rest.filter fun b => decide (b.1 ∉ m.texts) := by
        refine List.filter_congr fun b hb => ?_
        have hb : b.1 ≠ e.1 := fun heq => hnew (heq ▸ List.mem_map_of_mem hb)
        simp [texts_append, ← he, hb]
      rw [h.replicas, hsame] at this
      rw [h.replicas, List.map_cons, List.append_cons]
      exact this

theorem text_of_mem_latest {nodes : List α} {e : String × α} (he : e ∈ latest nodes) :
    e.1 = toString e.2 := by
  obtain ⟨t, -, ht⟩ := List.mem_filterMap.1 he
  obtain ⟨a, ha, rfl⟩ := Option.map_eq_some_iff.1 ht
  have := List.find?_some ha
  exact (of_decide_eq_true this).symm

/-- The members that the walk over the stale texts leaves are those that are wanted. -/
theorem Laid.stay_eq {r : Ring α} {m : Roster α} (h : Laid r m)
    {dismiss : List String → List String} (hdismiss : ∀ l, (dismiss l).Perm l) (nodes : List α) :
    m.members.filter (fun e => decide (toString e.1 ∉
        dismiss (r.members.keys.filter fun t => !(wanted nodes).contains t)))
      = m.members.filter fun e => decide (toString e.1 ∈ nodes.map toString) := by
  refine List.filter_congr fun e he => decide_eq_decide.2 ?_
  have he : toString e.1 ∈ m.texts := List.mem_map.2 ⟨e, he, rfl⟩
  rw [(hdismiss _).mem_iff, List.mem_filter, h.texts_eq, Bool.not_eq_true', ← Bool.not_eq_true,
    ← Table.mem_keys_iff, mem_wanted_keys]
  simp only [he, true_and, Decidable.not_not]

/-- Among wanted nodes, a text is a survivor's exactly when it was a member's. -/
theorem come_eq (m : Roster α) {nodes : List α} {come : List (String × α)}
    (hcome : ∀ e ∈ come, e.1 ∈ nodes.map toString) :
    come.filter (fun e => decide (e.1 ∉ Roster.texts
        { m with members := m.members.filter fun e => toString e.1 ∈ nodes.map toString }))
      = come.filter fun e => decide (e.1 ∉ m.texts) := by
  refine List.filter_congr fun e he => decide_eq_decide.2 (not_congr ?_)
  constructor
  · intro hm
    obtain ⟨b, hb, heq⟩ := List.mem_map.1 hm
    exact List.mem_map.2 ⟨b, List.mem_of_mem_filter hb, heq⟩
  · intro hm
    obtain ⟨b, hb, heq⟩ := List.mem_map.1 hm
    refine List.mem_map.2 ⟨b, List.mem_filter.2 ⟨hb, decide_eq_true ?_⟩, heq⟩
    exact (show toString b.1 = e.1 from heq) ▸ hcome e he

/-- **Reconciliation** does to the tables what it does to the roster, whichever orders the stale
members and the missing ones come in. -/
theorem Laid.reconcileBy {r : Ring α} {m : Roster α} (h : Laid r m)
    {dismiss : List String → List String} {arrange : List (String × α) → List (String × α)}
    (hdismiss : ∀ l, (dismiss l).Perm l) (harrange : ∀ l, (arrange l).Perm l) (nodes : List α) :
    Laid (r.reconcileBy dismiss arrange nodes).1 (m.reconcile arrange nodes).1 ∧
      (r.reconcileBy dismiss arrange nodes).2 = (m.reconcile arrange nodes).2 := by
  by_cases hsame : m.texts ⊆ nodes.map toString ∧ nodes.map toString ⊆ m.texts
  · rw [Ring.reconcileBy, if_pos ((h.hasExactly_iff nodes).2 hsame), Roster.reconcile,
      if_pos hsame]
    exact ⟨h, rfl⟩
  · rw [Ring.reconcileBy, if_neg fun hc => hsame ((h.hasExactly_iff nodes).1 hc),
      Roster.reconcile, if_neg hsame]
    refine ⟨?_, rfl⟩
    have hcome : ∀ e ∈ arrange (latest nodes), e.1 = toString e.2 :=
      fun e he => text_of_mem_latest ((harrange _).mem_iff.1 he)
    have hin : ∀ e ∈ arrange (latest nodes), e.1 ∈ nodes.map toString := by
      intro e he
      rw [← mem_wanted_keys, Table.keys, wanted_entries]
      exact List.mem_map_of_mem ((harrange _).mem_iff.1 he)
    have hnodup : ((arrange (latest nodes)).map Prod.fst).Nodup := by
      rw [((harrange _).map Prod.fst).nodup_iff, ← wanted_entries]
      exact Table.nodup_keys _
    have hlaid := (h.foldl_delete
      (dismiss (r.members.keys.filter fun t => !(wanted nodes).contains t))).foldl_joinMissing
        hcome hnodup
    rw [h.stay_eq hdismiss nodes, come_eq m hin] at hlaid
    rw [wanted_entries]
    exact hlaid

end

end Steering.Ring
