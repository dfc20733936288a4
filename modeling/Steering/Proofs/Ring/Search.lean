import Steering.Proofs.Ring.Layout

/-!
# `Steering.Proofs.Ring.Search` — a member is taken off by searching

A ring that removes a member has to find one copy of each of its positions. The positions ascend, so it
can search for them instead of going through them all. What a search promises is little (`Search`): in
an ascending list it finds *some* index of a position that is there, whichever it likes if there are
several, and in any other list it may find anything. So it is worth something only as long as the list is
kept in order and has a copy left for every index of the member, also when several indices of several
members have the same position.

`Ring.deleteBy` removes a member in this way. `Search.foldl_erase_eq` says that a walk through positions
that are all there, with their repetitions, never misses and leaves what removing the first copy of each
leaves: among equal copies in order it is no matter which one goes.
-/

namespace Steering.Ring

/-! ## Searches -/

/-- A way to search an ascending list. -/
structure Search where
  find : List Nat → Nat → Option Nat
  /-- What is found is there. -/
  sound : ∀ {l : List Nat}, l.Pairwise (· ≤ ·) → ∀ {k i : Nat}, find l k = some i → l[i]? = some k
  /-- What is there is found. -/
  complete : ∀ {l : List Nat}, l.Pairwise (· ≤ ·) → ∀ {k : Nat}, k ∈ l → (find l k).isSome

/-- Whether a search finds a copy of a number. -/
def Search.Hits (s : Search) (l : List Nat) (k : Nat) : Prop :=
  ∃ i, s.find l k = some i ∧ l[i]? = some k

theorem Search.hits_of_mem (s : Search) {l : List Nat} (h : l.Pairwise (· ≤ ·)) {k : Nat}
    (hk : k ∈ l) : s.Hits l k := by
  obtain ⟨i, hi⟩ := Option.isSome_iff_exists.1 (s.complete h hk)
  exact ⟨i, hi, s.sound h hi⟩

/-! ## Halving -/

/-- Halves a range of indices, `size` of them from `base` on, until one is left: the half from the middle
one on is kept if that is not too large, and the other half if it is. -/
def narrowTo (l : List Nat) (k base size : Nat) : Nat :=
  if size ≤ 1 then base
  else if l.getD (base + size / 2) 0 ≤ k then narrowTo l k (base + size / 2) (size - size / 2)
  else narrowTo l k base (size - size / 2)
termination_by size
decreasing_by all_goals omega

theorem le_of_getElem? {l : List Nat} (h : l.Pairwise (· ≤ ·)) {i j x y : Nat} (hij : i ≤ j)
    (hx : l[i]? = some x) (hy : l[j]? = some y) : x ≤ y := by
  obtain ⟨hi, rfl⟩ := List.getElem?_eq_some_iff.1 hx
  obtain ⟨hj, rfl⟩ := List.getElem?_eq_some_iff.1 hy
  rcases Nat.lt_or_eq_of_le hij with hlt | rfl
  · exact List.pairwise_iff_getElem.1 h i j hi hj hlt
  · exact le_rfl

/-- A range with a copy in it is narrowed to one. -/
theorem getElem?_narrowTo {l : List Nat} (h : l.Pairwise (· ≤ ·)) {k base size : Nat}
    (hk : ∃ j, base ≤ j ∧ j < base + size ∧ l[j]? = some k) (hend : base + size ≤ l.length) :
    l[narrowTo l k base size]? = some k := by
  have hvalue : ∀ {i}, i < l.length → l[i]? = some (l.getD i 0) := by
    intro i hi
    rw [List.getD_eq_getElem?_getD, List.getElem?_eq_getElem hi]
    rfl
  fun_induction narrowTo l k base size with
  | case1 base size hsize =>
    obtain ⟨j, hle, hlt, hj⟩ := hk
    rwa [show base = j by omega]
  | case2 base size hsize hx ih =>
    obtain ⟨j, hle, hlt, hj⟩ := hk
    refine ih ?_ (by omega)
    by_cases hjm : base + size / 2 ≤ j
    · exact ⟨j, hjm, by omega, hj⟩
    · -- the middle one lies behind a copy and is not larger, so it is one
      have hget := hvalue (i := base + size / 2) (by omega)
      have hge := le_of_getElem? h (Nat.le_of_not_le hjm) hj hget
      exact ⟨_, le_rfl, by omega, hget.trans (congrArg some (Nat.le_antisymm hx hge))⟩
  | case3 base size hsize hx ih =>
    obtain ⟨j, hle, hlt, hj⟩ := hk
    refine ih ⟨j, hle, ?_, hj⟩ (by omega)
    by_contra hge
    exact hx (le_of_getElem? h (by omega) (hvalue (by omega)) hj)

/-- The search by halving. -/
def Search.halving : Search where
  find l k := if l[narrowTo l k 0 l.length]? = some k then some (narrowTo l k 0 l.length) else none
  sound := by
    intro l _ k i hi
    split at hi
    · rwa [← Option.some.inj hi]
    · exact absurd hi (by simp)
  complete := by
    intro l h k hk
    obtain ⟨j, hj⟩ := List.getElem?_of_mem hk
    have hlt := (List.getElem?_eq_some_iff.1 hj).1
    rw [if_pos (getElem?_narrowTo h ⟨j, Nat.zero_le j, by omega, hj⟩ (by omega))]
    rfl

/-! ## Taking copies out -/

/-- Takes the copy out that a search finds; nothing if it finds none. -/
def Search.erase (s : Search) (l : List Nat) (k : Nat) : List Nat :=
  match s.find l k with
  | some i => l.eraseIdx i
  | none => l

/-- **Whichever copy is found**, an ascending list without it is the list without the first copy. -/
theorem Search.erase_eq (s : Search) {l : List Nat} (h : l.Pairwise (· ≤ ·)) {k : Nat}
    (hk : k ∈ l) : s.erase l k = l.erase k := by
  obtain ⟨i, hfind, hi⟩ := s.hits_of_mem h hk
  obtain ⟨hlt, rfl⟩ := List.getElem?_eq_some_iff.1 hi
  have hperm : (l.eraseIdx i).Perm (l.erase l[i]) :=
    ((List.getElem_cons_eraseIdx_perm hlt).trans (List.perm_cons_erase hk)).cons_inv
  rw [Search.erase, hfind]
  exact hperm.eq_of_pairwise' (h.eraseIdx i) (h.sublist List.erase_sublist)

/-- A walk through positions that are all there takes the first copies out. -/
theorem Search.foldl_erase_eq (s : Search) {gone rest l : List Nat} (h : l.Pairwise (· ≤ ·))
    (hperm : l.Perm (gone ++ rest)) :
    gone.foldl s.erase l = gone.foldl (fun l k => l.erase k) l := by
  induction gone generalizing l with
  | nil => rfl
  | cons k gone ih =>
    have hk : k ∈ l := hperm.mem_iff.2 List.mem_cons_self
    have hleft : (l.erase k).Perm (gone ++ rest) :=
      foldl_erase_perm (show l.Perm ([k] ++ (gone ++ rest)) from hperm)
    rw [List.foldl_cons, List.foldl_cons, s.erase_eq h hk]
    exact ih (h.sublist List.erase_sublist) hleft

/-- **No step of the walk misses.** -/
theorem Search.hits_foldl_erase (s : Search) {before after rest l : List Nat} {k : Nat}
    (h : l.Pairwise (· ≤ ·)) (hperm : l.Perm (before ++ k :: after ++ rest)) :
    s.Hits (before.foldl s.erase l) k := by
  rw [List.append_assoc] at hperm
  rw [s.foldl_erase_eq h hperm]
  refine s.hits_of_mem (foldl_erase_sorted before h) ?_
  exact (foldl_erase_perm hperm).mem_iff.2 List.mem_cons_self

/-! ## Taking a member off -/

section

variable {α : Type} [ToString α]

/-- Removes the member of a text, and says whether there was one. The copies of its positions are
searched for one after the other, each in what the ones before it have left. -/
def deleteBy (s : Search) (r : Ring α) (text : String) : Ring α × Bool :=
  match r.members.get? text with
  | none => (r, false)
  | some n =>
    let gone := positions text n
    ({ r with
        keys := gone.foldl s.erase r.keys
        slots := gone.foldl (clearSlot text) r.slots
        members := r.members.erase text }, true)

omit [ToString α] in
/-- Whether all searches for the positions of a text's member hit, when it is taken off. -/
def NeverMisses (s : Search) (r : Ring α) (text : String) : Prop :=
  ∀ n, r.members.get? text = some n → ∀ i < n,
    s.Hits ((positions text i).foldl s.erase r.keys) (position text i)

omit [ToString α] in
/-- The positions of the indices up to one, that index's position, and those behind it. -/
theorem exists_positions_eq (text : String) {i n : Nat} (h : i < n) :
    ∃ after, positions text n = positions text i ++ position text i :: after := by
  have hlen : i < (positions text n).length := by simpa [positions] using h
  have htake : (positions text n).take i = positions text i := by
    rw [positions, ← List.map_take, List.take_range, Nat.min_eq_left h.le]
    rfl
  have hget : (positions text n)[i] = position text i := by simp [positions]
  refine ⟨(positions text n).drop (i + 1), ?_⟩
  rw [← htake, ← hget, ← List.drop_eq_getElem_cons hlen, List.take_append_drop]

/-- **A member whose positions are all there** is taken off without a miss, and as the one is that
removes the first copy of each. -/
theorem neverMisses_of_perm (s : Search) {r : Ring α} {text : String} (h : r.keys.Pairwise (· ≤ ·))
    (hperm : ∀ n, r.members.get? text = some n → ∃ rest, r.keys.Perm (positions text n ++ rest)) :
    NeverMisses s r text ∧ r.deleteBy s text = r.delete text := by
  refine ⟨fun n hn i hi => ?_, ?_⟩
  · obtain ⟨rest, hrest⟩ := hperm n hn
    obtain ⟨after, heq⟩ := exists_positions_eq text hi
    rw [heq] at hrest
    exact s.hits_foldl_erase h hrest
  · rw [deleteBy, delete]
    cases hn : r.members.get? text with
    | none => rfl
    | some n =>
      obtain ⟨rest, hrest⟩ := hperm n hn
      simp only [s.foldl_erase_eq h hrest]

end

end Steering.Ring
