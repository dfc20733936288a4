import Steering.Proofs.Ring.Stored

/-!
# `Steering.Proofs.Ring.Removal` — members that leave, and members that are passed over

A lookup with a test walks on past the nodes that it does not accept, without touching the ring. This
is as good as taking those nodes off the ring first: `getWhere_eq_get_removeAll`. On rosters it is
immediate, since a roster only ever looks at the members that are accepted (`slotFor_keep`); the ring's
three tables look quite different before and after.

The same comparison says what becomes of the *other* keys. A key belongs to a position, and it keeps
its position as long as its owner stays there (`owner_of_mem_taken`). But a position can be shared, and
then the key's second digest is taken modulo the number of nodes **that are left**: when three members
share a position and one that is not the owner goes, the key may change over from the owner to the
third. `owner_kept_or_contested` says that this is the only way in which a key can move away from an
owner that stays, and `owner_changes_in_crowd` that it does happen.
-/

namespace Steering

namespace Roster

variable {α : Type} [ToString α] {m : Roster α} {accept : α → Bool} {d p : Nat}

theorem taken_subset {k : Nat} (hk : k ∈ m.taken accept) : k ∈ m.taken fun _ => true := by
  obtain ⟨a, ha, -⟩ := mem_taken.1 hk
  exact mem_taken.2 ⟨a, ha, rfl⟩

/-- A digest keeps its position as long as somebody acceptable stands there. -/
theorem owner_of_mem_taken (ho : m.owner (fun _ => true) d = some p) (hp : p ∈ m.taken accept) :
    m.owner accept d = some p := by
  rw [owner] at ho ⊢
  cases hahead : ((m.taken fun _ => true).filter (d ≤ ·)).min? with
  | some q =>
    rw [hahead, Option.some_or] at ho
    obtain rfl := Option.some.inj ho
    have hmin : ((m.taken accept).filter (d ≤ ·)).min? = some q := by
      rw [List.min?_eq_some_iff] at hahead ⊢
      refine ⟨List.mem_filter.2 ⟨hp, (List.mem_filter.1 hahead.1).2⟩, fun k hk => ?_⟩
      obtain ⟨hk, hd⟩ := List.mem_filter.1 hk
      exact hahead.2 k (List.mem_filter.2 ⟨taken_subset hk, hd⟩)
    rw [hmin, Option.some_or]
  | none =>
    -- no position is ahead, acceptable or not, so the least of all counts on both sides
    rw [hahead, Option.none_or] at ho
    rw [List.min?_eq_none_iff, List.filter_eq_nil_iff] at hahead
    have hbehind : (m.taken accept).filter (d ≤ ·) = [] :=
      List.filter_eq_nil_iff.2 fun k hk => hahead k (taken_subset hk)
    rw [hbehind, List.min?_nil, Option.none_or]
    rw [List.min?_eq_some_iff] at ho ⊢
    exact ⟨hp, fun k hk => ho.2 k (taken_subset hk)⟩

theorem owner_eq_none (ho : m.owner (fun _ => true) d = none) (accept : α → Bool) :
    m.owner accept d = none := by
  rw [owner, Option.or_eq_none_iff, List.min?_eq_none_iff, List.min?_eq_none_iff] at ho ⊢
  have hnil : m.taken accept = [] := by
    refine List.eq_nil_iff_forall_not_mem.2 fun k hk => ?_
    have := taken_subset hk
    rw [ho.2] at this
    exact absurd this List.not_mem_nil
  rw [hnil]
  exact ⟨rfl, rfl⟩

/-- As long as the owner of a key is acceptable, the acceptable nodes for it are those of its slot. -/
theorem slotFor_eq_filter {key : String}
    (hkey : ∀ x, choose key (m.slotFor (fun _ => true) d) = some x → accept x = true) :
    m.slotFor accept d = (m.slotFor (fun _ => true) d).filter accept := by
  cases ho : m.owner (fun _ => true) d with
  | none =>
    rw [slotFor, slotFor, owner_eq_none ho, ho]
    rfl
  | some p =>
    have hslot : m.slotFor (fun _ => true) d = m.slotAll p := by rw [slotFor, ho]; rfl
    rw [hslot] at hkey ⊢
    obtain ⟨x, hx⟩ := Option.isSome_iff_exists.1
      ((mem_taken_iff_choose m _ key p).1 (owner_mem ho))
    have hp : p ∈ m.taken accept :=
      mem_taken.2 ⟨x, mem_slotAll.1 (mem_of_choose hx), hkey x hx⟩
    rw [slotFor, owner_of_mem_taken ho hp]
    exact slot_eq_filter m accept p

end Roster

namespace Ring

open Roster

variable {α : Type} [ToString α]

/-- The ring without the members that some nodes stand for, which leave one after the other. -/
def removeAll (r : Ring α) (gone : List α) : Ring α := gone.foldl (fun r a => (r.remove a).1) r

/-- A position that three members share: the owner `x` of a key, a node `y` that stays with it, and one
that goes. -/
def Contested (r : Ring α) (key : String) (stays : α → Bool) (x y : α) : Prop :=
  let slot := r.slotWhere key fun _ => true
  x ∈ slot ∧ y ∈ slot ∧ stays x = true ∧ stays y = true ∧ toString x ≠ toString y ∧
    ∃ z ∈ slot, stays z = false ∧ toString z ≠ toString x ∧ toString z ≠ toString y

namespace Laid

variable {r : Ring α} {m : Roster α}

theorem removeAll (h : Laid r m) (gone : List α) :
    Laid (r.removeAll gone) (m.keep fun a => toString a ∉ gone.map toString) := by
  have hfold := h.foldl_delete (gone.map toString)
  rw [List.foldl_map] at hfold
  exact hfold

/-- A ring with some of the members answers as the whole ring does about them. -/
theorem get_eq_getWhere {s : Ring α} {stays : α → Bool} (h : Laid r m) (hs : Laid s (m.keep stays))
    (key : String) : s.get key = r.getWhere key stays := by
  rw [Ring.get, hs.getWhere_eq, h.getWhere_eq, lookup_eq_choose, lookup_eq_choose, slotFor_keep]

/-- The members of a ring whose texts are not those of the rejected nodes are the accepted ones. -/
theorem keep_eq (h : Laid r m) {accept : α → Bool} {gone : List α}
    (hgone : ∀ t, t ∈ gone.map toString ↔ ∃ a, r.Stores a ∧ toString a = t ∧ accept a = false) :
    (m.keep fun a => toString a ∉ gone.map toString) = m.keep accept := by
  rw [keep, keep]
  congr 1
  refine List.filter_congr fun e he => ?_
  have hstored : r.Stores e.1 := h.stores_iff.2 ⟨e.2, he⟩
  cases hacc : accept e.1 with
  | false => simpa using (hgone _).2 ⟨e.1, hstored, rfl, hacc⟩
  | true =>
    refine decide_eq_true fun ht => ?_
    obtain ⟨a, ha, heq, hrej⟩ := (hgone _).1 ht
    -- the stored node of the text is the entry's
    rw [h.stores_eq ha hstored heq, hacc] at hrej
    exact absurd hrej (by simp)

theorem slotWhere_eq_filter (h : Laid r m) {key : String} {stays : α → Bool}
    (hkey : ∀ x, r.get key = some x → stays x = true) :
    r.slotWhere key stays = (r.slotWhere key fun _ => true).filter stays := by
  rw [Ring.get, h.getWhere_eq_choose, h.slotWhere_eq] at hkey
  rw [h.slotWhere_eq, h.slotWhere_eq, slotFor_eq_filter hkey]

/-- If two nodes of a slot have different texts and not the whole slot stays, a third one goes. -/
theorem contested (h : Laid r m) {key : String} {stays : α → Bool} {x y : α}
    (hx : x ∈ (r.slotWhere key fun _ => true).filter stays)
    (hy : y ∈ (r.slotWhere key fun _ => true).filter stays) (hxy : toString x ≠ toString y)
    (hgone : (r.slotWhere key fun _ => true).filter stays ≠ r.slotWhere key fun _ => true) :
    Contested r key stays x y := by
  obtain ⟨hxslot, hxstays⟩ := List.mem_filter.1 hx
  obtain ⟨hyslot, hystays⟩ := List.mem_filter.1 hy
  refine ⟨hxslot, hyslot, hxstays, hystays, hxy, ?_⟩
  by_contra hall
  refine hgone (List.filter_eq_self.2 fun z hz => ?_)
  by_contra hgoes
  have hz' := h.stores_of_mem_slotWhere hz
  -- a node with the text of `x` or of `y` would be that one, and stay
  refine hall ⟨z, hz, by simpa using hgoes, fun hzx => ?_, fun hzy => ?_⟩
  · rw [h.stores_eq hz' (h.stores_of_mem_slotWhere hxslot) hzx] at hgoes
    exact hgoes hxstays
  · rw [h.stores_eq hz' (h.stores_of_mem_slotWhere hyslot) hzy] at hgoes
    exact hgoes hystays

/-- **An owner that stays keeps its key, unless its position is contested.** -/
theorem kept_or_contested (h : Laid r m) {key : String} {stays : α → Bool}
    (hkey : ∀ x, r.get key = some x → stays x = true) :
    r.getWhere key stays = choose key ((r.slotWhere key fun _ => true).filter stays) ∧
      (r.getWhere key stays = r.get key ∨
        ∃ x y, r.get key = some x ∧ r.getWhere key stays = some y ∧ Contested r key stays x y) := by
  have hget : r.get key = choose key (r.slotWhere key fun _ => true) := h.getWhere_eq_choose key _
  have hwhere := h.getWhere_eq_choose key stays
  rw [h.slotWhere_eq_filter hkey] at hwhere
  refine ⟨hwhere, ?_⟩
  by_cases hsame : (r.slotWhere key fun _ => true).filter stays = r.slotWhere key fun _ => true
  · rw [hwhere, hsame, hget]
    exact Or.inl rfl
  cases hx : r.get key with
  | none =>
    -- the key had no slot at all, so nobody can have gone from it
    have hnil : (r.slotWhere key fun _ => true) = [] := by
      by_contra hne
      obtain ⟨x, hsome⟩ := Option.isSome_iff_exists.1 (choose_isSome.2 hne)
      exact absurd (hx.symm.trans (hget.trans hsome)) (by simp)
    exact absurd (by rw [hnil, List.filter_nil]) hsame
  | some x =>
    have hxmem : x ∈ (r.slotWhere key fun _ => true).filter stays :=
      List.mem_filter.2 ⟨mem_of_choose (hget ▸ hx), hkey x hx⟩
    obtain ⟨y, hy⟩ := Option.isSome_iff_exists.1 (choose_isSome.2 (List.ne_nil_of_mem hxmem))
    have hymem := mem_of_choose hy
    rw [hwhere, hy]
    by_cases hxy : toString x = toString y
    · have hxs := h.stores_of_mem_slotWhere (List.mem_of_mem_filter hxmem)
      have hys := h.stores_of_mem_slotWhere (List.mem_of_mem_filter hymem)
      rw [h.stores_eq hxs hys hxy]
      exact Or.inl rfl
    · exact Or.inr ⟨x, y, rfl, rfl, h.contested hxmem hymem hxy hsame⟩

end Laid

/-! ## Reachable rings -/

/-- **Passing members over is taking them off.** In a ring that any operations have led to, every
member has one stored node; and a lookup that accepts only some of the stored nodes answers what a
plain lookup answers once all members with a rejected node have been removed, in any order. -/
theorem getWhere_eq_get_removeAll (replicas : Nat) (ops : List (Op α)) (key : String)
    (accept : α → Bool) (gone : List α)
    (hgone : ∀ t, t ∈ gone.map toString ↔
      ∃ a, ((Ring.empty replicas : Ring α).run ops).1.Stores a ∧ toString a = t ∧
        accept a = false) :
    let ring := ((Ring.empty replicas : Ring α).run ops).1
    (∀ t, ring.hasText t = true ↔ ∃! a, ring.Stores a ∧ toString a = t) ∧
      (∀ a, (ring.removeAll gone).Stores a ↔ ring.Stores a ∧ accept a = true) ∧
      ring.getWhere key accept = (ring.removeAll gone).get key := by
  intro ring
  obtain ⟨m, h⟩ := exists_laid replicas ops
  have hleft : Laid (ring.removeAll gone) (m.keep accept) := by
    rw [← h.keep_eq hgone]
    exact h.removeAll gone
  refine ⟨h.existsUnique_stores, fun a => ?_, (h.get_eq_getWhere hleft key).symm⟩
  rw [hleft.stores_iff, h.stores_iff]
  simp only [keep, List.mem_filter, exists_and_right]

/-- `a` and `a1` share two positions, and `a1` and `a11` one. -/
def chain : List (Op String) :=
  [.addReplicas "a" 12, .addWeight "a1" 50, .add "b", .addReplicas "a11" 1, .add "a1"]

theorem getWhere_eq_get_removeAll_chain :
    let ring := ((Ring.empty 12).run chain).1
    ring.getWhere "a11" (fun a => a = "a" ∨ a = "b") = some "a" ∧
      (ring.removeAll ["a11", "a1"]).get "a11" = some "a" ∧ ring.get "a11" = some "a1" := by
  intro ring
  have hstored : ∀ a, ring.Stores a ↔ a = "a" ∨ a = "b" ∨ a = "a11" ∨ a = "a1" := by
    intro a
    have hfits : ∀ op ∈ chain, op.Fits 12 := by simp [chain, Op.Fits]
    rw [((laid_empty 12).run hfits).1.stores_iff]
    have hmembers : ((Roster.empty 12).run chain).1.members
        = [("a", 12), ("b", 12), ("a11", 1), ("a1", 12)] := by decide
    rw [hmembers]
    simp [exists_or]
  have hgone : ∀ t, t ∈ ["a11", "a1"].map toString ↔
      ∃ a, ring.Stores a ∧ toString a = t ∧ decide (a = "a" ∨ a = "b") = false := by
    intro t
    simp only [hstored, List.map_cons, List.map_nil, List.mem_cons, List.not_mem_nil, or_false,
      toString]
    constructor
    · rintro (rfl | rfl)
      · exact ⟨"a11", by simp, rfl, by decide⟩
      · exact ⟨"a1", by simp, rfl, by decide⟩
    · rintro ⟨a, rfl | rfl | rfl | rfl, rfl, ha⟩
      · exact absurd ha (by decide)
      · exact absurd ha (by decide)
      · exact Or.inl rfl
      · exact Or.inr rfl
  obtain ⟨-, -, heq⟩ := getWhere_eq_get_removeAll 12 chain "a11" _ _ hgone
  have hget : ring.getWhere "a11" (fun a => a = "a" ∨ a = "b") = some "a" := by decide +kernel
  exact ⟨hget, heq.symm.trans hget, by decide +kernel⟩

/-- **A key moves away from an owner that stays only from a contested position**, and then to a node
at the same position. This holds for filtered lookups and for removals; the node that the key means in
the end is the one that its second digest picks among those left in its slot. -/
theorem owner_kept_or_contested (replicas : Nat) (ops : List (Op α)) (key : String) :
    let ring := ((Ring.empty replicas : Ring α).run ops).1
    let slot := ring.slotWhere key fun _ => true
    (∀ accept : α → Bool, (∀ x, ring.get key = some x → accept x = true) →
      ring.getWhere key accept = choose key (slot.filter accept) ∧
        (ring.getWhere key accept = ring.get key ∨
          ∃ x y, ring.get key = some x ∧ ring.getWhere key accept = some y ∧
            Contested ring key accept x y)) ∧
      ∀ p : α, (∀ x, ring.get key = some x → toString x ≠ toString p) →
        (ring.remove p).1.get key = choose key (slot.filter fun a => toString a ≠ toString p) ∧
          ((ring.remove p).1.get key = ring.get key ∨
            ∃ x y, ring.get key = some x ∧ (ring.remove p).1.get key = some y ∧
              Contested ring key (fun a => toString a ≠ toString p) x y) := by
  intro ring slot
  obtain ⟨m, h⟩ := exists_laid replicas ops
  refine ⟨fun accept hkey => h.kept_or_contested hkey, fun p hp => ?_⟩
  have hremoved : (ring.remove p).1.get key = ring.getWhere key fun a => toString a ≠ toString p :=
    h.get_eq_getWhere (h.delete (toString p)).1 key
  rw [hremoved]
  exact h.kept_or_contested fun x hx => decide_eq_true (hp x hx)

/-- `b`, `b1` and `b11` share the position of `b110`. -/
def crowd : List (Op String) := [.addReplicas "b" 111, .addReplicas "b1" 11, .addReplicas "b11" 1]

/-- When `b` leaves, the key moves from `b1`, which stays, to `b11`. -/
theorem owner_kept_or_contested_crowd :
    let ring := ((Ring.empty 111).run crowd).1
    ring.get "b110" = some "b1" ∧
      ∃ y, (ring.remove "b").1.get "b110" = some y ∧
        Contested ring "b110" (fun a => toString a ≠ toString "b") "b1" y := by
  intro ring
  obtain ⟨-, hremove⟩ := owner_kept_or_contested 111 crowd "b110"
  have hget : ring.get "b110" = some "b1" := by decide +kernel
  have hmoves : (ring.remove "b").1.get "b110" ≠ some "b1" := by decide +kernel
  refine ⟨hget, ?_⟩
  obtain ⟨-, hsame | ⟨x, y, hx, hy, hcontested⟩⟩ := hremove "b" fun x hx => by
    rw [← Option.some.inj (hget.symm.trans hx)]
    decide
  · exact absurd (hsame.trans hget) hmoves
  · obtain rfl := Option.some.inj (hget.symm.trans hx)
    exact ⟨y, hy, hcontested⟩

/-- Neither a removal nor a filter leaves every key with an owner that stays. -/
theorem owner_changes_in_crowd :
    let ring := ((Ring.empty 111).run crowd).1
    ring.get "b110" = some "b1" ∧ (ring.remove "b").2 = true ∧
      (ring.remove "b").1.get "b110" = some "b11" ∧
      ring.getWhere "b110" (fun a => a ≠ "b") = some "b11" := by
  decide +kernel

end Ring

end Steering
