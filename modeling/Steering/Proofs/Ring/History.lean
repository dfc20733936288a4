import Steering.Proofs.Ring.Follow

/-!
# `Steering.Proofs.Ring.History` — what a ring remembers of how it came about

Two rings with the same members, the same nodes stored for them and the same numbers of positions have
the same positions in use, so a key belongs to the same position on both, and the nodes that stand
there are the same up to their order (`Laid.slotWhere_perm`). Where a position is one member's, the
order is no matter, and both rings give the key to that member.

Where a position is shared, the order *is* a matter. The nodes of a slot stand in the order in which
their members joined last, and a key means the node at an index. So `owner_of_same_members` has one
condition, and history enters by nothing else: the members that stand at the key's position joined both
rings in the same order. `owner_follows_join_order` is a pair of rings, and a pair of balancers, that
differ in this only and answer differently.
-/

namespace Steering

/-- Lists whose images are equal are equal, if nothing in the one has the image of something else in
the other. -/
theorem eq_of_map_eq {β γ : Type} {f : β → γ} {l l' : List β} (h : l.map f = l'.map f)
    (hinj : ∀ a ∈ l, ∀ b ∈ l', f a = f b → a = b) : l = l' := by
  induction l generalizing l' with
  | nil => exact (List.map_eq_nil_iff.1 h.symm).symm
  | cons a rest ih =>
    cases l' with
    | nil => exact absurd h (by simp)
    | cons b rest' =>
      obtain ⟨hhead, htail⟩ := List.cons.inj h
      rw [hinj a List.mem_cons_self b List.mem_cons_self hhead]
      rw [ih htail fun x hx y hy => hinj x (List.mem_cons_of_mem a hx) y (List.mem_cons_of_mem b hy)]

namespace Roster

variable {α : Type} [ToString α] {m m' : Roster α}

theorem seats_perm (h : m.members.Perm m'.members) : m.seats.Perm m'.seats := h.flatMap_right seatsOf

theorem slot_perm (h : m.members.Perm m'.members) (accept : α → Bool) (p : Nat) :
    (m.slot accept p).Perm (m'.slot accept p) := ((seats_perm h).filter _).map _

theorem owner_eq_of_perm (h : m.members.Perm m'.members) (accept : α → Bool) (d : Nat) :
    m.owner accept d = m'.owner accept d := by
  have htaken : ∀ k, k ∈ m.taken accept ↔ k ∈ m'.taken accept := fun k =>
    (((seats_perm h).filter _).map _).mem_iff
  rw [owner, owner, Ring.min?_congr htaken, Ring.min?_congr]
  intro k
  rw [List.mem_filter, List.mem_filter, htaken]

theorem slotFor_perm (h : m.members.Perm m'.members) (accept : α → Bool) (d : Nat) :
    (m.slotFor accept d).Perm (m'.slotFor accept d) := by
  rw [slotFor, slotFor, owner_eq_of_perm h]
  cases m'.owner accept d with
  | none => exact List.Perm.nil
  | some p => exact slot_perm h accept p

/-- Members that do not stand at a position may be left out there. -/
theorem slot_keep {accept q : α → Bool} {p : Nat} (h : ∀ a ∈ m.slot accept p, q a = true) :
    (m.keep q).slot accept p = m.slot accept p := by
  rw [slot, slot, seats_keep, List.filter_filter]
  congr 1
  refine List.filter_congr fun s hs => ?_
  by_cases hp : s.1 = p ∧ accept s.2 = true
  · rw [h s.2 (List.mem_map.2 ⟨s, List.mem_filter.2 ⟨hs, decide_eq_true hp⟩, rfl⟩), Bool.and_true]
  · rw [decide_eq_false hp, Bool.false_and]

/-- Two rosters whose members are the same, and in the same order where it matters for a slot, have the
same slot. -/
theorem slotFor_eq_of_keep_eq (hperm : m.members.Perm m'.members) {accept q : α → Bool} {d : Nat}
    (hkeep : (m.keep q).members = (m'.keep q).members)
    (hq : ∀ a ∈ m.slotFor accept d, q a = true) : m.slotFor accept d = m'.slotFor accept d := by
  have hq' : ∀ a ∈ m'.slotFor accept d, q a = true := fun a ha =>
    hq a ((slotFor_perm hperm accept d).mem_iff.2 ha)
  rw [slotFor, owner_eq_of_perm hperm] at hq ⊢
  rw [slotFor] at hq' ⊢
  cases ho : m'.owner accept d with
  | none => rfl
  | some p =>
    rw [ho] at hq hq'
    calc m.slot accept p = (m.keep q).slot accept p := (slot_keep hq).symm
      _ = (m'.keep q).slot accept p := by rw [slot, slot, seats, seats, hkeep]
      _ = m'.slot accept p := slot_keep hq'

end Roster

namespace Ring

open Roster

section

variable {α : Type} [ToString α]

/-- Two rings with the same members, the same nodes for them and the same numbers of positions. -/
structure SameMembers (r r' : Ring α) : Prop where
  counts : ∀ t, r.members.get? t = r'.members.get? t
  nodes : ∀ a, r.Stores a ↔ r'.Stores a

/-- The acceptable members that share a key's position joined two rings in the same order. -/
def JoinedAlike (r r' : Ring α) (key : String) (accept : α → Bool) : Prop :=
  let sharing := (r.slotWhere key accept).map toString
  r.members.keys.filter (· ∈ sharing) = r'.members.keys.filter (· ∈ sharing)

instance (r r' : Ring α) (key : String) (accept : α → Bool) :
    Decidable (JoinedAlike r r' key accept) :=
  inferInstanceAs (Decidable (_ = _))

variable {r r' : Ring α} {m m' : Roster α}

theorem sameMembers_of_perm (h : Laid r m) (h' : Laid r' m') (hperm : m.members.Perm m'.members) :
    SameMembers r r' where
  counts t := by
    have hentries : r.members.entries.Perm r'.members.entries := by
      rw [h.members, h'.members]
      exact hperm.map _
    refine Option.ext fun n => ?_
    rw [Table.get?_eq_some_iff, Table.get?_eq_some_iff, hentries.mem_iff]
  nodes a := by
    rw [h.stores_iff, h'.stores_iff]
    exact exists_congr fun n => hperm.mem_iff

theorem SameMembers.mem_of_mem (hsame : SameMembers r r') (h : Laid r m) (h' : Laid r' m')
    {e : α × Nat} (he : e ∈ m.members) : e ∈ m'.members := by
  obtain ⟨a, n⟩ := e
  obtain ⟨j, hj⟩ := h'.stores_iff.1 ((hsame.nodes a).1 (h.stores_iff.2 ⟨n, he⟩))
  have hcount := hsame.counts (toString a)
  rw [h.get?_members he, h'.get?_members hj] at hcount
  rw [Option.some.inj hcount]
  exact hj

/-- Rings with the same members have the same roster up to its order. -/
theorem SameMembers.perm (hsame : SameMembers r r') (h : Laid r m) (h' : Laid r' m') :
    m.members.Perm m'.members := by
  have hback : SameMembers r' r := ⟨fun t => (hsame.counts t).symm, fun a => (hsame.nodes a).symm⟩
  refine (List.perm_ext_iff_of_nodup ?_ ?_).2 fun e => ?_
  · exact List.Nodup.of_map _ h.nodup
  · exact List.Nodup.of_map _ h'.nodup
  · exact ⟨fun he => hsame.mem_of_mem h h' he, fun he => hback.mem_of_mem h' h he⟩

theorem SameMembers.slotWhere_perm (hsame : SameMembers r r') (h : Laid r m) (h' : Laid r' m')
    (key : String) (accept : α → Bool) :
    (r.slotWhere key accept).Perm (r'.slotWhere key accept) := by
  rw [h.slotWhere_eq, h'.slotWhere_eq]
  exact slotFor_perm (hsame.perm h h') accept _

/-- A position that one member has to itself is no matter of order. -/
theorem joinedAlike_of_unshared (hsame : SameMembers r r') (h : Laid r m) (h' : Laid r' m')
    {key : String} {accept : α → Bool}
    (hone : ∀ a ∈ r.slotWhere key accept, ∀ b ∈ r.slotWhere key accept, toString a = toString b) :
    JoinedAlike r r' key accept := by
  rw [JoinedAlike, h.texts_eq, h'.texts_eq]
  have htexts : m.texts.Perm m'.texts := (hsame.perm h h').map _
  cases hslot : r.slotWhere key accept with
  | nil => simp
  | cons a rest =>
    have hiff : ∀ t, t ∈ (a :: rest).map toString ↔ t = toString a := by
      intro t
      constructor
      · intro ht
        obtain ⟨b, hb, rfl⟩ := List.mem_map.1 ht
        exact hone b (hslot ▸ hb) a (hslot ▸ List.mem_cons_self)
      · rintro rfl
        exact List.mem_cons_self
    simp only [hiff]
    rw [List.filter_eq, List.filter_eq, htexts.count_eq]

/-- **Members that joined in the same order stand in the same order**, so the slots are equal. -/
theorem SameMembers.slotWhere_eq (hsame : SameMembers r r') (h : Laid r m) (h' : Laid r' m')
    {key : String} {accept : α → Bool} (hjoined : JoinedAlike r r' key accept) :
    r.slotWhere key accept = r'.slotWhere key accept := by
  have hperm := hsame.perm h h'
  rw [JoinedAlike, h.texts_eq, h'.texts_eq, texts, texts, List.filter_map, List.filter_map] at hjoined
  -- the members that do not stand at the position do not count, and the others are in one order
  have hkeep : (m.keep fun a => toString a ∈ (r.slotWhere key accept).map toString).members
      = (m'.keep fun a => toString a ∈ (r.slotWhere key accept).map toString).members := by
    refine eq_of_map_eq hjoined fun e he f hf heq => ?_
    exact h.entry_eq (List.mem_of_mem_filter he) (hperm.mem_iff.2 (List.mem_of_mem_filter hf)) heq
  rw [h.slotWhere_eq] at hkeep ⊢
  rw [h'.slotWhere_eq]
  refine slotFor_eq_of_keep_eq hperm hkeep fun a ha => ?_
  exact decide_eq_true (List.mem_map_of_mem ha)

theorem SameMembers.getWhere_eq (hsame : SameMembers r r') (h : Laid r m) (h' : Laid r' m')
    {key : String} {accept : α → Bool} (hjoined : JoinedAlike r r' key accept) :
    r.getWhere key accept = r'.getWhere key accept := by
  rw [h.getWhere_eq_choose, h'.getWhere_eq_choose, hsame.slotWhere_eq h h' hjoined]

end

/-- Rings that followed tables with the same last addresses have the same members. -/
theorem sameMembers_follow (replicas : Nat) {us us' : List Notice}
    (hlast : ∀ a, a ∈ lastAddresses us ↔ a ∈ lastAddresses us') :
    SameMembers (follow replicas us) (follow replicas us') := by
  obtain ⟨m, h, hreplicas, hfull, htexts⟩ := exists_laid_follow replicas us
  obtain ⟨m', h', hreplicas', hfull', htexts'⟩ := exists_laid_follow replicas us'
  refine sameMembers_of_perm h h' ?_
  refine (List.perm_ext_iff_of_nodup (List.Nodup.of_map _ h.nodup) (List.Nodup.of_map _ h'.nodup)).2
    fun e => ?_
  rw [mem_members_of_full hfull, mem_members_of_full hfull', htexts, htexts', hlast, hreplicas,
    hreplicas']

/-- **History decides between members that share a position, by the order in which they joined, and
nothing else.** On two rings with the same members, whatever operations have led to them, a lookup
finds the same nodes at one position up to their order, and it means the one at the index that the
key's second digest gives. If the members there joined in the same order — as they did if there is only
one — the answers are equal. In particular two hashed balancers pick the same candidate for a key if
their last tables had the same addresses, a candidate's among them, and the candidates that share the
key's position joined in the same order. -/
theorem owner_of_same_members {α : Type} [ToString α] (replicas replicas' : Nat)
    (ops ops' : List (Op α)) (us us' : List Notice) (key : String) :
    let ring := ((Ring.empty replicas : Ring α).run ops).1
    let ring' := ((Ring.empty replicas' : Ring α).run ops').1
    (SameMembers ring ring' → ∀ accept : α → Bool,
      (ring.slotWhere key accept).Perm (ring'.slotWhere key accept) ∧
        ring.getWhere key accept = choose key (ring.slotWhere key accept) ∧
        ring'.getWhere key accept = choose key (ring'.slotWhere key accept) ∧
        (JoinedAlike ring ring' key accept →
          ring.getWhere key accept = ring'.getWhere key accept) ∧
        ((∀ a ∈ ring.slotWhere key accept, ∀ b ∈ ring.slotWhere key accept,
          toString a = toString b) → JoinedAlike ring ring' key accept)) ∧
      ((∀ a, a ∈ lastAddresses us ↔ a ∈ lastAddresses us') →
        SameMembers (follow replicas us) (follow replicas us') ∧
          ∀ (c : Context) (nodes : List WeightedNode) (stream stream' : KeyStream),
            c.hashKey? = some key → (∃ n ∈ nodes, n.address ∈ lastAddresses us) →
            JoinedAlike (follow replicas us) (follow replicas us') key
              (fun address => nodes.any fun n => n.address = address) →
            ∃ n ∈ nodes,
              (Balancer.hashed (follow replicas us) stream).pick c nodes
                = .ok (n, .hashed (follow replicas us) stream) ∧
              (Balancer.hashed (follow replicas us') stream').pick c nodes
                = .ok (n, .hashed (follow replicas us') stream')) := by
  intro ring ring'
  constructor
  · intro hsame accept
    obtain ⟨m, h⟩ := exists_laid replicas ops
    obtain ⟨m', h'⟩ := exists_laid replicas' ops'
    exact ⟨hsame.slotWhere_perm h h' key accept, h.getWhere_eq_choose key accept,
      h'.getWhere_eq_choose key accept, hsame.getWhere_eq h h', joinedAlike_of_unshared hsame h h'⟩
  · intro hlast
    have hsame := sameMembers_follow replicas hlast
    refine ⟨hsame, fun c nodes stream stream' hkey hcandidate hjoined => ?_⟩
    obtain ⟨m, h, -⟩ := exists_laid_follow replicas us
    obtain ⟨m', h', -⟩ := exists_laid_follow replicas us'
    obtain ⟨a, hwhere⟩ := exists_getWhere_follow replicas key hcandidate
    have hwhere' := (hsame.getWhere_eq h h' hjoined).symm.trans hwhere
    -- both balancers look for the first candidate at the same address
    obtain ⟨k, hk, -, hpick⟩ := exists_pickByKey hwhere
    have hpick' : Balancer.pickByKey (follow replicas us') key nodes = some k := by
      rw [← hpick, Balancer.pickByKey, Balancer.pickByKey, hwhere, hwhere']
    exact ⟨k, hk, pick_of_pickByKey hpick hkey stream, pick_of_pickByKey hpick' hkey stream'⟩

/-- A node of which only the address matters. -/
def standIn (address : String) : WeightedNode := ⟨{ (default : Node) with address }, 100⟩

/-- A notice of a table with some addresses, which is gone through in order. -/
def notice (addresses : List String) : Notice := ⟨.keep _, .keep _, addresses.map standIn⟩

/-- The call that carries the key `a10`, whose position `a` and `a1` share. -/
def callAt : Context := { hashKey? := some "a10" }

/-- `b` joins before or after the two members that share the key's position. -/
theorem owner_of_same_members_around :
    let ring := ((Ring.empty 11).run [.add "b", .add "a", .add "a1"]).1
    let ring' := ((Ring.empty 11).run [.add "a", .add "a1", .add "b"]).1
    ring.get "a10" = ring'.get "a10" ∧
      ∃ n ∈ [standIn "a1", standIn "a"],
        (Balancer.hashed (follow 11 [notice ["b", "a", "a1"]]) default).pick callAt
          [standIn "a1", standIn "a"]
            = .ok (n, .hashed (follow 11 [notice ["b", "a", "a1"]]) default) ∧
        (Balancer.hashed (follow 11 [notice ["a"], notice ["a1", "b", "a"]]) default).pick callAt
          [standIn "a1", standIn "a"]
            = .ok (n, .hashed (follow 11 [notice ["a"], notice ["a1", "b", "a"]]) default) := by
  intro ring ring'
  have hsame : SameMembers ring ring' := by
    refine sameMembers_of_perm ((laid_empty 11).run ?_).1 ((laid_empty 11).run ?_).1 (by decide)
    · simp [Op.Fits]
    · simp [Op.Fits]
  obtain ⟨hrings, hbalancers⟩ := owner_of_same_members 11 11 [.add "b", .add "a", .add "a1"]
    [.add "a", .add "a1", .add "b"] [notice ["b", "a", "a1"]]
    [notice ["a"], notice ["a1", "b", "a"]] "a10"
  constructor
  · obtain ⟨-, -, -, hequal, -⟩ := hrings hsame fun _ => true
    exact hequal (by decide +kernel)
  · have hlast : ∀ a, a ∈ lastAddresses [notice ["b", "a", "a1"]] ↔
        a ∈ lastAddresses [notice ["a"], notice ["a1", "b", "a"]] := by
      intro a
      show a ∈ ["b", "a", "a1"] ↔ a ∈ ["a1", "b", "a"]
      simp only [List.mem_cons, List.not_mem_nil, or_false]
      tauto
    obtain ⟨-, hpick⟩ := hbalancers hlast
    exact hpick callAt [standIn "a1", standIn "a"] default default rfl
      ⟨standIn "a", by simp, by decide⟩ (by decide +kernel)

/-- Adding `a` once more takes the key away from `a1`; and two balancers that were told of the same
addresses last pick different ones, because `a` came before `a1` to the one and after it to the
other. -/
theorem owner_follows_join_order :
    let ring := ((Ring.empty 11).run [.add "a", .add "a1"]).1
    let ring' := ((Ring.empty 11).run [.add "a", .add "a1", .add "a"]).1
    let one := follow 11 [notice ["a"], notice ["a", "a1"]]
    let other := follow 11 [notice ["a1"], notice ["a", "a1"]]
    (SameMembers ring ring' ∧ ring.get "a10" = some "a1" ∧ ring'.get "a10" = some "a") ∧
      SameMembers one other ∧
      ∀ stream stream', ∃ n n',
        (Balancer.hashed one stream).pick callAt [standIn "a", standIn "a1"]
          = .ok (n, .hashed one stream) ∧ n.address = "a1" ∧
        (Balancer.hashed other stream').pick callAt [standIn "a", standIn "a1"]
          = .ok (n', .hashed other stream') ∧ n'.address = "a" := by
  intro ring ring' one other
  have hsame : SameMembers ring ring' := by
    refine sameMembers_of_perm ((laid_empty 11).run ?_).1 ((laid_empty 11).run ?_).1 (by decide)
    · simp [Op.Fits]
    · simp [Op.Fits]
  have hone : one.getWhere "a10" (fun address =>
      [standIn "a", standIn "a1"].any fun n => n.address = address) = some "a1" := by decide +kernel
  have hother : other.getWhere "a10" (fun address =>
      [standIn "a", standIn "a1"].any fun n => n.address = address) = some "a" := by decide +kernel
  refine ⟨⟨hsame, by decide +kernel, by decide +kernel⟩,
    sameMembers_follow 11 fun a => Iff.rfl, fun stream stream' => ?_⟩
  obtain ⟨n, -, hn, hpick⟩ := exists_pickByKey hone
  obtain ⟨n', -, hn', hpick'⟩ := exists_pickByKey hother
  exact ⟨n, n', pick_of_pickByKey hpick rfl stream, hn, pick_of_pickByKey hpick' rfl stream', hn'⟩

end Ring

end Steering
