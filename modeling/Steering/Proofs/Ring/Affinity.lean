import Steering.Proofs.Ring.History

/-!
# `Steering.Proofs.Ring.Affinity` — a key stays with its node

A hashed balancer is asked with whatever candidates a call has left, in whatever order filters have put
them, some of them twice, some of them unknown to the ring. For a call with a key only one thing about
them may count, and that is which addresses are there. The ring is asked about a *set*, so what it
answers is one address for all lists with that set, and each list is then searched for that address.

Two things go on between the calls of one key. Calls without a key, or without a candidate on the ring,
draw from the random stream; and every refresh of the routing table is told to the balancer. Neither
writes to the ring: a pick has no way to, and a notice of the addresses that the ring has already is
recognised before anything is dismissed or arranged (`apply_reconcile_of_same`). So the ring is not
merely as good as before but the same ring (`used_of_refreshing`), and a key is as sticky after any
number of them as it is between two calls in a row.
-/

namespace Steering

namespace Ring

variable {α : Type} [ToString α]

/-- A ring with exactly the members of a list is left as it is. -/
theorem Laid.apply_reconcile_of_same {r : Ring α} {m : Roster α} (h : Laid r m)
    (dismiss : Shuffle String) (arrange : Shuffle (String × α)) {nodes : List α}
    (hsame : ∀ t, t ∈ nodes.map toString ↔ r.hasText t = true) :
    r.apply (.reconcile dismiss arrange nodes) = (r, some false) := by
  have hexactly : r.hasExactly (wanted nodes) = true := by
    refine (h.hasExactly_iff nodes).2 ⟨fun t ht => ?_, fun t ht => ?_⟩
    · rw [hsame, h.hasText_eq]
      exact decide_eq_true ht
    · rw [hsame, h.hasText_eq] at ht
      exact of_decide_eq_true ht
  rw [Ring.apply, Ring.reconcileBy, if_pos hexactly]

end Ring

namespace Balancer

open Steering.Ring

/-! ## A balancer in use -/

/-- Something that is done with a balancer. -/
inductive Use where
  | pick (c : Context) (nodes : List WeightedNode)
  /-- It is told of a new routing table. -/
  | update (u : Notice)
  /-- Whoever has its ring at hand changes that. -/
  | tend (op : Op String)

def Use.act (b : Balancer) : Use → Balancer
  | pick c nodes =>
    match b.pick c nodes with
    | .ok (_, b) => b
    | .error _ => b
  | update u =>
    match b with
    | hashed ring stream => hashed (ring.apply u.op).1 stream
    | b => b.update u.nodes
  | tend op =>
    match b with
    | hashed ring stream => hashed (ring.apply op).1 stream
    | b => b

/-- A balancer after some uses. -/
def used (b : Balancer) (uses : List Use) : Balancer := uses.foldl Use.act b

@[simp] theorem used_nil (b : Balancer) : b.used [] = b := rfl

@[simp] theorem used_cons (b : Balancer) (use : Use) (rest : List Use) :
    b.used (use :: rest) = (use.act b).used rest := rfl

/-- A pick, or a notice of a routing table with just the addresses that are on the ring already. -/
def Use.Refreshes (b : Balancer) : Use → Prop
  | pick _ _ => True
  | update u =>
    match b with
    | hashed ring _ => ∀ a, a ∈ u.addresses ↔ ring.hasText a = true
    | _ => False
  | tend _ => False

/-- Uses that find a ring with their members, each at its time. -/
def Refreshing (b : Balancer) : List Use → Prop
  | [] => True
  | use :: rest => use.Refreshes b ∧ Refreshing (use.act b) rest

theorem exists_act_pick (ring : Ring String) (stream : KeyStream) (c : Context)
    (nodes : List WeightedNode) :
    ∃ stream', (Use.pick c nodes).act (hashed ring stream) = hashed ring stream' := by
  rw [Use.act]
  cases hpick : (hashed ring stream).pick c nodes with
  | error f => exact ⟨stream, rfl⟩
  | ok r => exact exists_eq_of_pick hpick

/-- Whatever is done with a hashed balancer, its ring has only gone through operations on rings. -/
theorem exists_used_eq (ring : Ring String) (stream : KeyStream) (uses : List Use) :
    ∃ ops stream', (hashed ring stream).used uses = hashed (ring.run ops).1 stream' := by
  induction uses generalizing ring stream with
  | nil => exact ⟨[], stream, rfl⟩
  | cons use rest ih =>
    cases use with
    | pick c nodes =>
      obtain ⟨stream', hact⟩ := exists_act_pick ring stream c nodes
      rw [used_cons, hact]
      exact ih ring stream'
    | update u =>
      obtain ⟨ops, stream', hused⟩ := ih (ring.apply u.op).1 stream
      exact ⟨u.op :: ops, stream', hused⟩
    | tend op =>
      obtain ⟨ops, stream', hused⟩ := ih (ring.apply op).1 stream
      exact ⟨op :: ops, stream', hused⟩

/-! ## Refreshes -/

section

variable {ring : Ring String} {m : Roster String}

theorem act_of_refreshes (h : Laid ring m) (stream : KeyStream) {use : Use}
    (huse : use.Refreshes (hashed ring stream)) :
    ∃ stream', use.act (hashed ring stream) = hashed ring stream' := by
  cases use with
  | pick c nodes => exact exists_act_pick ring stream c nodes
  | update u =>
    have hsame : ∀ t, t ∈ u.addresses.map toString ↔ ring.hasText t = true := by
      rw [show u.addresses.map toString = u.addresses from List.map_id _]
      exact huse
    refine ⟨stream, ?_⟩
    rw [Use.act, Notice.op, h.apply_reconcile_of_same _ _ hsame]
  | tend op => exact huse.elim

/-- **Picks and refreshes leave the ring as it is**, in any number and order. -/
theorem used_of_refreshing (h : Laid ring m) (stream : KeyStream) {more : List Use}
    (hmore : Refreshing (hashed ring stream) more) :
    ∃ stream', (hashed ring stream).used more = hashed ring stream' := by
  induction more generalizing stream with
  | nil => exact ⟨stream, rfl⟩
  | cons use rest ih =>
    obtain ⟨stream', hact⟩ := act_of_refreshes h stream hmore.1
    have hrest := hmore.2
    rw [hact] at hrest
    rw [used_cons, hact]
    exact ih stream' hrest

end

/-! ## Candidates -/

/-- Candidates are put to the ring as a set of addresses. -/
theorem any_address_eq {addresses : List String} {nodes : List WeightedNode}
    (h : ∀ x, x ∈ nodes.map WeightedNode.address ↔ x ∈ addresses) :
    (fun x => nodes.any fun n => n.address = x) = fun x => decide (x ∈ addresses) := by
  funext x
  rw [Bool.eq_iff_iff, decide_eq_true_iff, ← h, List.any_eq_true, List.mem_map]
  simp only [decide_eq_true_iff]

/-- The candidate that is picked is the first one at the address that the ring gives for the set. -/
theorem exists_pick_eq {ring : Ring String} {key a : String} {addresses : List String}
    (hwhere : ring.getWhere key (fun x => x ∈ addresses) = some a) {c : Context}
    (hkey : c.hashKey? = some key) {nodes : List WeightedNode}
    (hnodes : ∀ x, x ∈ nodes.map WeightedNode.address ↔ x ∈ addresses) (stream : KeyStream) :
    ∃ n, n.address = a ∧ nodes.find? (fun n => n.address = a) = some n ∧
      (hashed ring stream).pick c nodes = .ok (n, hashed ring stream) := by
  rw [← any_address_eq hnodes] at hwhere
  obtain ⟨n, -, ha, hpick⟩ := exists_pickByKey hwhere
  have hfind := hpick
  rw [pickByKey, hwhere] at hfind
  exact ⟨n, ha, hfind, pick_of_pickByKey hpick hkey stream⟩

/-- **Picks by key are sticky.** Take a hashed balancer in any state that it can be brought to, a key, and
a set of addresses with one of them on the ring. There is one address among them, the clockwise next
one for the key, such that every call with the key, with whatever candidates at exactly these addresses
and after whatever picks and refreshes in between, is answered with the first candidate at that address.
It leaves the balancer as it is, so nothing is drawn for it. -/
theorem picks_sticky (replicas : Nat) (stream : KeyStream) (uses : List Use) (key : String)
    (addresses : List String) :
    let b := (hashed (Ring.empty replicas) stream).used uses
    ∃ ring drawn, b = hashed ring drawn ∧
      ((∃ x ∈ addresses, ring.hasText x = true) →
        ∃ a ∈ addresses, ring.getWhere key (fun x => x ∈ addresses) = some a ∧
          ∀ more, Refreshing b more → ∀ (c : Context) (nodes : List WeightedNode),
            c.hashKey? = some key →
            (∀ x, x ∈ nodes.map WeightedNode.address ↔ x ∈ addresses) →
            ∃ n, n.address = a ∧ nodes.find? (fun n => n.address = a) = some n ∧
              (b.used more).pick c nodes = .ok (n, b.used more)) := by
  intro b
  obtain ⟨ops, drawn, hb⟩ : ∃ ops drawn, b = hashed ((Ring.empty replicas).run ops).1 drawn :=
    exists_used_eq (Ring.empty replicas) stream uses
  obtain ⟨m, h⟩ := exists_laid (α := String) replicas ops
  refine ⟨_, drawn, hb, ?_⟩
  rintro ⟨x, hx, htext⟩
  obtain ⟨y, ⟨hstored, rfl⟩, -⟩ := (h.existsUnique_stores x).1 htext
  obtain ⟨a, hwhere⟩ := Option.isSome_iff_exists.1
    (h.getWhere_isSome key (fun x => x ∈ addresses) hstored (decide_eq_true hx))
  have hacc := accept_of_getWhere hwhere
  refine ⟨a, of_decide_eq_true hacc, hwhere, ?_⟩
  intro more hmore c nodes hkey hnodes
  rw [hb] at hmore ⊢
  obtain ⟨drawn', hused⟩ := used_of_refreshing h drawn hmore
  rw [hused]
  exact exists_pick_eq hwhere hkey hnodes drawn'

/-- `a` and `a1` share the position of the key, and `z` is no member. The two lists of candidates differ
in order, in weights and in how often they name an address, and a call without a key and a refresh lie
between the two picks. -/
theorem picks_sticky_shared :
    let b := (hashed (Ring.empty 11) default).used [.update (notice ["b", "a", "a1"])]
    let more : List Use := [.pick {} [standIn "z", standIn "b"],
      .update ⟨.backward _, .backward _, ["a", "b", "a", "a1"].map standIn⟩]
    Refreshing b more ∧
      ∃ n n', n.address = n'.address ∧
        b.pick callAt [standIn "a1", standIn "z", standIn "a"] = .ok (n, b) ∧
        (b.used more).pick callAt [⟨(standIn "a").node, 7⟩, standIn "z", standIn "a", standIn "a1"]
          = .ok (n', b.used more) := by
  intro b more
  obtain ⟨ring, drawn, hb, hsticky⟩ :=
    picks_sticky 11 default [.update (notice ["b", "a", "a1"])] "a10" ["a", "a1", "z"]
  have hring : ring.members.keys = ["b", "a", "a1"] := by
    rw [← (Balancer.hashed.inj hb).1]
    decide
  have htext : ∀ t, t ∈ ["b", "a", "a1"] ↔ ring.hasText t = true := by
    intro t
    rw [Ring.hasText, ← Table.mem_keys_iff, hring]
  have hmore : Refreshing b more := by
    obtain ⟨drawn', hact⟩ := exists_act_pick ring drawn {} [standIn "z", standIn "b"]
    rw [show b = hashed ring drawn from hb]
    refine ⟨trivial, ?_, trivial⟩
    rw [hact]
    intro t
    rw [← htext]
    show t ∈ ["a", "b", "a", "a1"] ↔ t ∈ ["b", "a", "a1"]
    grind
  obtain ⟨a, -, -, hpick⟩ := hsticky ⟨"a", by simp, (htext "a").1 (by simp)⟩
  have hone : ∀ t, t ∈ ["a1", "z", "a"] ↔ t ∈ ["a", "a1", "z"] := by grind
  have hother : ∀ t, t ∈ ["a", "z", "a", "a1"] ↔ t ∈ ["a", "a1", "z"] := by grind
  obtain ⟨n, ha, -, hn⟩ := hpick [] trivial callAt
    [standIn "a1", standIn "z", standIn "a"] rfl hone
  obtain ⟨n', ha', -, hn'⟩ := hpick more hmore callAt
    [⟨(standIn "a").node, 7⟩, standIn "z", standIn "a", standIn "a1"] rfl hother
  exact ⟨hmore, n, n', ha.trans ha'.symm, hn, hn'⟩

end Balancer

end Steering
