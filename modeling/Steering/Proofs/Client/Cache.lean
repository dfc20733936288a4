import Steering.Proofs.Client.Channels

/-!
# `Steering.Proofs.Client.Cache` — which channels are kept

The cache of a client is tidied at one occasion only, when a channel is asked for that is not there. What
is kept then is what the snapshot of that moment has, so the fate of a channel hangs on the snapshots that
were looked at in this way and on no others: it is there as long as each of them had its address
(`channelAt?_after_iff`), and once it is gone, it never comes back, since a channel that is made later is
another one (`Lost`).

A miss that comes to nothing tidies as well, but adds nothing.
-/

namespace Steering

namespace ChannelCache

variable {c : ChannelCache} {nodes : List WeightedNode} {n : WeightedNode}

theorem channelFor_of_some {channel : Channel} (h : c.channels.get? n.address = some channel) :
    c.channelFor nodes n = (.ok channel, c) := by
  rw [channelFor, h]

/-- Tidying keeps the channels of the addresses in the table, and no others. -/
theorem get?_narrow_eq (c : ChannelCache) (nodes : List WeightedNode) (a : String) :
    (c.narrow nodes).channels.get? a
      = if a ∈ nodes.map WeightedNode.address then c.channels.get? a else none := by
  rw [narrow, Table.get?_narrow]
  congr 1
  simp

theorem made_le_channelFor (c : ChannelCache) (nodes : List WeightedNode) (n : WeightedNode) :
    c.made ≤ (c.channelFor nodes n).2.made := by
  obtain ⟨kept, -, hask⟩ | ⟨-, ⟨e, hask⟩ | ⟨made, -, hask⟩⟩ := c.channelFor_cases nodes n
  · rw [hask]
  · rw [hask]
    exact le_refl c.made
  · rw [hask]
    exact Nat.le_succ c.made

/-- Asking for another address leaves a channel if it is not a miss or the table has the address. -/
theorem get?_channelFor_of_some {a : String} {channel : Channel}
    (h : c.channels.get? a = some channel) :
    (c.channelFor nodes n).2.channels.get? a = some channel ↔
      (c.channels.get? n.address = none → a ∈ nodes.map WeightedNode.address) := by
  obtain ⟨kept, hget, hask⟩ | ⟨hmiss, ⟨e, hask⟩ | ⟨made, -, hask⟩⟩ := c.channelFor_cases nodes n
  · rw [hask]
    exact iff_of_true h fun hmiss => absurd (hget.symm.trans hmiss) (by simp)
  · rw [hask, get?_narrow_eq, h]
    simp [hmiss]
  · have hother : n.address ≠ a := by
      rintro rfl
      cases hmiss.symm.trans h
    rw [hask, Table.get?_insert, if_neg hother, get?_narrow_eq, h]
    simp [hmiss]

/-- After a miss the cache has channels of addresses in the table and of the one asked for. -/
theorem mem_of_miss (hmiss : c.channels.get? n.address = none) {a : String}
    (h : (c.channelFor nodes n).2.channels.get? a ≠ none) :
    a ∈ nodes.map WeightedNode.address ∨ a = n.address := by
  obtain ⟨kept, hget, -⟩ | ⟨-, ⟨e, hask⟩ | ⟨made, -, hask⟩⟩ := c.channelFor_cases nodes n
  · cases hget.symm.trans hmiss
  · rw [hask, get?_narrow_eq] at h
    exact Or.inl (by_contra fun hnot => h (if_neg hnot))
  · by_cases ha : n.address = a
    · exact Or.inr ha.symm
    · rw [hask, Table.get?_insert, if_neg ha, get?_narrow_eq] at h
      exact Or.inl (by_contra fun hnot => h (if_neg hnot))

/-- A call that fails only tidies. -/
theorem eq_narrow_of_error {e : Fault} (h : (c.channelFor nodes n).1 = .error e) :
    (c.channelFor nodes n).2 = c.narrow nodes := by
  obtain ⟨kept, -, hask⟩ | ⟨-, ⟨e', hask⟩ | ⟨made, -, hask⟩⟩ := c.channelFor_cases nodes n
  · rw [hask] at h
    cases h
  · rw [hask]
  · rw [hask] at h
    cases h

/-- A channel that is made has the number of those made before it. -/
theorem serial_of_miss (hmiss : c.channels.get? n.address = none) {channel : Channel}
    (h : (c.channelFor nodes n).1 = .ok channel) :
    channel.serial = c.made ∧ (c.channelFor nodes n).2.made = c.made + 1 := by
  obtain ⟨kept, hget, -⟩ | ⟨-, ⟨e, hask⟩ | ⟨made, hmade, hask⟩⟩ := c.channelFor_cases nodes n
  · cases hget.symm.trans hmiss
  · rw [hask] at h
    cases h
  · rw [hask] at h ⊢
    cases h
    rw [hmade]
    exact ⟨rfl, rfl⟩

/-- A channel that has been made and is not kept for an address. -/
def Lost (c : ChannelCache) (a : String) (channel : Channel) : Prop :=
  c.channels.get? a ≠ some channel ∧ channel.serial < c.made

/-- **A channel that is lost stays lost.** -/
theorem Lost.channelFor {a : String} {channel : Channel} (h : c.Lost a channel) :
    (c.channelFor nodes n).2.Lost a channel := by
  refine ⟨fun hback => ?_, h.2.trans_le (c.made_le_channelFor nodes n)⟩
  obtain hbefore | ⟨-, hmiss, hmade, -⟩ := channelFor_kept_or_made hback
  · exact h.1 hbefore
  · exact absurd h.2 (serial_of_miss hmiss hmade).1.not_lt

end ChannelCache

namespace Client

variable {σ ω : Type} [Feed σ] [Backend σ ω] {c : Client σ}

/-- The addresses in the snapshot. -/
def live (c : Client σ) : List String := c.nodeSet.nodes.map WeightedNode.address

/-- Whether a use asks for a channel that is not there, and so looks at the snapshot. -/
def Misses (c : Client σ) : Use ω → Prop
  | .channelFor n => c.channelAt? n.address = none
  | _ => False

/-- An address is in every snapshot that is looked at at a miss in the course of a run. -/
def SeenThroughout (c : Client σ) (a : String) : List (Use ω) → Prop
  | [] => True
  | use :: rest => (c.Misses use → a ∈ c.live) ∧ (c.act use).SeenThroughout a rest

instance (c : Client σ) (use : Use ω) : Decidable (c.Misses use) :=
  match use with
  | .channelFor n => inferInstanceAs (Decidable (c.channelAt? n.address = none))
  | .loop _ | .save _ => isFalse id

def decideSeenThroughout (c : Client σ) (a : String) (uses : List (Use ω)) :
    Decidable (c.SeenThroughout a uses) :=
  match uses with
  | [] => isTrue trivial
  | use :: rest =>
    have := (c.act use).decideSeenThroughout a rest
    inferInstanceAs (Decidable ((c.Misses use → a ∈ c.live) ∧ (c.act use).SeenThroughout a rest))

instance (c : Client σ) (a : String) (uses : List (Use ω)) : Decidable (c.SeenThroughout a uses) :=
  c.decideSeenThroughout a uses

/-! ## One use -/

theorem channelAt?_act_iff {a : String} {channel : Channel} (h : c.channelAt? a = some channel)
    (use : Use ω) :
    (c.act use).channelAt? a = some channel ↔ (c.Misses use → a ∈ c.live) := by
  cases use with
  | loop h' => exact iff_of_true h False.elim
  | save nodes => exact iff_of_true h False.elim
  | channelFor n => exact ChannelCache.get?_channelFor_of_some h

theorem made_le_act (c : Client σ) (use : Use ω) : c.cache.made ≤ (c.act use).cache.made := by
  cases use with
  | loop h => exact le_refl c.cache.made
  | save nodes => exact le_refl c.cache.made
  | channelFor n => exact c.cache.made_le_channelFor _ n

theorem lost_act {a : String} {channel : Channel} (h : c.cache.Lost a channel) (use : Use ω) :
    (c.act use).cache.Lost a channel := by
  cases use with
  | loop h' => exact h
  | save nodes => exact h
  | channelFor n => exact h.channelFor

/-! ## Runs -/

theorem made_le_after (c : Client σ) (uses : List (Use ω)) :
    c.cache.made ≤ (c.after uses).cache.made := by
  induction uses generalizing c with
  | nil => exact le_refl c.cache.made
  | cons use rest ih => exact (c.made_le_act use).trans (ih (c.act use))

theorem lost_after {a : String} {channel : Channel} (h : c.cache.Lost a channel)
    (uses : List (Use ω)) : (c.after uses).cache.Lost a channel := by
  induction uses generalizing c with
  | nil => exact h
  | cons use rest ih => exact ih (lost_act h use)

/-- **A channel is kept exactly as long as its address is seen at every miss.** -/
theorem channelAt?_after_iff {a : String} {channel : Channel} (h : c.channelAt? a = some channel)
    (hmade : channel.serial < c.cache.made) (uses : List (Use ω)) :
    (c.after uses).channelAt? a = some channel ↔ c.SeenThroughout a uses := by
  induction uses generalizing c with
  | nil => exact iff_of_true h trivial
  | cons use rest ih =>
    rw [after_cons, SeenThroughout]
    by_cases hkept : (c.act use).channelAt? a = some channel
    · rw [ih hkept (hmade.trans_le (c.made_le_act use))]
      exact (and_iff_right ((channelAt?_act_iff h use).1 hkept)).symm
    · have hlost := lost_after ⟨hkept, hmade.trans_le (c.made_le_act use)⟩ rest
      exact iff_of_false hlost.1 fun hseen => hkept ((channelAt?_act_iff h use).2 hseen.1)

omit [Feed σ] in
theorem channelFor_of_channelAt? {n : WeightedNode} {channel : Channel}
    (h : c.channelAt? n.address = some channel) : (c.channelFor n).1 = .ok channel :=
  congrArg Prod.fst (ChannelCache.channelFor_of_some h)

omit [Feed σ] in
/-- A call gives a channel that was made earlier exactly if that channel is kept for its address. -/
theorem channelFor_eq_ok_iff {n : WeightedNode} {channel : Channel}
    (hmade : channel.serial < c.cache.made) :
    (c.channelFor n).1 = .ok channel ↔ c.channelAt? n.address = some channel := by
  constructor
  · intro hgiven
    by_contra hother
    cases hget : c.channelAt? n.address with
    | none =>
      exact absurd hmade (ChannelCache.serial_of_miss hget hgiven).1.not_lt
    | some kept =>
      obtain rfl : kept = channel := Except.ok.inj ((channelFor_of_channelAt? hget).symm.trans hgiven)
      exact hother hget
  · exact channelFor_of_channelAt?

omit [Feed σ] in
/-- After a miss there are at most as many channels as there are addresses in the snapshot and the one
asked for. -/
theorem size_le_of_miss {n : WeightedNode} (hmiss : c.channelAt? n.address = none) :
    (c.channelFor n).2.cache.size ≤ (insert n.address c.live.toFinset).card := by
  rw [ChannelCache.size, Table.size_eq_length_keys,
    ← List.toFinset_card_of_nodup (Table.nodup_keys _)]
  refine Finset.card_le_card fun a ha => ?_
  rw [List.mem_toFinset, Table.mem_keys_iff, Table.contains, Option.isSome_iff_ne_none] at ha
  rw [Finset.mem_insert, List.mem_toFinset]
  exact (ChannelCache.mem_of_miss hmiss ha).symm

/-- **Channels are stable for live addresses, and bounded.** Take a client in any state. A channel that is
made is the one that is given for its address later on exactly if the address has been in every snapshot
looked at at a miss since. Right after a miss all channels are for addresses in the snapshot and the one
asked for, so there are at most as many; a hit changes nothing; and a call that fails adds nothing and
leaves the channels of all addresses in the snapshot. -/
theorem channels_stable_and_bounded (c : Client σ) :
    (∀ (m : WeightedNode) (channel : Channel), c.channelAt? m.address = none →
      (c.channelFor m).1 = .ok channel → ∀ (later : List (Use ω)) (n : WeightedNode),
      n.address = m.address →
      ((((c.channelFor m).2.after later).channelFor n).1 = .ok channel ↔
        (c.channelFor m).2.SeenThroughout m.address later)) ∧
    (∀ n : WeightedNode, c.channelAt? n.address = none →
      (∀ a, (c.channelFor n).2.channelAt? a ≠ none → a ∈ c.live ∨ a = n.address) ∧
      (c.channelFor n).2.cache.size ≤ (insert n.address c.live.toFinset).card) ∧
    (∀ (n : WeightedNode) (channel : Channel), c.channelAt? n.address = some channel →
      c.channelFor n = (.ok channel, c)) ∧
    ∀ (n : WeightedNode) (e : Fault), (c.channelFor n).1 = .error e →
      (∀ a channel, (c.channelFor n).2.channelAt? a = some channel → c.channelAt? a = some channel) ∧
      ∀ a ∈ c.live, (c.channelFor n).2.channelAt? a = c.channelAt? a := by
  refine ⟨?_, fun n hmiss => ?_, fun n channel hget => ?_, fun n e hfail => ?_⟩
  · intro m channel hmiss hgiven later n haddress
    obtain ⟨hserial, hmade⟩ := ChannelCache.serial_of_miss hmiss hgiven
    have hnew : channel.serial < (c.channelFor m).2.cache.made := by
      rw [hserial]
      exact hmade ▸ Nat.lt_succ_self c.cache.made
    have hkept : (c.channelFor m).2.channelAt? m.address = some channel :=
      ChannelCache.get?_of_channelFor hgiven
    rw [channelFor_eq_ok_iff (hnew.trans_le (made_le_after _ later)), haddress]
    exact channelAt?_after_iff hkept hnew later
  · exact ⟨fun a => ChannelCache.mem_of_miss hmiss, size_le_of_miss hmiss⟩
  · rw [channelFor, ChannelCache.channelFor_of_some hget]
  · have htidied : (c.channelFor n).2.cache = c.cache.narrow c.nodeSet.nodes :=
      ChannelCache.eq_narrow_of_error hfail
    constructor
    · intro a channel hafter
      rw [channelAt?, htidied] at hafter
      exact ChannelCache.get?_narrow_of_some hafter
    · intro a hlive
      rw [channelAt?, htidied, ChannelCache.get?_narrow_eq]
      exact if_pos hlive

/-- A node at an address. -/
def nodeAt (address : String) : WeightedNode := WeightRule.weigh default (NodeSet.asking address 100)

/-- The first channel is made for a node that is in no snapshot yet. Then snapshots come and go, another
channel is made while the address is in the snapshot, and a call for a text that is no address fails. -/
def shifting : List (Use Write) :=
  [.save [NodeSet.asking "h:2" 100], .save [NodeSet.asking "h:1" 100, NodeSet.asking "h:2" 100],
    .channelFor (nodeAt "h:2"), .channelFor (nodeAt "x["), .save [NodeSet.asking "h:2" 100],
    .channelFor (nodeAt "h:2")]

/-- All of this leaves the first channel as it was, since the last snapshot has been looked at by a hit
alone. A miss with that snapshot ends it, be it one that fails. -/
theorem channels_stable_and_bounded_shifting :
    let c := ((clientFor []).channelFor (nodeAt "h:1")).2
    ((clientFor []).channelFor (nodeAt "h:1")).1 = .ok ⟨"http://h:1", 0⟩ ∧
      ((c.after shifting).channelFor (nodeAt "h:1")).1 = .ok ⟨"http://h:1", 0⟩ ∧
      ((c.after (shifting ++ [.channelFor (nodeAt "x[")])).channelFor (nodeAt "h:1")).1
        ≠ .ok ⟨"http://h:1", 0⟩ := by
  intro c
  have hmade : ((clientFor []).channelFor (nodeAt "h:1")).1 = .ok ⟨"http://h:1", 0⟩ := rfl
  have hstable := (channels_stable_and_bounded (clientFor [])).1 (nodeAt "h:1") _ rfl hmade
  refine ⟨hmade, (hstable shifting (nodeAt "h:1") rfl).2 (by decide +kernel), fun hsame => ?_⟩
  exact absurd ((hstable _ (nodeAt "h:1") rfl).1 hsame) (by decide +kernel)

end Client

end Steering
