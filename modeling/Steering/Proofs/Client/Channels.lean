import Mathlib
import Steering.Client
import Steering.Proofs.Resolver.Life

/-!
# `Steering.Proofs.Client.Channels` — where a channel comes from

A client is used in three ways that matter to its channels: its loop lives on, which may replace the
snapshot at any moment and steers the calls; somebody replaces the snapshot by hand; and channels are
asked for, for nodes of this snapshot or of one that is long gone. Runs mix them as they like.

A channel that is found in the cache was made once, for one node, and has been there ever since
(`MadeFor`). Everything that a channel can be asked about is answered by that node, which need not be
the one that the channel is asked for now: all that the two are known to share is the address.
-/

namespace Steering

namespace ChannelCache

variable {c : ChannelCache} {nodes : List WeightedNode} {n : WeightedNode}

/-- **What asking for a channel can do.** It finds one, or forgets the channels of addresses that have left
the table, and then makes one or fails. -/
theorem channelFor_cases (c : ChannelCache) (nodes : List WeightedNode) (n : WeightedNode) :
    (∃ channel, c.channels.get? n.address = some channel ∧ c.channelFor nodes n = (.ok channel, c)) ∨
      (c.channels.get? n.address = none ∧
        ((∃ e, c.channelFor nodes n = (.error e, c.narrow nodes)) ∨
          ∃ channel : Channel,
            channel = ⟨Endpoint.channelUri n.address n.service.endpoint c.secure, c.made⟩ ∧
            c.channelFor nodes n = (.ok channel, { c.narrow nodes with
              channels := (c.narrow nodes).channels.insert n.address channel, made := c.made + 1 }))) := by
  rw [channelFor]
  cases hget : c.channels.get? n.address with
  | some channel => exact Or.inl ⟨channel, rfl, rfl⟩
  | none =>
    refine Or.inr ⟨rfl, ?_⟩
    dsimp only
    rw [make]
    cases Uri.parse (Endpoint.channelUri n.address n.service.endpoint (c.narrow nodes).secure) with
    | error e => exact Or.inl ⟨_, rfl⟩
    | ok uri => exact Or.inr ⟨_, rfl, rfl⟩

theorem get?_narrow_of_some {a : String} {channel : Channel}
    (h : (c.narrow nodes).channels.get? a = some channel) : c.channels.get? a = some channel := by
  rw [narrow, Table.get?_narrow] at h
  split at h
  · exact h
  · cases h

/-- A channel that was given is the one that is kept. -/
theorem get?_of_channelFor {channel : Channel} (h : (c.channelFor nodes n).1 = .ok channel) :
    (c.channelFor nodes n).2.channels.get? n.address = some channel := by
  obtain ⟨kept, hget, hask⟩ | ⟨-, ⟨e, hask⟩ | ⟨made, -, hask⟩⟩ := c.channelFor_cases nodes n
  · rw [hask] at h ⊢
    cases h
    exact hget
  · rw [hask] at h
    cases h
  · rw [hask] at h ⊢
    cases h
    rw [Table.get?_insert, if_pos rfl]

/-- **Where a channel in the cache is from**: it was there before, or this call has made it. -/
theorem channelFor_kept_or_made {a : String} {channel : Channel}
    (h : (c.channelFor nodes n).2.channels.get? a = some channel) :
    c.channels.get? a = some channel ∨
      (a = n.address ∧ c.channels.get? n.address = none ∧ (c.channelFor nodes n).1 = .ok channel ∧
        channel.uri = Endpoint.channelUri n.address n.service.endpoint c.secure) := by
  obtain ⟨kept, -, hask⟩ | ⟨hmiss, ⟨e, hask⟩ | ⟨made, hmade, hask⟩⟩ := c.channelFor_cases nodes n
  · rw [hask] at h
    exact Or.inl h
  · rw [hask] at h
    exact Or.inl (get?_narrow_of_some h)
  · rw [hask] at h ⊢
    rw [Table.get?_insert] at h
    split at h
    · rename_i ha
      cases h
      exact Or.inr ⟨ha.symm, hmiss, rfl, by rw [hmade]⟩
    · exact Or.inl (get?_narrow_of_some h)

@[simp] theorem secure_channelFor (c : ChannelCache) (nodes : List WeightedNode) (n : WeightedNode) :
    (c.channelFor nodes n).2.secure = c.secure := by
  obtain ⟨kept, -, hask⟩ | ⟨-, ⟨e, hask⟩ | ⟨made, -, hask⟩⟩ := c.channelFor_cases nodes n <;>
    rw [hask] <;> rfl

end ChannelCache

namespace Client

/-! ## Runs -/

/-- Something that happens to a client, or that is done with it. -/
inductive Use (ω : Type) where
  | loop (h : Happening ω)
  /-- The snapshot is replaced by hand. -/
  | save (nodes : List Node)
  | channelFor (n : WeightedNode)

variable {σ ω : Type} [Feed σ] [Backend σ ω]

def act (c : Client σ) : Use ω → Client σ
  | .loop h => { c with resolver := (c.resolver.act h).2 }
  | .save nodes =>
    { c with resolver := { c.resolver with nodeSet := (c.nodeSet.save nodes).1 } }
  | .channelFor n => (c.channelFor n).2

def after (c : Client σ) (uses : List (Use ω)) : Client σ := uses.foldl act c

/-- The channel that is kept for an address. -/
def channelAt? (c : Client σ) (address : String) : Option Channel := c.cache.channels.get? address

variable {c : Client σ} {uses : List (Use ω)}

@[simp] theorem after_nil (c : Client σ) : c.after ([] : List (Use ω)) = c := rfl

@[simp] theorem after_cons (c : Client σ) (use : Use ω) (uses : List (Use ω)) :
    c.after (use :: uses) = (c.act use).after uses := rfl

@[simp] theorem after_append (c : Client σ) (uses more : List (Use ω)) :
    c.after (uses ++ more) = (c.after uses).after more := List.foldl_append

omit [Feed σ] in
/-- A new client has no channels, and calls without encryption if its settings say so. -/
theorem cache_of_build {timer : Timer} {p : Plan σ} {chance : Chance}
    (h : (build timer p chance).1 = .ok c) :
    c.cache = { secure := !p.settings.insecure } := by
  rw [build] at h
  cases hcheck : p.check with
  | error e =>
    rw [hcheck] at h
    cases h
  | ok found =>
    rw [hcheck] at h
    dsimp only at h
    generalize Resolver.build _ _ _ _ _ = built at h
    obtain ⟨result, elapsedMs⟩ := built
    cases result with
    | error e => cases h
    | ok resolver =>
      cases h
      rfl

/-- A plan for `order` with default settings, on a registry where it has no instances yet. -/
def planFor (sinks : List Sink) : Plan Subscription where
  target? := some "discovery:///order"
  discover? := some (({} : Registry).watch 0)
  sinks

def clientFor (sinks : List Sink) : Client Subscription where
  resolver :=
    { service := "order"
      feed := Subscription.follow {} "order"
      scheme := "grpc"
      subset? := none
      timer := .exact
      retryMs := 1000
      nodeSet := (planFor sinks).nodeSet default
      sinks
      now := 0
      phase := .listing }
  cache := { secure := false }

omit [Feed σ] [Backend σ ω] in
theorem build_planFor (sinks : List Sink) :
    (build .exact (planFor sinks) ⟨default, 0⟩).1 = .ok (clientFor sinks) := rfl

/-- Steering a call and asking for the channel to its node are two uses, one after the other. -/
theorem channel_eq_ok {context : Context} {n : WeightedNode} {channel : Channel}
    (h : (c.channel context).1 = .ok (n, channel)) :
    ((c.act (.loop (.pick context []) : Use ω)).channelFor n).1 = .ok channel ∧
      (c.channel context).2 = c.after [(.loop (.pick context []) : Use ω), .channelFor n] := by
  rw [Client.channel, pick] at h ⊢
  cases hpick : c.nodeSet.pick context [] with
  | error e =>
    rw [hpick] at h
    cases h
  | ok found =>
    obtain ⟨chosen, nodeSet⟩ := found
    have hloop : c.act (.loop (.pick context []) : Use ω)
        = { c with resolver := { c.resolver with nodeSet } } := by
      rw [act, Resolver.act, NodeSet.Call.act,
        show c.resolver.nodeSet.pick context [] = .ok (chosen, nodeSet) from hpick]
    rw [hpick] at h
    simp only [Except.map] at h ⊢
    rw [after_cons, after_cons, after_nil, hloop]
    generalize hask : ({ c with resolver := { c.resolver with nodeSet } } : Client σ).channelFor chosen
      = asked at h
    obtain ⟨result, rest⟩ := asked
    cases result with
    | error e => cases h
    | ok made =>
      cases h
      exact ⟨by rw [hask], by rw [act, hask]⟩

theorem secure_act (c : Client σ) (use : Use ω) : (c.act use).cache.secure = c.cache.secure := by
  cases use with
  | loop h => rfl
  | save nodes => rfl
  | channelFor n => exact ChannelCache.secure_channelFor _ _ _

theorem secure_after (c : Client σ) (uses : List (Use ω)) :
    (c.after uses).cache.secure = c.cache.secure := by
  induction uses generalizing c with
  | nil => rfl
  | cons use rest ih => rw [after_cons, ih, secure_act]

/-! ## The node that a channel was made for -/

/-- In the course of a run a channel was made for a node, and it has been kept since. -/
def MadeFor (c : Client σ) (uses : List (Use ω)) (m : WeightedNode) (channel : Channel) : Prop :=
  ∃ earlier later, uses = earlier ++ .channelFor m :: later ∧
    (c.after earlier).channelAt? m.address = none ∧
    ((c.after earlier).channelFor m).1 = .ok channel ∧
    channel.uri = Endpoint.channelUri m.address m.service.endpoint c.cache.secure ∧
    ∀ meanwhile, meanwhile <+: later →
      (c.after (earlier ++ .channelFor m :: meanwhile)).channelAt? m.address = some channel

theorem MadeFor.uri_eq {m : WeightedNode} {channel : Channel} (h : c.MadeFor uses m channel) :
    channel.uri = Endpoint.channelUri m.address m.service.endpoint c.cache.secure := by
  obtain ⟨earlier, later, -, -, -, huri, -⟩ := h
  exact huri

/-- Keeping a channel through one more use. -/
theorem MadeFor.concat {m : WeightedNode} {channel : Channel} (h : c.MadeFor uses m channel)
    {use : Use ω} (hkept : (c.after (uses ++ [use])).channelAt? m.address = some channel) :
    c.MadeFor (uses ++ [use]) m channel := by
  obtain ⟨earlier, later, rfl, hmiss, hmade, huri, hsince⟩ := h
  refine ⟨earlier, later ++ [use], by simp, hmiss, hmade, huri, fun meanwhile hprefix => ?_⟩
  obtain heq | hshorter := List.prefix_concat_iff.1 hprefix
  · rw [heq]
    simpa using hkept
  · exact hsince meanwhile hshorter

/-- **Every channel was made for some node at its address**, if the client had none to begin with. -/
theorem exists_madeFor (hnone : ∀ a, c.channelAt? a = none) {a : String} {channel : Channel}
    (h : (c.after uses).channelAt? a = some channel) :
    ∃ m, m.address = a ∧ c.MadeFor uses m channel := by
  induction uses using List.reverseRecOn with
  | nil => rw [after_nil, hnone] at h; cases h
  | append_singleton uses use ih =>
    have hkeep : (c.after uses).channelAt? a = some channel →
        ∃ m, m.address = a ∧ c.MadeFor (uses ++ [use]) m channel := by
      intro hbefore
      obtain ⟨m, rfl, hm⟩ := ih hbefore
      exact ⟨m, rfl, hm.concat h⟩
    have hlast := h
    rw [after_append, after_cons, after_nil] at hlast
    cases use with
    | loop h => exact hkeep hlast
    | save nodes => exact hkeep hlast
    | channelFor n =>
      obtain hbefore | ⟨rfl, hmiss, hmade, huri⟩ := ChannelCache.channelFor_kept_or_made hlast
      · exact hkeep hbefore
      · refine ⟨n, rfl, uses, [], rfl, hmiss, hmade, ?_, fun meanwhile hprefix => ?_⟩
        · rw [huri, secure_after]
        · rw [List.prefix_nil.1 hprefix]
          exact h

theorem exists_madeFor_of_channelFor (hnone : ∀ a, c.channelAt? a = none) {n : WeightedNode}
    {channel : Channel} (h : ((c.after uses).channelFor n).1 = .ok channel) :
    ∃ m, m.address = n.address ∧ c.MadeFor (uses ++ [.channelFor n]) m channel := by
  refine exists_madeFor hnone ?_
  rw [after_append, after_cons, after_nil]
  exact ChannelCache.get?_of_channelFor h

end Client

end Steering
