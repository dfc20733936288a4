import Steering.Proofs.ChangeStream.Latest
import Steering.Proofs.Client.Channels

/-!
# `Steering.Proofs.Encryption` — an address is called as it was first seen

Whether an instance wants to be called with encryption stands in its endpoint text, and an instance may
change its text at any moment and keep its address. The channels of a client and the changes for a
connection pool are both kept by address alone, so that a text counts when the channel is made or the
address inserted, and not afterwards. An instance that is registered again at its address, with another
wish, goes on being called as before, until its channel is forgotten or its address has been removed in
between.
-/

namespace Steering

namespace Endpoint

variable {address endpoint endpoint' : String} {secure : Bool}

theorem plain_ne_encrypted (address : String) : "http://" ++ address ≠ "https://" ++ address := by
  intro h
  have hlength := congrArg String.length h
  rw [String.length_append, String.length_append] at hlength
  exact absurd (Nat.add_right_cancel hlength) (by decide)

/-- An address is called with encryption exactly if every call is or its text asks for it. -/
theorem channelUri_eq_encrypted_iff : channelUri address endpoint secure = "https://" ++ address ↔
    (secure || isSecure endpoint) = true := by
  rw [channelUri]
  split
  · rename_i h
    exact iff_of_true rfl h
  · rename_i h
    exact iff_of_false (plain_ne_encrypted address) h

/-- Two texts call an address alike exactly if every call is encrypted or they wish for the same. -/
theorem channelUri_eq_iff : channelUri address endpoint secure = channelUri address endpoint' secure ↔
    secure = true ∨ isSecure endpoint = isSecure endpoint' := by
  have hsame : channelUri address endpoint secure = channelUri address endpoint' secure ↔
      (secure || isSecure endpoint) = (secure || isSecure endpoint') := by
    constructor
    · intro h
      rw [Bool.eq_iff_iff, ← @channelUri_eq_encrypted_iff address, h, channelUri_eq_encrypted_iff]
    · intro h
      rw [channelUri, channelUri, h]
  rw [hsame]
  cases secure <;> simp

end Endpoint

namespace ChangeStream

theorem insertionOf_eq_iff {secure : Bool} {e e' : Address} (h : e.addr = e'.addr) :
    insertionOf secure e = insertionOf secure e' ↔
      secure = true ∨ Endpoint.isSecure e.service.endpoint = Endpoint.isSecure e'.service.endpoint := by
  rw [insertionOf, insertionOf, Change.insert.injEq, uriOf, uriOf, h, Endpoint.channelUri_eq_iff]
  exact and_iff_right rfl

end ChangeStream

open ChangeStream

/-- **An address is called as it was first seen.** The channel for a node is that of some node at its
address, for which it was made and since when it has been kept; and after an update of a stream that came
to its end, the last insertion of an address in place is that of an entry listed at some time, which is
the one from before if the address was in place already and the first of the list that can be called if
not. Either is what the node, or an entry of the list, would be called by now exactly if all calls are
encrypted or the two wish for the same. -/
theorem encrypted_as_first_seen {σ ω : Type} [Feed σ] [Backend σ ω] {timer : Timer}
    {p : Client.Plan σ} {chance : Client.Chance} {c : Client σ}
    (hbuild : (Client.build timer p chance).1 = .ok c) :
    (∀ (uses : List (Client.Use ω)) (n : WeightedNode) (channel : Channel),
      ((c.after uses).channelFor n).1 = .ok channel →
      ∃ m, m.address = n.address ∧ c.MadeFor (uses ++ [.channelFor n]) m channel ∧
        channel.uri = Endpoint.channelUri n.address m.service.endpoint (!p.settings.insecure) ∧
        (channel.uri = Endpoint.channelUri n.address n.service.endpoint (!p.settings.insecure) ↔
          p.settings.insecure = false ∨
            Endpoint.isSecure m.service.endpoint = Endpoint.isSecure n.service.endpoint)) ∧
    ∀ (capacity : Nat) (secure : Bool) (acts : List Account.Act) (dismiss : Shuffle String)
      (addresses : List Address) (during : List Account.Act),
      let t := (Account.new capacity secure).after acts
      let u := (t.act (.begin dismiss addresses)).after during
      t.stream.isBusy = false → (∀ a ∈ during, a.isBegin = false) →
      (∀ a ∈ during, a.isAbandon = false) → u.stream.isOpen = true → u.stream.isBusy = false →
      ∀ a ∈ u.active, ∃ e ∈ acts.flatMap Account.Act.listed ++ addresses,
        e.addr = a ∧ lastAbout? a u.sent = some (insertionOf secure e) ∧
        (a ∈ t.active → lastAbout? a t.sent = some (insertionOf secure e)) ∧
        (a ∉ t.active → firstCallable? secure addresses a = some e) ∧
        ∀ e' ∈ addresses, e'.addr = a → (insertionOf secure e = insertionOf secure e' ↔
          secure = true ∨
            Endpoint.isSecure e.service.endpoint = Endpoint.isSecure e'.service.endpoint) := by
  constructor
  · intro uses n channel hchannel
    have hcache := Client.cache_of_build hbuild
    have hnone : ∀ a, c.channelAt? a = none := by
      intro a
      rw [Client.channelAt?, hcache]
      rfl
    obtain ⟨m, haddress, hmade⟩ := Client.exists_madeFor_of_channelFor hnone hchannel
    have huri : channel.uri
        = Endpoint.channelUri n.address m.service.endpoint (!p.settings.insecure) := by
      rw [hmade.uri_eq, haddress, hcache]
    refine ⟨m, haddress, hmade, huri, ?_⟩
    rw [huri, Endpoint.channelUri_eq_iff, Bool.not_eq_true']
  · intro capacity secure acts dismiss addresses during t u hidle hbegin hkept hopen hdone a ha
    have hsound : t.Sound := (Account.sound_new capacity secure).after acts
    have hsecure : t.stream.secure = secure := Account.secure_after _ acts
    obtain ⟨hold, hnew⟩ := Account.lastAbout?_after_update hsound hidle dismiss addresses hbegin hkept
      hopen hdone ha
    by_cases hbefore : a ∈ t.active
    · obtain ⟨e, he, haddr, hlast⟩ := Account.exists_lastAbout?_of_mem_active hsound
        (Account.insertsOf_new capacity secure acts) hbefore
      rw [hsecure] at hlast
      refine ⟨e, List.mem_append_left _ he, haddr, (hold hbefore).trans hlast, fun _ => hlast,
        fun hnot => absurd hbefore hnot, fun e' _ haddr' => insertionOf_eq_iff (haddr.trans haddr'.symm)⟩
    · obtain ⟨e, hfirst, hlast⟩ := hnew hbefore
      rw [hsecure] at hfirst hlast
      obtain ⟨haddr, he⟩ := mem_of_firstCallable? hfirst
      exact ⟨e, List.mem_append_right _ he, haddr, hlast, fun h => absurd h hbefore, fun _ => hfirst,
        fun e' _ haddr' => insertionOf_eq_iff (haddr.trans haddr'.symm)⟩

/-! ## Registered again at the same address -/

/-- An instance of `order` at `h:1`, which asks for encryption or does not. -/
def orderAsking (asks : Bool) : Service where
  id := "1"
  name := "order"
  endpoint := if asks then "grpc://h:1?isSecure=true" else "grpc://h:1"

def nodeAsking (asks : Bool) : WeightedNode :=
  WeightRule.weigh default (Node.ofService "grpc" "h:1" (orderAsking asks))

def addressAsking (asks : Bool) : Address :=
  { scheme := "grpc", addr := "h:1", service := orderAsking asks }

/-- The instance is registered and called, and then registered again with another wish. -/
def registeredAgain : List (Client.Use Write) :=
  [.loop (.change (.register (orderAsking false))), .loop .turn, .channelFor (nodeAsking false),
    .loop (.change (.register (orderAsking true))), .loop .turn]

/-- The channel is the one made before the instance was registered again, and the insertion the one sent
before. -/
theorem encrypted_as_first_seen_again :
    (∃ m, m.address = "h:1" ∧
      (Client.clientFor []).MadeFor (registeredAgain ++ [.channelFor (nodeAsking true)]) m
        ⟨"http://h:1", 0⟩ ∧
      Endpoint.isSecure m.service.endpoint ≠ Endpoint.isSecure (orderAsking true).endpoint) ∧
    let t := (Account.new 2 false).after [.begin (.keep _) [addressAsking false], .resume]
    let u := (t.act (.begin (.keep _) [addressAsking true])).after [.resume]
    (t.stream.isBusy = false ∧ u.stream.isOpen = true ∧ u.stream.isBusy = false ∧ "h:1" ∈ u.active) ∧
      ∃ e ∈ [addressAsking false, addressAsking true],
        lastAbout? "h:1" u.sent = some (insertionOf false e) ∧
        lastAbout? "h:1" t.sent = some (insertionOf false e) := by
  constructor
  · obtain ⟨m, haddress, hmade, -, hlike⟩ := (encrypted_as_first_seen (Client.build_planFor [])).1
      registeredAgain (nodeAsking true) ⟨"http://h:1", 0⟩ rfl
    exact ⟨m, haddress, hmade, fun h => absurd (hlike.2 (Or.inr h)) (by decide +kernel)⟩
  · intro t u
    have hidle : t.stream.isBusy = false := by decide +kernel
    have hopen : u.stream.isOpen = true := by decide +kernel
    have hdone : u.stream.isBusy = false := by decide +kernel
    have hactive : "h:1" ∈ u.active := by decide +kernel
    obtain ⟨e, he, -, hlast, hbefore, -⟩ := (encrypted_as_first_seen (Client.build_planFor [])).2
      2 false [.begin (.keep _) [addressAsking false], .resume] (.keep _) [addressAsking true]
      [.resume] hidle (by decide) (by decide) hopen hdone "h:1" hactive
    exact ⟨⟨hidle, hopen, hdone, hactive⟩, e, he, hlast, hbefore (by decide +kernel)⟩

/-- The client calls the instance without encryption although it asks for it, and a completed update of a
stream leaves it inserted without encryption as well. -/
theorem called_without_encryption :
    let c := (Client.clientFor []).after registeredAgain
    (c.nodeSet.nodes = [nodeAsking true] ∧
      (c.channelFor (nodeAsking true)).1 = .ok ⟨"http://h:1", 0⟩ ∧
      Endpoint.channelUri "h:1" (nodeAsking true).service.endpoint false = "https://h:1") ∧
    let t := (Account.new 2 false).after [.begin (.keep _) [addressAsking false], .resume]
    let u := t.after [.begin (.keep _) [addressAsking true], .resume]
    u.stream.isOpen = true ∧ u.stream.isBusy = false ∧ u.active = ["h:1"] ∧
      lastAbout? "h:1" u.sent = some (.insert "h:1" "http://h:1") ∧
      insertionOf false (addressAsking true) = .insert "h:1" "https://h:1" := by
  refine ⟨⟨?_, ?_, ?_⟩, ?_, ?_, ?_, ?_, ?_⟩
  · rfl
  · rfl
  · rfl
  · decide +kernel
  · decide +kernel
  · decide +kernel
  · decide +kernel
  · decide +kernel

end Steering
