import Steering.Proofs.Publication
import Steering.Resolver

/-!
# `Steering.Proofs.Publication.Refresh` — what a refresh publishes

Said without the way it is done: an instance *leads to* an address if its endpoint is accepted and gives
that address. The usable addresses of a list are the addresses that somebody on it leads to, each with the
first instance that leads there, in the order in which these first instances are listed. That leaves one
list, since the instances that come first for two addresses stand at different places.

The scan that computes it carries the addresses seen so far, and everything about it is an induction with
the addresses seen left open: what has been seen is out, and for everything else the rest of the list
decides as if it stood alone. An instance of no use leads nowhere, so it neither shadows anybody nor counts.
-/

namespace Steering.Publication

variable {scheme addr : String} {seen : List String} {s : Service} {services : List Service} {a : Address}

/-- Whether an instance leads to an address under a scheme. -/
def leadsTo (scheme addr : String) (s : Service) : Bool :=
  (Endpoint.parse s.endpoint scheme).toOption = some addr

/-- The place of the first instance that leads to an address. -/
def firstPlace (scheme : String) (services : List Service) (addr : String) : Nat :=
  services.findIdx (leadsTo scheme addr)

theorem addressOf?_eq (scheme : String) (s : Service) :
    addressOf? scheme s = (Endpoint.parse s.endpoint scheme).toOption.map fun addr =>
      { scheme, addr, service := s } := by
  rw [addressOf?, Endpoint.parse]
  cases Endpoint.resolve s.endpoint scheme <;> rfl

theorem firstPlace_cons_of_not (h : leadsTo scheme addr s = false) :
    firstPlace scheme (s :: services) addr = firstPlace scheme services addr + 1 := by
  rw [firstPlace, firstPlace, List.findIdx_cons, h]
  rfl

theorem firstPlace_cons_of (h : leadsTo scheme addr s = true) :
    firstPlace scheme (s :: services) addr = 0 := by
  rw [firstPlace, List.findIdx_cons, h]
  rfl

/-- **What one instance does to the scan**: nothing, if it leads nowhere or to an address that has been
seen; otherwise its address comes next and counts as seen. -/
theorem distinct_cons_cases (scheme : String) (seen : List String) (s : Service)
    (services : List Service) :
    (distinct seen ((s :: services).filterMap (addressOf? scheme))
        = distinct seen (services.filterMap (addressOf? scheme)) ∧
      ∀ addr, leadsTo scheme addr s = true → addr ∈ seen) ∨
    ∃ addr, addr ∉ seen ∧ (∀ addr', leadsTo scheme addr' s = true ↔ addr' = addr) ∧
      distinct seen ((s :: services).filterMap (addressOf? scheme))
        = { scheme, addr, service := s }
          :: distinct (addr :: seen) (services.filterMap (addressOf? scheme)) := by
  rw [List.filterMap_cons, addressOf?_eq]
  simp only [leadsTo, decide_eq_true_iff]
  cases hparse : (Endpoint.parse s.endpoint scheme).toOption with
  | none => exact Or.inl ⟨rfl, fun addr h => by cases h⟩
  | some addr =>
    by_cases hseen : addr ∈ seen
    · refine Or.inl ⟨?_, ?_⟩
      · rw [Option.map_some, distinct, if_pos hseen]
      · rintro addr' ⟨⟩
        exact hseen
    · refine Or.inr ⟨addr, hseen, ?_, ?_⟩
      · intro addr'
        rw [Option.some.injEq, eq_comm]
      · rw [Option.map_some, distinct, if_neg hseen]

theorem mem_distinct_iff : a ∈ distinct seen (services.filterMap (addressOf? scheme)) ↔
    a.addr ∉ seen ∧ a.scheme = scheme ∧
      services.find? (leadsTo scheme a.addr) = some a.service := by
  induction services generalizing seen with
  | nil => simp [distinct]
  | cons s rest ih =>
    obtain ⟨hsame, hold⟩ | ⟨addr, hnew, honly, hnext⟩ := distinct_cons_cases scheme seen s rest
    · rw [hsame, ih]
      refine and_congr_right fun hunseen => ?_
      have hnot : ¬ leadsTo scheme a.addr s = true := fun h => hunseen (hold _ h)
      rw [List.find?_cons_of_neg hnot]
    · rw [hnext, List.mem_cons, ih]
      by_cases ha : a.addr = addr
      · -- the address of this instance: it is seen from here on, so the entry is this one
        rw [List.find?_cons_of_pos ((honly _).2 ha), Option.some.injEq]
        constructor
        · rintro (rfl | ⟨hunseen, -⟩)
          · exact ⟨hnew, rfl, rfl⟩
          · exact absurd (ha ▸ List.mem_cons_self) hunseen
        · rintro ⟨-, hscheme, hservice⟩
          obtain ⟨scheme', addr', service'⟩ := a
          cases ha
          cases hscheme
          cases hservice
          exact Or.inl rfl
      · have hnot : ¬ leadsTo scheme a.addr s = true := fun h => ha ((honly _).1 h)
        rw [List.find?_cons_of_neg hnot, List.mem_cons, not_or]
        constructor
        · rintro (rfl | ⟨⟨-, hunseen⟩, hrest⟩)
          · exact absurd rfl ha
          · exact ⟨hunseen, hrest⟩
        · rintro ⟨hunseen, hrest⟩
          exact Or.inr ⟨⟨ha, hunseen⟩, hrest⟩

theorem pairwise_distinct (scheme : String) (seen : List String) (services : List Service) :
    (distinct seen (services.filterMap (addressOf? scheme))).Pairwise fun a b =>
      firstPlace scheme services a.addr < firstPlace scheme services b.addr := by
  induction services generalizing seen with
  | nil => exact List.Pairwise.nil
  | cons s rest ih =>
    obtain ⟨hsame, hold⟩ | ⟨addr, hnew, honly, hnext⟩ := distinct_cons_cases scheme seen s rest
    · rw [hsame]
      have hlater : ∀ a ∈ distinct seen (rest.filterMap (addressOf? scheme)),
          firstPlace scheme (s :: rest) a.addr = firstPlace scheme rest a.addr + 1 := by
        intro a ha
        refine firstPlace_cons_of_not (Bool.eq_false_iff.2 fun h => ?_)
        exact (mem_distinct_iff.1 ha).1 (hold _ h)
      refine (ih seen).imp_of_mem fun ha hb hlt => ?_
      rw [hlater _ ha, hlater _ hb]
      exact Nat.succ_lt_succ hlt
    · rw [hnext]
      have hlater : ∀ a ∈ distinct (addr :: seen) (rest.filterMap (addressOf? scheme)),
          firstPlace scheme (s :: rest) a.addr = firstPlace scheme rest a.addr + 1 := by
        intro a ha
        refine firstPlace_cons_of_not (Bool.eq_false_iff.2 fun h => ?_)
        exact (mem_distinct_iff.1 ha).1 ((honly _).1 h ▸ List.mem_cons_self)
      refine List.Pairwise.cons ?_ ((ih _).imp_of_mem fun ha hb hlt => ?_)
      · intro a ha
        rw [firstPlace_cons_of ((honly addr).2 rfl), hlater a ha]
        exact Nat.succ_pos _
      · rw [hlater _ ha, hlater _ hb]
        exact Nat.succ_lt_succ hlt

/-- What a list of instances is good for: every address that somebody on it leads to, with the first who
does, in the order in which these are listed. -/
structure Firsts (scheme : String) (services : List Service) (addresses : List Address) : Prop where
  mem_iff : ∀ a, a ∈ addresses ↔
    a.scheme = scheme ∧ services.find? (leadsTo scheme a.addr) = some a.service
  inOrder : addresses.Pairwise fun a b =>
    firstPlace scheme services a.addr < firstPlace scheme services b.addr

theorem firsts_usable (scheme : String) (services : List Service) :
    Firsts scheme services (usable scheme services) where
  mem_iff a := by
    rw [usable, mem_distinct_iff]
    exact and_iff_right List.not_mem_nil
  inOrder := pairwise_distinct scheme [] services

namespace Firsts

variable {addresses others : List Address}

theorem nodup (h : Firsts scheme services addresses) : (addresses.map Address.addr).Nodup := by
  refine List.pairwise_map.2 (h.inOrder.imp fun hlt heq => ?_)
  rw [heq] at hlt
  exact Nat.lt_irrefl _ hlt

/-- There is only one list of first instances. -/
theorem eq (h : Firsts scheme services addresses) (h' : Firsts scheme services others) :
    addresses = others := by
  have hperm : addresses.Perm others :=
    (List.perm_ext_iff_of_nodup h.nodup.of_map h'.nodup.of_map).2 fun a => by
      rw [h.mem_iff, h'.mem_iff]
  refine hperm.eq_of_pairwise ?_ h.inOrder h'.inOrder
  intro a b _ _ hab hba
  exact absurd hab (Nat.lt_asymm hba)

end Firsts

theorem reachable_iff : Reachable scheme services ↔
    ∃ s ∈ services, ∃ addr, Endpoint.parse s.endpoint scheme = .ok addr := by
  rw [Reachable]
  refine exists_congr fun s => and_congr_right fun _ => ?_
  rw [Endpoint.parse]
  cases Endpoint.resolve s.endpoint scheme <;> simp [Except.isOk, Except.toBool, Except.mapError]

/-- **A refresh publishes exactly the usable instances.** Without a subset that is the one list of the
addresses that somebody leads to, each with the first instance that does; a subset of a positive size takes
as many of these as it has room for, none of them twice; and nothing is published, and nothing changes but
that the loop asks again, exactly if no endpoint on the list is accepted. -/
theorem refresh_publishes_firsts {σ : Type} (r : Resolver σ) (subset? : Option ShuffleSubset)
    (hsubset : r.subset? = subset?.map ShuffleSubset.select) (services : List Service) :
    ∃ valid published : List Address,
      (Firsts r.scheme services valid ∧ (valid.map Address.addr).Nodup ∧
        ∀ others, Firsts r.scheme services others → others = valid) ∧
      (subset? = none → published = valid) ∧
      (∀ s, subset? = some s → 0 < s.size → published.length = min s.size valid.length ∧
        (published.map Address.addr).Nodup ∧ ∀ a ∈ published, a ∈ valid) ∧
      (published = [] ↔
        ¬ ∃ s ∈ services, ∃ addr, Endpoint.parse s.endpoint r.scheme = .ok addr) ∧
      (published = [] →
        r.hear (.ok services) = ({ r with phase := .listing }, .heard (.ok services))) ∧
      (published ≠ [] → r.hear (.ok services)
        = (({ r with nodeSet := (r.nodeSet.save (nodes published)).1 }).deliver published 0,
            .published services published)) := by
  have hfirsts := firsts_usable r.scheme services
  refine ⟨usable r.scheme services, ofServices r.scheme r.subset? services,
    ⟨hfirsts, hfirsts.nodup, fun others h => h.eq hfirsts⟩, ?_, ?_, ?_, ?_, ?_⟩
  · rintro rfl
    rw [hsubset]
    rfl
  · rintro s rfl hsize
    have hlength := s.length_select (usable r.scheme services)
    rw [if_neg (Nat.ne_of_gt hsize)] at hlength
    rw [hsubset]
    exact ⟨hlength, nodup_ofServices r.scheme services (some s),
      fun a ha => (ofServices_subperm r.scheme services (some s)).subset ha⟩
  · rw [hsubset, ofServices_eq_nil_iff, reachable_iff]
  · intro hnone
    rw [Resolver.hear, Resolver.publish, hnone]
    rfl
  · intro hsome
    rw [Resolver.hear, Resolver.publish, if_neg (by rwa [List.isEmpty_iff])]

/-! ## A mixed list -/

/-- A stream with room for one change, to somebody who knows of `old`. -/
def poolOfOld : ChangeStream := { capacity := 1, active := ["old"] }

/-- A loop that expects `grpc` and publishes at most one address. So far that was `old`. -/
def loopOfOne : Resolver Unit where
  service := "order"
  feed := ()
  scheme := "grpc"
  subset? := (some { key := "client-a", size := 1 }).map ShuffleSubset.select
  timer := .exact
  retryMs := 20
  nodeSet := ((default : NodeSet).save
    [Node.ofService "grpc" "old" { id := "0", name := "order", endpoint := "grpc://old" }]).1
  sinks := [.stream poolOfOld]
  now := 0
  phase := .listing

/-- An instance with another protocol at `h:1`, two that lead there, one at `k`, and one that leads
nowhere. -/
def mixed : List Service :=
  [("1", "http://h:1"), ("2", "grpc://h:1?isSecure=true"), ("3", "grpc://u@h:0001"), ("4", "grpc://k"),
    ("5", "not a uri")].map fun (id, endpoint) => { id, name := "order", endpoint }

/-- The subset has room for one of the two usable addresses, and the one that two instances lead to is the
second's, whom the first, with another protocol, does not shadow. The table holds what is published in the
place of `old`, and the stream is about to be told of it. -/
theorem refresh_publishes_firsts_mixed :
    ∃ valid published : List Address, Firsts "grpc" mixed valid ∧
      (∃ a ∈ valid, a.addr = "h:1" ∧ a.service.id = "2") ∧ published.length = 1 ∧
      (∀ a ∈ published, a ∈ valid) ∧
      let told := loopOfOne.hear (.ok mixed)
      told.2 = .published mixed published ∧
        told.1.nodeSet.nodes.map WeightedNode.address = published.map Address.addr ∧
        told.1.sinks = [.stream (poolOfOld.start published)] ∧
        told.1.phase = .delivering published 0 := by
  obtain ⟨valid, published, ⟨hfirsts, -, -⟩, -, hsome, hnil, -, hheard⟩ :=
    refresh_publishes_firsts loopOfOne (some { key := "client-a", size := 1 }) rfl mixed
  obtain ⟨hlength, -, hmem⟩ := hsome _ rfl (by decide)
  have haccepted : Endpoint.parse "grpc://k" "grpc" = .ok "k" := by decide +kernel
  have hpublished : published ≠ [] := fun h =>
    hnil.1 h ⟨{ id := "4", name := "order", endpoint := "grpc://k" }, by simp [mixed], "k", haccepted⟩
  have hfirst : leadsTo "grpc" "h:1" { id := "1", name := "order", endpoint := "http://h:1" } = false := by
    decide +kernel
  let second : Service := { id := "2", name := "order", endpoint := "grpc://h:1?isSecure=true" }
  have hsecond : leadsTo "grpc" "h:1" second = true := by decide +kernel
  have hfound : mixed.find? (leadsTo "grpc" "h:1") = some second := by
    rw [mixed, List.map_cons, List.find?_cons_of_neg (by simp [hfirst]), List.map_cons,
      List.find?_cons_of_pos hsecond]
  have hmemSecond : ⟨"grpc", "h:1", second⟩ ∈ valid := (hfirsts.mem_iff _).2 ⟨rfl, hfound⟩
  have hone : published.length = 1 := by
    have hpos : published.length ≠ 0 := fun h => hpublished (List.length_eq_zero_iff.1 h)
    simp only at hlength
    omega
  have htable : (loopOfOne.nodeSet.save (nodes published)).1.nodes.map WeightedNode.address
      = published.map Address.addr := by
    have hnodes : nodes published ≠ [] := by simpa [nodes] using hpublished
    rw [NodeSet.save, if_neg (by rwa [List.isEmpty_iff]), List.map_map, ← address_nodes]
    rfl
  refine ⟨valid, published, hfirsts, ⟨_, hmemSecond, rfl, rfl⟩, hone, hmem, ?_⟩
  rw [hheard hpublished]
  exact ⟨rfl, htable, rfl, rfl⟩

end Steering.Publication
