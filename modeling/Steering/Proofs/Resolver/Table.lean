import Steering.Proofs.Publication
import Steering.Proofs.Resolver.Life

/-!
# `Steering.Proofs.Resolver.Table` — what a routing table shows

Between a registry and the table stand a call that can fail, endpoints that may be of no use, a subset,
and two places that refuse to write nothing. The table does not know any of this. It shows the image of
one list, the last that was handed over with anybody on it who can be reached, and if there was none it
is empty; what happened in between, an error, a retry, a list of nobody, has left no trace.

The lists handed over are read off the events (`delivered`), and one lemma says what a happening does to
the table by way of them (`nodes_act`). A run is then a fold over its lists, in which every list either
replaces the table as a whole or is passed over (`nodes_after`).
-/

namespace Steering.Resolver

open Publication

variable {σ : Type} {r r' : Resolver σ}

/-- The table that a loop makes of a list. -/
def image (r : Resolver σ) (services : List Service) : List WeightedNode :=
  (nodes (ofServices r.scheme r.subset? services)).map r.nodeSet.rule.weigh

/-- A table when a list has come: one that would leave nothing is passed over. -/
def renewed (r : Resolver σ) (table : List WeightedNode) (services : List Service) :
    List WeightedNode :=
  if r.image services = [] then table else r.image services

/-! ## Images -/

/-- Somebody is on the table of a list exactly if somebody on the list can be reached. -/
theorem image_eq_nil_iff {subset? : Option ShuffleSubset}
    (h : r.subset? = subset?.map ShuffleSubset.select) (services : List Service) :
    r.image services = [] ↔ ¬ Reachable r.scheme services := by
  rw [image, nodes, h, List.map_eq_nil_iff, List.map_eq_nil_iff]
  exact ofServices_eq_nil_iff r.scheme services subset?

theorem nodup_image {subset? : Option ShuffleSubset}
    (h : r.subset? = subset?.map ShuffleSubset.select) (services : List Service) :
    ((r.image services).map WeightedNode.address).Nodup := by
  have hnodup := nodup_ofServices r.scheme services subset?
  rw [← h, ← address_nodes] at hnodup
  rw [image, List.map_map]
  exact hnodup

theorem weight_nonneg_of_mem_image {services : List Service} {n : WeightedNode}
    (h : n ∈ r.image services) : 0 ≤ n.weight := by
  obtain ⟨m, -, rfl⟩ := List.mem_map.1 h
  exact r.nodeSet.rule.weightOf_nonneg m

/-! ## What stays -/

/-- Two states of a loop with the same rules by which a list becomes a table. -/
def SameRules (r r' : Resolver σ) : Prop :=
  r'.scheme = r.scheme ∧ r'.subset? = r.subset? ∧ r'.nodeSet.rule = r.nodeSet.rule

theorem SameRules.image_eq (h : SameRules r r') : r'.image = r.image := by
  funext services
  obtain ⟨hscheme, hsubset, hrule⟩ := h
  rw [image, image, hscheme, hsubset, hrule]

theorem SameRules.renewed_eq (h : SameRules r r') : r'.renewed = r.renewed := by
  funext table services
  rw [renewed, renewed, h.image_eq]

theorem sameRules_saved (r : Resolver σ) (reply? : Option Reply) :
    SameRules r { r with nodeSet := r.saved reply? } := by
  match reply? with
  | some (.ok services) => exact ⟨rfl, rfl, NodeSet.rule_act r.nodeSet (.save _)⟩
  | some (.error e) => exact ⟨rfl, rfl, rfl⟩
  | none => exact ⟨rfl, rfl, rfl⟩

theorem nodes_saved (r : Resolver σ) (reply? : Option Reply) :
    (r.saved reply?).nodes
      = ((reply?.bind Except.toOption).map (r.renewed r.nodeSet.nodes)).getD r.nodeSet.nodes := by
  match reply? with
  | some (.ok services) =>
    show (r.saved (some (.ok services))).nodes = r.renewed r.nodeSet.nodes services
    rw [saved, NodeSet.save, renewed, image]
    -- the table refuses just the lists that leave nothing
    cases nodes (ofServices r.scheme r.subset? services) <;> rfl
  | some (.error e) => rfl
  | none => rfl

/-! ## Folds -/

theorem foldl_renewed_of_forall {ls : List (List Service)} (h : ∀ l ∈ ls, r.image l = [])
    (table : List WeightedNode) : ls.foldl r.renewed table = table := by
  induction ls with
  | nil => rfl
  | cons l rest ih =>
    rw [List.foldl_cons, renewed, if_pos (h l List.mem_cons_self)]
    exact ih fun l' hl' => h l' (List.mem_cons_of_mem l hl')

theorem foldl_renewed_cases (ls : List (List Service)) (table : List WeightedNode) :
    ls.foldl r.renewed table = table ∨
      ∃ l ∈ ls, r.image l ≠ [] ∧ ls.foldl r.renewed table = r.image l := by
  induction ls using List.reverseRecOn with
  | nil => exact Or.inl rfl
  | append_singleton ls l ih =>
    rw [List.foldl_append, List.foldl_cons, List.foldl_nil, renewed]
    by_cases hl : r.image l = []
    · rw [if_pos hl]
      refine ih.imp_right ?_
      rintro ⟨l', hl', hne, htable⟩
      exact ⟨l', List.mem_append_left _ hl', hne, htable⟩
    · rw [if_neg hl]
      exact Or.inr ⟨l, by simp, hl, rfl⟩

/-! ## Runs -/

variable {ω : Type} [Feed σ] [Backend σ ω]

theorem sameRules_act (r : Resolver σ) (h : Happening ω) : SameRules r (r.act h).2 := by
  cases h with
  | turn =>
    rcases exists_step_eq r with ⟨-, -, sinks, phase, hstep, -⟩ | ⟨sinks, phase, hstep, -⟩
    · rw [act, hstep]
      exact sameRules_saved r _
    · rw [act, hstep]
      exact ⟨rfl, rfl, rfl⟩
  | change w => exact ⟨rfl, rfl, rfl⟩
  | clock now => exact ⟨rfl, rfl, rfl⟩
  | pick c filters => exact ⟨rfl, rfl, NodeSet.rule_act r.nodeSet (.pick c filters)⟩
  | sinks sinks => exact ⟨rfl, rfl, rfl⟩
  | close =>
    rw [act, close]
    split <;> exact ⟨rfl, rfl, rfl⟩
  | drop => exact ⟨rfl, rfl, rfl⟩

/-- **What a happening does to the table**: a list that comes with it renews the table. -/
theorem nodes_act (r : Resolver σ) (h : Happening ω) :
    (r.act h).2.nodeSet.nodes
      = (((r.act h).1.bind Event.list?).map (r.renewed r.nodeSet.nodes)).getD r.nodeSet.nodes := by
  cases h with
  | turn =>
    rcases exists_step_eq r with
      ⟨-, -, sinks, phase, hstep, hreply⟩ | ⟨sinks, phase, hstep, hreply⟩
    · rw [act, hstep, Event.bind_list?, hreply]
      exact nodes_saved r _
    · rw [act, hstep, Event.bind_list?, hreply]
      rfl
  | change w => rfl
  | clock now => rfl
  | pick c filters => exact NodeSet.nodes_act_pick r.nodeSet c filters
  | sinks sinks => rfl
  | close =>
    rw [act, close]
    split <;> rfl
  | drop => rfl

/-- **A table is a fold over the lists that were handed over.** -/
theorem nodes_after (r : Resolver σ) (hs : List (Happening ω)) :
    (r.after hs).nodeSet.nodes = (r.delivered hs).foldl r.renewed r.nodeSet.nodes := by
  induction hs generalizing r with
  | nil => rfl
  | cons h rest ih =>
    rw [after_cons, ih, (sameRules_act r h).renewed_eq, nodes_act, delivered_cons,
      List.foldl_append]
    cases (r.act h).1.bind Event.list? <;> rfl

theorem sameRules_after (r : Resolver σ) (hs : List (Happening ω)) : SameRules r (r.after hs) := by
  induction hs generalizing r with
  | nil => exact ⟨rfl, rfl, rfl⟩
  | cons h rest ih =>
    obtain ⟨hscheme, hsubset, hrule⟩ := sameRules_act r h
    obtain ⟨hscheme', hsubset', hrule'⟩ := ih (r.act h).2
    exact ⟨hscheme'.trans hscheme, hsubset'.trans hsubset, hrule'.trans hrule⟩

/-- After some happenings a table is as it was, or the image of a list that has come with them. -/
theorem nodes_after_cases (r : Resolver σ) (hs : List (Happening ω)) :
    (r.after hs).nodeSet.nodes = r.nodeSet.nodes ∨
      ∃ l ∈ r.delivered hs, r.image l ≠ [] ∧ (r.after hs).nodeSet.nodes = r.image l := by
  rw [nodes_after]
  exact foldl_renewed_cases (r.delivered hs) r.nodeSet.nodes

/-- **A table shows the last list with anybody on it who can be reached.** In any run of a new loop on an
empty table, without a subset or with one by any key and of any size: as long as nobody could be reached
on any list that was handed over, the table is empty, and then it is the image of the last list on which
somebody could. So its addresses are distinct, no weight is negative, it is never emptied once it is
filled, and when it changes, it shows a list that has come since. -/
theorem shows_last_reachable_list {o : Options} {target : Target} {discover : String → Opening σ}
    {nodeSet : NodeSet} {sinks : List Sink} {loop : Resolver σ} {t : Nat}
    {subset? : Option ShuffleSubset} (h : build o target discover nodeSet sinks = (.ok loop, t))
    (hnew : nodeSet.nodes = []) (hsubset : o.subset? = subset?.map ShuffleSubset.select)
    (hs more : List (Happening ω)) :
    let table := fun hs => (loop.after hs).nodeSet.nodes
    let shown := fun services =>
      (nodes (ofServices o.expectedScheme o.subset? services)).map nodeSet.rule.weigh
    ((∀ l ∈ loop.delivered hs, ¬ Reachable o.expectedScheme l) → table hs = []) ∧
      (∀ earlier l later, loop.delivered hs = earlier ++ l :: later →
        Reachable o.expectedScheme l → (∀ l' ∈ later, ¬ Reachable o.expectedScheme l') →
          table hs = shown l) ∧
      ((table hs).map WeightedNode.address).Nodup ∧ (∀ n ∈ table hs, 0 ≤ n.weight) ∧
      (table hs ≠ [] → table (hs ++ more) ≠ []) ∧
      ∃ since, loop.delivered (hs ++ more) = loop.delivered hs ++ since ∧
        (table (hs ++ more) = table hs ∨
          ∃ l ∈ since, Reachable o.expectedScheme l ∧ table (hs ++ more) = shown l) := by
  intro table shown
  obtain ⟨feed, -, hloop⟩ := eq_of_build h
  have hstart : loop.nodeSet.nodes = [] := by rw [hloop, hnew]
  have hchoice : loop.subset? = subset?.map ShuffleSubset.select := by rw [hloop, ← hsubset]
  have hshown : shown = loop.image := by rw [hloop]; rfl
  have hnil : ∀ l, loop.image l = [] ↔ ¬ Reachable o.expectedScheme l := by
    intro l
    rw [image_eq_nil_iff hchoice, hloop]
  have hcases := nodes_after_cases loop hs
  have hlater := nodes_after_cases (loop.after hs) more
  rw [(sameRules_after loop hs).image_eq, ← after_append] at hlater
  rw [hshown]
  refine ⟨?_, ?_, ?_, ?_, ?_, ?_⟩
  · intro hnone
    refine (nodes_after loop hs).trans ?_
    rw [hstart]
    exact foldl_renewed_of_forall (fun l hl => (hnil l).2 (hnone l hl)) []
  · intro earlier l later hsplit hl hnone
    refine (nodes_after loop hs).trans ?_
    rw [hsplit, List.foldl_append, List.foldl_cons, renewed,
      if_neg (by rwa [hnil, Classical.not_not])]
    exact foldl_renewed_of_forall (fun l' hl' => (hnil l').2 (hnone l' hl')) _
  · rcases hcases with htable | ⟨l, -, -, htable⟩
    · simp [table, htable, hstart]
    · simp only [table, htable]
      exact nodup_image hchoice l
  · rcases hcases with htable | ⟨l, -, -, htable⟩
    · simp [table, htable, hstart]
    · simp only [table, htable]
      exact fun n hn => weight_nonneg_of_mem_image hn
  · intro hfull
    rcases hlater with htable | ⟨l, -, hl, htable⟩
    · simpa only [table, htable] using hfull
    · simpa only [table, htable] using hl
  · refine ⟨_, delivered_append loop hs more, hlater.imp_right ?_⟩
    rintro ⟨l, hl, hne, htable⟩
    rw [Ne, hnil, Classical.not_not] at hne
    exact ⟨l, hl, hne, htable⟩

/-- Two instances at one address come, then one that speaks another protocol, and then an error. -/
def turnover : List (Happening Write) :=
  [.turn, .change (.set "order" [orderAt "2" "10.0.0.2", orderAt "3" "10.0.0.2"]), .turn,
    .change (.set "order" [{ orderAt "4" "10.0.0.4" with endpoint := "http://10.0.0.4:80" }]), .turn,
    .change (.inject "order" (.backend "leader changed")), .turn]

theorem shows_last_reachable_list_turnover :
    build ⟨.exact, 1000, 20, true, "grpc", none⟩ ⟨"discovery", "", "order"⟩
        ((Registry.ofServices [orderAt "1" "10.0.0.1"]).watch 0) default [] = (.ok orderLoop, 0) ∧
      orderLoop.delivered turnover = [[orderAt "1" "10.0.0.1"],
        [orderAt "2" "10.0.0.2", orderAt "3" "10.0.0.2"],
        [{ orderAt "4" "10.0.0.4" with endpoint := "http://10.0.0.4:80" }]] ∧
      (orderLoop.after turnover).nodeSet.nodes.map WeightedNode.address = ["10.0.0.2:9000"] := by
  have hlists : orderLoop.delivered turnover = [[orderAt "1" "10.0.0.1"]]
      ++ [orderAt "2" "10.0.0.2", orderAt "3" "10.0.0.2"]
      :: [[{ orderAt "4" "10.0.0.4" with endpoint := "http://10.0.0.4:80" }]] := rfl
  have hwhole : none = none.map ShuffleSubset.select := rfl
  have hshows := (shows_last_reachable_list build_orderLoop rfl hwhole turnover []).2.1
    _ _ _ hlists (by decide) (by decide)
  refine ⟨build_orderLoop, hlists, (congrArg (List.map WeightedNode.address) hshows).trans ?_⟩
  decide

end Steering.Resolver
