import Mathlib
import Steering.Proofs.Resolver.Look

/-!
# `Steering.Proofs.Registry.Order` — a list is the story of its records

A registry keeps no account of what has been done to it: a record that is registered goes over the first
one with its id or behind the last one, and a record that is removed is filtered out. All the same, the
list of a name can be told from the calls about that name alone. What matters of them is, for each id,
the last one and the one with which the id came: the last says whether the record is there and which one
it is (`Tells.mem_iff`), and the records stand in the order in which their ids came (`Tells.inOrder`).

A list that is set as a whole takes the place of all that was before. From then on it is the same story,
in which the given records have come one after the other, provided no two of them have the same id.
-/

namespace Steering

/-! ## Notices -/

/-- What is told about a record of a name: it is registered, or it is removed. -/
inductive Notice where
  | come (s : Service)
  | go (id : String)

namespace Notice

/-- The id that a notice is about. -/
def about : Notice → String
  | come s => s.id
  | go id => id

@[simp] theorem about_come (s : Service) : (come s).about = s.id := rfl

@[simp] theorem about_go (id : String) : (go id).about = id := rfl

/-- The last notice about an id. -/
def last? (id : String) (ns : List Notice) : Option Notice := ns.reverse.find? fun n => n.about = id

/-- The last that is told about an id is that it is registered. -/
def Present (ns : List Notice) (id : String) : Prop := ∃ s, last? id ns = some (.come s)

/-- The id has come with a notice: it was absent before it, and has not been since. -/
def CameWith (ns : List Notice) (id : String) (k : Nat) : Prop :=
  k < ns.length ∧ ¬ Present (ns.take k) id ∧ ∀ j, k < j → j ≤ ns.length → Present (ns.take j) id

/-- One id has come before another. -/
def Earlier (ns : List Notice) (id id' : String) : Prop :=
  ∃ j k, CameWith ns id j ∧ CameWith ns id' k ∧ j < k

variable {ns : List Notice} {n : Notice} {id id' : String}

@[simp] theorem last?_concat (id : String) (ns : List Notice) (n : Notice) :
    last? id (ns ++ [n]) = if n.about = id then some n else last? id ns := by
  rw [last?, List.reverse_append, List.reverse_singleton, List.singleton_append, List.find?_cons]
  by_cases h : n.about = id <;> simp [h, last?]

theorem about_of_last? (h : last? id ns = some n) : n.about = id := by
  simpa using List.find?_some h

theorem present_concat_come (s : Service) : Present (ns ++ [.come s]) s.id :=
  ⟨s, by simp⟩

theorem present_concat_of_ne (h : n.about ≠ id) : Present (ns ++ [n]) id ↔ Present ns id := by
  rw [Present, last?_concat, if_neg h, Present]

/-- An id that is still there after one more notice has come when it had come before. -/
theorem CameWith.concat {k : Nat} (h : CameWith ns id k) (hstill : Present (ns ++ [n]) id) :
    CameWith (ns ++ [n]) id k := by
  obtain ⟨hk, habsent, hsince⟩ := h
  refine ⟨by simp; omega, ?_, fun j hj hle => ?_⟩
  · rwa [List.take_append_of_le_length hk.le]
  · by_cases hlast : j = (ns ++ [n]).length
    · rwa [hlast, List.take_length]
    · simp only [List.length_append, List.length_singleton] at hle hlast
      rw [List.take_append_of_le_length (by omega)]
      exact hsince j hj (by omega)

theorem cameWith_last (habsent : ¬ Present ns id) (hnow : Present (ns ++ [n]) id) :
    CameWith (ns ++ [n]) id ns.length := by
  refine ⟨by simp, by simpa using habsent, fun j hj hle => ?_⟩
  obtain rfl : j = (ns ++ [n]).length := by
    simp only [List.length_append, List.length_singleton] at hle ⊢
    omega
  rwa [List.take_length]

/-- Whoever is there has come at some time. -/
theorem exists_cameWith (h : Present ns id) : ∃ k, CameWith ns id k := by
  induction ns using List.reverseRecOn with
  | nil =>
    obtain ⟨s, hs⟩ := h
    cases hs
  | append_singleton ns n ih =>
    by_cases hbefore : Present ns id
    · obtain ⟨k, hk⟩ := ih hbefore
      exact ⟨k, hk.concat h⟩
    · exact ⟨ns.length, cameWith_last hbefore h⟩

theorem Earlier.concat (h : Earlier ns id id') (hid : Present (ns ++ [n]) id)
    (hid' : Present (ns ++ [n]) id') : Earlier (ns ++ [n]) id id' := by
  obtain ⟨j, k, hj, hk, hlt⟩ := h
  exact ⟨j, k, hj.concat hid, hk.concat hid', hlt⟩

/-- Whoever comes now has come after all who are there. -/
theorem earlier_last (hthere : Present ns id) (hstill : Present (ns ++ [n]) id)
    (habsent : ¬ Present ns id') (hnow : Present (ns ++ [n]) id') : Earlier (ns ++ [n]) id id' := by
  obtain ⟨k, hk⟩ := exists_cameWith hthere
  exact ⟨k, ns.length, hk.concat hstill, cameWith_last habsent hnow, hk.1⟩

end Notice

/-! ## Lists of records -/

namespace Slot

theorem ids_put (s : Service) (l : List Service) : (put s l).map Service.id
    = if s.id ∈ l.map Service.id then l.map Service.id else l.map Service.id ++ [s.id] := by
  induction l with
  | nil => rfl
  | cons t rest ih =>
    by_cases h : t.id = s.id
    · simp [put, h]
    · have h' : ¬s.id = t.id := fun hs => h hs.symm
      simp only [put, h, if_false, List.map_cons, ih, List.mem_cons, h', false_or]
      split <;> simp

/-- A record that is put in takes the place of the one with its id, if no two have the same. -/
theorem mem_put {s u : Service} {l : List Service} (h : (l.map Service.id).Nodup) :
    u ∈ put s l ↔ u = s ∨ u ∈ l ∧ u.id ≠ s.id := by
  induction l with
  | nil => simp [put]
  | cons t rest ih =>
    obtain ⟨hnew, hrest⟩ := List.nodup_cons.1 h
    by_cases ht : t.id = s.id
    · have hothers : ∀ v ∈ rest, v.id ≠ s.id := fun v hv heq =>
        hnew (List.mem_map.2 ⟨v, hv, heq.trans ht.symm⟩)
      rw [put, if_pos ht, List.mem_cons, List.mem_cons]
      constructor
      · exact Or.imp_right fun hu => ⟨Or.inr hu, hothers u hu⟩
      · rintro (rfl | ⟨rfl | hu, hne⟩)
        · exact Or.inl rfl
        · exact absurd ht hne
        · exact Or.inr hu
    · rw [put, if_neg ht, List.mem_cons, List.mem_cons, ih hrest]
      constructor
      · rintro (rfl | rfl | ⟨hu, hne⟩)
        · exact Or.inr ⟨Or.inl rfl, ht⟩
        · exact Or.inl rfl
        · exact Or.inr ⟨Or.inr hu, hne⟩
      · rintro (rfl | ⟨rfl | hu, hne⟩)
        · exact Or.inr (Or.inl rfl)
        · exact Or.inl rfl
        · exact Or.inr (Or.inr ⟨hu, hne⟩)

theorem put_of_notMem {s : Service} {l : List Service} (h : s.id ∉ l.map Service.id) :
    put s l = l ++ [s] := by
  induction l with
  | nil => rfl
  | cons t rest ih =>
    rw [List.map_cons, List.mem_cons, not_or] at h
    rw [put, if_neg (Ne.symm h.1), ih h.2, List.cons_append]

end Slot

open Notice

/-- A list of records is what some notices tell. -/
structure Tells (ns : List Notice) (l : List Service) : Prop where
  nodup : (l.map Service.id).Nodup
  /-- A record is there exactly if it is the last that is told about its id. -/
  mem_iff : ∀ s, s ∈ l ↔ last? s.id ns = some (.come s)
  /-- The records stand in the order in which their ids have come. -/
  inOrder : (l.map Service.id).Pairwise (Earlier ns)

namespace Tells

variable {ns : List Notice} {l : List Service}

theorem present_iff (h : Tells ns l) {id : String} : Present ns id ↔ id ∈ l.map Service.id := by
  rw [List.mem_map]
  constructor
  · rintro ⟨s, hs⟩
    obtain rfl : s.id = id := about_of_last? hs
    exact ⟨s, (h.mem_iff s).2 hs, rfl⟩
  · rintro ⟨s, hs, rfl⟩
    exact ⟨s, (h.mem_iff s).1 hs⟩

theorem nil : Tells [] [] where
  nodup := List.nodup_nil
  mem_iff s := by simp [last?]
  inOrder := List.Pairwise.nil

/-- **A record is registered.** -/
theorem come (h : Tells ns l) (s : Service) : Tells (ns ++ [.come s]) (Slot.put s l) := by
  have hstill : ∀ id ∈ l.map Service.id, Present (ns ++ [.come s]) id := by
    intro id hid
    by_cases heq : s.id = id
    · rw [← heq]
      exact present_concat_come s
    · exact (present_concat_of_ne (n := .come s) heq).2 (h.present_iff.2 hid)
  have hold : (l.map Service.id).Pairwise (Earlier (ns ++ [.come s])) :=
    h.inOrder.imp_of_mem fun hid hid' he => he.concat (hstill _ hid) (hstill _ hid')
  refine ⟨?_, fun u => ?_, ?_⟩
  · rw [Slot.ids_put]
    split
    · exact h.nodup
    · rename_i hnew
      rw [List.nodup_append]
      refine ⟨h.nodup, List.nodup_singleton _, fun a ha b hb hab => hnew ?_⟩
      rwa [← List.mem_singleton.1 hb, ← hab]
  · rw [Slot.mem_put h.nodup, h.mem_iff, last?_concat]
    by_cases hu : s.id = u.id
    · simp [hu, eq_comm]
    · have hne : u ≠ s := fun heq => hu (congrArg Service.id heq).symm
      simp [hu, hne, Ne.symm hu]
  · rw [Slot.ids_put]
    split
    · exact hold
    · rename_i hnew
      rw [List.pairwise_append]
      refine ⟨hold, List.pairwise_singleton _ _, fun id hid id' hid' => ?_⟩
      obtain rfl := List.mem_singleton.1 hid'
      exact earlier_last (h.present_iff.2 hid) (hstill id hid) (fun hp => hnew (h.present_iff.1 hp))
        (present_concat_come s)

/-- **A record is removed.** -/
theorem go (h : Tells ns l) (id : String) :
    Tells (ns ++ [.go id]) (l.filter fun s => s.id ≠ id) := by
  have hsub := (List.filter_sublist (l := l) (p := fun s => s.id ≠ id)).map Service.id
  refine ⟨h.nodup.sublist hsub, fun s => ?_, ?_⟩
  · rw [List.mem_filter, h.mem_iff, last?_concat]
    by_cases hs : id = s.id
    · simp [hs]
    · simp [hs, Ne.symm hs]
  · refine (h.inOrder.sublist hsub).imp_of_mem fun hj hk he => ?_
    have hstill : ∀ id' ∈ (l.filter fun s => s.id ≠ id).map Service.id,
        Present (ns ++ [.go id]) id' := by
      intro id' hid'
      obtain ⟨s, hs, rfl⟩ := List.mem_map.1 hid'
      obtain ⟨hmem, hne⟩ := List.mem_filter.1 hs
      refine (present_concat_of_ne (n := .go id) fun heq => of_decide_eq_true hne heq.symm).2 ?_
      exact h.present_iff.2 (List.mem_map_of_mem hmem)
    exact he.concat (hstill _ hj) (hstill _ hk)

/-- A list without two records of the same id is told by its records in their order. -/
theorem given {l : List Service} (h : (l.map Service.id).Nodup) : Tells (l.map .come) l := by
  induction l using List.reverseRecOn with
  | nil => exact nil
  | append_singleton l s ih =>
    rw [List.map_append, List.nodup_append] at h
    obtain ⟨hl, -, hnew⟩ := h
    have hnotMem : s.id ∉ l.map Service.id := fun hmem => hnew _ hmem s.id (by simp) rfl
    have hcome := (ih hl).come s
    rw [Slot.put_of_notMem hnotMem] at hcome
    rwa [List.map_append]

end Tells

/-! ## Calls -/

namespace Write

/-- The notices about a name after a write. A list that is set counts as if its records had come one
after the other, with nothing before them. -/
def noticed (name : String) (ns : List Notice) : Write → List Notice
  | register s => if s.name = name then ns ++ [.come s] else ns
  | deregister other id => if other = name then ns ++ [.go id] else ns
  | set other services => if other = name then services.map .come else ns
  | inject _ _ => ns

/-- The list that a write sets for a name. -/
def set? (name : String) : Write → Option (List Service)
  | set other services => if other = name then some services else none
  | _ => none

theorem noticed_of_ne {w : Write} {name : String} (h : w.name ≠ name) (ns : List Notice) :
    w.noticed name ns = ns := by
  cases w with
  | register s => exact if_neg h
  | deregister other id => exact if_neg h
  | set other services => exact if_neg h
  | inject other e => rfl

end Write

namespace Registry

/-- A registry after some calls. -/
def after (r : Registry) (calls : List Write) : Registry := calls.foldl (fun r w => w.apply r) r

/-- The notices about a name that some calls amount to. -/
def notices (name : String) (calls : List Write) : List Notice := calls.foldl (Write.noticed name) []

/-- The list that some calls have set last for a name. -/
def lastSet? (name : String) (calls : List Write) : Option (List Service) :=
  calls.reverse.findSome? (Write.set? name)

theorem after_concat (r : Registry) (calls : List Write) (w : Write) :
    r.after (calls ++ [w]) = w.apply (r.after calls) := by
  rw [after, List.foldl_append]
  rfl

theorem notices_concat (name : String) (calls : List Write) (w : Write) :
    notices name (calls ++ [w]) = w.noticed name (notices name calls) := by
  rw [notices, List.foldl_append]
  rfl

theorem lastSet?_concat (name : String) (calls : List Write) (w : Write) :
    lastSet? name (calls ++ [w]) = (w.set? name).or (lastSet? name calls) := by
  rw [lastSet?, List.reverse_append, List.reverse_singleton, List.singleton_append,
    List.findSome?_cons]
  cases w.set? name <;> rfl

/-- One more call: if it does not set the list, the story goes on, and else it begins anew. -/
theorem tells_apply {name : String} {ns : List Notice} {r : Registry} (w : Write)
    (h : w.set? name = none → Tells ns (r.services name))
    (hset : ∀ given, w.set? name = some given → (given.map Service.id).Nodup) :
    Tells (w.noticed name ns) ((w.apply r).services name) := by
  by_cases hname : w.name = name
  · subst hname
    rw [w.services_apply]
    cases w with
    | register s =>
      rw [Write.noticed, if_pos (by rfl)]
      exact (h rfl).come s
    | deregister other id =>
      rw [Write.noticed, if_pos (by rfl)]
      exact (h rfl).go id
    | set other given =>
      rw [Write.noticed, if_pos (by rfl)]
      exact Tells.given (hset given (if_pos rfl))
    | inject other e => exact h rfl
  · rw [Write.services_apply_of_ne hname, Write.noticed_of_ne hname]
    refine h ?_
    cases w with
    | set other given => exact if_neg hname
    | _ => rfl

theorem tells_after {name : String} {calls : List Write}
    (h : ∀ given, lastSet? name calls = some given → (given.map Service.id).Nodup) :
    Tells (notices name calls) ((after {} calls).services name) := by
  induction calls using List.reverseRecOn with
  | nil => exact Tells.nil
  | append_singleton calls w ih =>
    rw [after_concat, notices_concat]
    simp only [lastSet?_concat] at h
    refine tells_apply w (fun hnone => ih fun given hgiven => h given ?_) fun given hgiven => h given ?_
    · rw [hnone, hgiven]
      rfl
    · rw [hgiven]
      rfl

/-- **A registry is an ordered map for each name.** After any calls the list of a name is what the calls
about that name tell, since its list was last set as a whole: no two records have the same id, an id is
there exactly if the last call about it has registered a record, which is then the one that is there, and
the records stand in the order in which their ids have come. Only the list that was set last must be
without two records of one id, and if none was ever set, nothing is asked. No call about one name changes
the list of another, and a list that is set is there as it was given. -/
theorem ordered_map_per_name :
    (∀ (calls : List Write) (name : String),
      (∀ given, lastSet? name calls = some given → (given.map Service.id).Nodup) →
      let l := (after {} calls).services name
      Tells (notices name calls) l ∧
        ∀ id, id ∈ l.map Service.id ↔ Present (notices name calls) id) ∧
    (∀ (w : Write) (r : Registry) (name : String), w.name ≠ name →
      (w.apply r).services name = r.services name) ∧
    ∀ (r : Registry) (name : String) (given : List Service),
      (r.set name given).services name = given :=
  ⟨fun _ _ h => ⟨tells_after h, fun _ => (tells_after h).present_iff.symm⟩,
    fun _ r _ h => Write.services_apply_of_ne h r,
    fun r name given => (Write.set name given).services_apply r⟩

/-- An instance of a service named `order` with a version. -/
def orderOf (id version : String) : Service :=
  { id, name := "order", version, endpoint := "grpc://10.0.0.1:9000" }

/-- The list of `order` is set, first with two records of one id and then without; then one record is
registered again, one leaves and comes back, and there is an instance of another service. -/
def comingsAndGoings : List Write :=
  [.set "order" [orderOf "1" "v1", orderOf "1" "v2"],
    .set "order" [orderOf "1" "v1", orderOf "2" "v1", orderOf "3" "v1"],
    .register (orderOf "2" "v2"), .deregister "order" "1", .register { orderOf "9" "v1" with name := "pay" },
    .register (orderOf "1" "v3")]

theorem ordered_map_per_name_comings_and_goings :
    (∀ given, lastSet? "order" comingsAndGoings = some given → (given.map Service.id).Nodup) ∧
      (after {} comingsAndGoings).services "order"
        = [orderOf "2" "v2", orderOf "3" "v1", orderOf "1" "v3"] ∧
      last? "1" (notices "order" comingsAndGoings) = some (.come (orderOf "1" "v3")) ∧
      Earlier (notices "order" comingsAndGoings) "3" "1" := by
  have hset : ∀ given, lastSet? "order" comingsAndGoings = some given →
      (given.map Service.id).Nodup := by
    intro given hgiven
    obtain rfl : [orderOf "1" "v1", orderOf "2" "v1", orderOf "3" "v1"] = given :=
      Option.some.inj hgiven
    decide
  have hlist : (after {} comingsAndGoings).services "order"
      = [orderOf "2" "v2", orderOf "3" "v1", orderOf "1" "v3"] := rfl
  obtain ⟨htells, -⟩ := ordered_map_per_name.1 comingsAndGoings "order" hset
  rw [hlist] at htells
  refine ⟨hset, hlist, (htells.mem_iff (orderOf "1" "v3")).1 (by simp), ?_⟩
  exact (List.pairwise_cons.1 (List.pairwise_cons.1 htells.inOrder).2).1 "1" (by simp [orderOf])

end Registry

end Steering
