import Mathlib
import Steering.Table

/-!
# `Steering.Proofs.Tables` — the table of a list

`Table.ofList` writes a list of entries from the first to the last, so a key keeps the place of its
first entry and has the value of its last one. The two halves of that sentence are `keys_ofList` and
`get?_ofList`; together with `entries_eq_filterMap`, which says that a table *is* its keys and its
readings, they determine the entries outright. Both are inductions from the end of the list, since the
last entry is the one that is written to a table that is already known.
-/

namespace Steering.Table

variable {κ α : Type} [DecidableEq κ]

theorem entries_eq_filterMap (t : Table κ α) :
    t.entries = t.keys.filterMap fun k => (t.get? k).map fun v => (k, v) := by
  rw [keys, List.filterMap_map]
  refine (List.filterMap_some (l := t.entries)).symm.trans (List.filterMap_congr fun e he => ?_)
  rw [Function.comp_apply, get?_eq_some_iff.2 he]
  rfl

theorem insertAll_concat (t : Table κ α) (l : List (κ × α)) (e : κ × α) :
    t.insertAll (l ++ [e]) = (t.insertAll l).insert e.1 e.2 := by
  rw [insertAll, List.foldl_append]
  rfl

theorem keys_ofList (l : List (κ × α)) : (ofList l).keys = (l.map Prod.fst).eraseDups := by
  induction l using List.reverseRecOn with
  | nil => rfl
  | append_singleton l e ih =>
    rw [ofList] at ih ⊢
    rw [insertAll_concat, keys_insert, ih, List.map_append, List.eraseDups_append]
    by_cases he : e.1 ∈ l.map Prod.fst
    · rw [if_pos (List.mem_eraseDups.2 he), List.map_singleton, List.removeAll,
        List.filter_cons_of_neg (by simpa using he)]
      simp
    · rw [if_neg fun h => he (List.mem_eraseDups.1 h), List.map_singleton, List.removeAll,
        List.filter_cons_of_pos (by simpa using he)]
      rfl

theorem get?_ofList (l : List (κ × α)) (k : κ) :
    (ofList l).get? k = (l.reverse.find? fun e => e.1 = k).map Prod.snd := by
  induction l using List.reverseRecOn with
  | nil => rfl
  | append_singleton l e ih =>
    rw [ofList] at ih ⊢
    rw [insertAll_concat, get?_insert, ih, List.reverse_append, List.reverse_singleton,
      List.singleton_append, List.find?_cons]
    by_cases he : e.1 = k <;> simp [he]

end Steering.Table
