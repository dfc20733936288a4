/-!
# `Steering.Table` — a finite map

Credits, ring members, registry slots, cached channels and metadata are all finite maps that are
looked up, written, erased from and narrowed to a set of keys. A `Table` keeps its entries in the
order in which their keys were first written, and it carries the fact that no key occurs twice: the
two readings of a table, `get?` and the list of its keys, then describe each other (`mem_keys_iff`).

The operations are defined on lists of entries by recursion and only wrapped here; the lemma set
says what each of them does to `get?` and to `keys`, so that nothing downstream unfolds a table.
-/

namespace Steering

/-- A finite map from keys to values, in order of first writing. -/
structure Table (κ α : Type) where
  entries : List (κ × α)
  nodup : (entries.map Prod.fst).Nodup

namespace Table

variable {κ α : Type} [DecidableEq κ]

/-! ## Lists of entries -/

/-- The value of the first entry with a key. -/
def find (k : κ) : List (κ × α) → Option α
  | [] => none
  | e :: rest => if e.1 = k then some e.2 else find k rest

/-- Overwrites the first entry with a key, or appends one. -/
def write (k : κ) (v : α) : List (κ × α) → List (κ × α)
  | [] => [(k, v)]
  | e :: rest => if e.1 = k then (k, v) :: rest else e :: write k v rest

theorem keys_write (k : κ) (v : α) (l : List (κ × α)) :
    (write k v l).map Prod.fst
      = if k ∈ l.map Prod.fst then l.map Prod.fst else l.map Prod.fst ++ [k] := by
  induction l with
  | nil => simp [write]
  | cons e rest ih =>
    by_cases h : e.1 = k
    · simp [write, h]
    · have h' : ¬k = e.1 := fun hk => h hk.symm
      simp only [write, h, if_false, List.map_cons, ih, List.mem_cons, h', false_or]
      split <;> simp

theorem find_write (k j : κ) (v : α) (l : List (κ × α)) :
    find j (write k v l) = if k = j then some v else find j l := by
  induction l with
  | nil => simp [write, find]
  | cons e rest ih =>
    by_cases h : e.1 = k
    · subst h
      simp only [write, if_true, find]
      split <;> simp_all
    · simp only [write, h, if_false, find, ih]
      by_cases hj : e.1 = j
      · have : ¬k = j := fun hk => h (hj.trans hk.symm)
        simp [hj, this]
      · simp [hj]

theorem find_eq_none_iff (k : κ) (l : List (κ × α)) : find k l = none ↔ k ∉ l.map Prod.fst := by
  induction l with
  | nil => simp [find]
  | cons e rest ih =>
    by_cases h : e.1 = k
    · simp [find, h]
    · have h' : ¬k = e.1 := fun hk => h hk.symm
      simp [find, h, h', ih]

theorem write_of_notMem {k : κ} {l : List (κ × α)} (h : k ∉ l.map Prod.fst) (v : α) :
    write k v l = l ++ [(k, v)] := by
  induction l with
  | nil => rfl
  | cons e rest ih =>
    rw [List.map_cons, List.mem_cons, not_or] at h
    rw [write, if_neg (Ne.symm h.1), ih h.2]
    rfl

theorem find_eq_some_iff {k : κ} {v : α} {l : List (κ × α)} (h : (l.map Prod.fst).Nodup) :
    find k l = some v ↔ (k, v) ∈ l := by
  induction l with
  | nil => simp [find]
  | cons e rest ih =>
    obtain ⟨hhead, htail⟩ := List.nodup_cons.1 h
    by_cases hk : e.1 = k
    · rw [find, if_pos hk, List.mem_cons]
      constructor
      · intro hv
        exact Or.inl (Prod.ext hk.symm (Option.some.inj hv).symm)
      · rintro (rfl | hm)
        · rfl
        · exact absurd (hk ▸ List.mem_map_of_mem hm) hhead
    · rw [find, if_neg hk, ih htail, List.mem_cons]
      constructor
      · exact Or.inr
      · rintro (rfl | hm)
        · exact absurd rfl hk
        · exact hm

theorem find_filter (p : κ → Bool) (k : κ) (l : List (κ × α)) :
    find k (l.filter fun e => p e.1) = if p k then find k l else none := by
  induction l with
  | nil => simp [find]
  | cons e rest ih =>
    by_cases hp : p e.1 = true
    · by_cases h : e.1 = k
      · subst h; simp [find, hp]
      · simp [hp, find, h, ih]
    · by_cases h : e.1 = k
      · subst h; simp [hp, ih]
      · simp [hp, find, h, ih]

/-! ## Tables -/

def empty : Table κ α := ⟨[], List.nodup_nil⟩

instance : Inhabited (Table κ α) := ⟨empty⟩

/-- The keys, in order of first writing. -/
def keys (t : Table κ α) : List κ := t.entries.map Prod.fst

def size (t : Table κ α) : Nat := t.entries.length

def get? (t : Table κ α) (k : κ) : Option α := find k t.entries

def contains (t : Table κ α) (k : κ) : Bool := (t.get? k).isSome

/-- Gives a key a value; a key that had one keeps its place. -/
def insert (t : Table κ α) (k : κ) (v : α) : Table κ α where
  entries := write k v t.entries
  nodup := by
    rw [keys_write]
    split
    · exact t.nodup
    · rename_i h
      rw [List.nodup_append]
      exact ⟨t.nodup, by simp, fun a ha b hb => by
        rw [List.mem_singleton] at hb
        exact fun hab => h (hb ▸ hab ▸ ha)⟩

/-- Keeps the entries whose key satisfies a test. -/
def narrow (t : Table κ α) (p : κ → Bool) : Table κ α where
  entries := t.entries.filter fun e => p e.1
  nodup := t.nodup.sublist (List.Sublist.map _ List.filter_sublist)

def erase (t : Table κ α) (k : κ) : Table κ α := t.narrow (· ≠ k)

/-- Writes a list of entries, from the first to the last. -/
def insertAll (t : Table κ α) (l : List (κ × α)) : Table κ α :=
  l.foldl (fun t e => t.insert e.1 e.2) t

/-- The table of a list of entries; of equal keys the last one counts. -/
def ofList (l : List (κ × α)) : Table κ α := empty.insertAll l

@[simp] theorem get?_empty (k : κ) : (empty : Table κ α).get? k = none := rfl

omit [DecidableEq κ] in
@[simp] theorem keys_empty : (empty : Table κ α).keys = [] := rfl

@[simp] theorem get?_insert (t : Table κ α) (k j : κ) (v : α) :
    (t.insert k v).get? j = if k = j then some v else t.get? j := find_write k j v t.entries

@[simp] theorem keys_insert (t : Table κ α) (k : κ) (v : α) :
    (t.insert k v).keys = if k ∈ t.keys then t.keys else t.keys ++ [k] := keys_write k v t.entries

@[simp] theorem get?_narrow (t : Table κ α) (p : κ → Bool) (k : κ) :
    (t.narrow p).get? k = if p k then t.get? k else none := find_filter p k t.entries

omit [DecidableEq κ] in
@[simp] theorem keys_narrow (t : Table κ α) (p : κ → Bool) :
    (t.narrow p).keys = t.keys.filter p := by
  simp only [keys, narrow, List.filter_map]
  rfl

@[simp] theorem get?_erase (t : Table κ α) (k j : κ) :
    (t.erase k).get? j = if j = k then none else t.get? j := by
  simp only [erase, get?_narrow]
  by_cases h : j = k <;> simp [h]

@[simp] theorem keys_erase (t : Table κ α) (k : κ) : (t.erase k).keys = t.keys.filter (· ≠ k) :=
  keys_narrow t _

theorem get?_eq_some_iff {t : Table κ α} {k : κ} {v : α} :
    t.get? k = some v ↔ (k, v) ∈ t.entries := find_eq_some_iff t.nodup

theorem entries_insert_of_notMem {t : Table κ α} {k : κ} (h : k ∉ t.keys) (v : α) :
    (t.insert k v).entries = t.entries ++ [(k, v)] := write_of_notMem h v

theorem mem_keys_iff (t : Table κ α) (k : κ) : k ∈ t.keys ↔ t.contains k = true := by
  have h := find_eq_none_iff k t.entries
  rw [contains, get?, keys]
  cases hf : find k t.entries with
  | none => simpa [hf] using h
  | some v => simpa [hf] using h

omit [DecidableEq κ] in
theorem nodup_keys (t : Table κ α) : t.keys.Nodup := t.nodup

omit [DecidableEq κ] in
theorem size_eq_length_keys (t : Table κ α) : t.size = t.keys.length := by simp [size, keys]

end Table

end Steering
