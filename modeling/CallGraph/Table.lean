/-!
# Finite tables in insertion order

A table maps each key it holds to one value and remembers the order in which the keys first
came.  Writing under a key that is already there replaces the value where it stands, so the
number of entries is the number of distinct keys ever written and not erased.

The insertion order stands for one of the orders in which a hash map may list its entries.  Such a
map promises none, and may list the same entries differently each time, so what is to hold of it has
to hold of every permutation of the entries; the relation `Graph.Reorders` says that two graphs
differ in nothing else.

Main results:

- Theorem `lookup_insert` says what every key answers after a write.
- Theorem `keys_insert` says that a write appends a new key and leaves the order of the old ones.
- Theorem `lookup_erase` says what every key answers after an erasure.
- Theorems `mem_keys_insert` and `mem_keys_erase` say which keys there are after both.
- Theorem `lookup_eq_none_iff` ties looking up to the list of keys.
-/

namespace CallGraph

variable {κ α : Type} [DecidableEq κ]

namespace Table

/-! ## Writing and erasing in a list of entries -/

/-- Write `v` under `k`: in place if `k` is there, at the end otherwise. -/
def put (k : κ) (v : α) : List (κ × α) → List (κ × α)
  | [] => [(k, v)]
  | e :: rest => if e.1 = k then (k, v) :: rest else e :: put k v rest

/-- The first value stored under `k`. -/
def find (k : κ) : List (κ × α) → Option α
  | [] => none
  | e :: rest => if e.1 = k then some e.2 else find k rest

/-- Writing keeps the keys if `k` is among them and appends it otherwise. -/
theorem map_fst_put (k : κ) (v : α) (entries : List (κ × α)) :
    (put k v entries).map Prod.fst =
      if k ∈ entries.map Prod.fst then entries.map Prod.fst else entries.map Prod.fst ++ [k] := by
  induction entries with
  | nil => simp [put]
  | cons e rest ih =>
    by_cases h : e.1 = k
    · simp [put, h]
    · have h' : ¬ k = e.1 := fun he => h he.symm
      simp only [put, h, if_false, List.map_cons, ih, List.mem_cons, h', false_or]
      split <;> simp

/-- Writing keeps the keys distinct. -/
theorem nodup_put {k : κ} {v : α} {entries : List (κ × α)}
    (h : (entries.map Prod.fst).Nodup) : ((put k v entries).map Prod.fst).Nodup := by
  rw [map_fst_put]
  split
  · exact h
  · next hk =>
    rw [List.nodup_append]
    refine ⟨h, by simp, ?_⟩
    intro a ha b hb hab
    rw [List.mem_singleton] at hb
    exact hk (hb ▸ hab ▸ ha)

/-- After a write, `k` answers the new value and every other key what it answered before. -/
theorem find_put (k k' : κ) (v : α) (entries : List (κ × α)) :
    find k' (put k v entries) = if k = k' then some v else find k' entries := by
  induction entries with
  | nil => simp [put, find]
  | cons e rest ih =>
    by_cases h : e.1 = k
    · by_cases hk : k = k' <;> simp [put, find, h, hk]
    · simp only [put, h, if_false, find, ih]
      by_cases he : e.1 = k'
      · have hk : ¬ k = k' := fun hc => h (he.trans hc.symm)
        simp [he, hk]
      · simp [he]

/-- A key answers nothing exactly when it is not among the keys. -/
theorem find_eq_none_iff (k : κ) (entries : List (κ × α)) :
    find k entries = none ↔ k ∉ entries.map Prod.fst := by
  induction entries with
  | nil => simp [find]
  | cons e rest ih =>
    by_cases h : e.1 = k
    · simp [find, h]
    · have h' : ¬ k = e.1 := fun he => h he.symm
      simp [find, h, h', ih]

/-- An entry of a list with distinct keys is what its key answers. -/
theorem find_eq_some_iff {k : κ} {v : α} {entries : List (κ × α)}
    (h : (entries.map Prod.fst).Nodup) : find k entries = some v ↔ (k, v) ∈ entries := by
  induction entries with
  | nil => simp [find]
  | cons e rest ih =>
    rw [List.map_cons, List.nodup_cons] at h
    by_cases he : e.1 = k
    · have hnot : (k, v) ∉ rest := fun hm =>
        h.1 (he ▸ List.mem_map.2 ⟨(k, v), hm, rfl⟩)
      simp only [find, he, if_true, Option.some.injEq, List.mem_cons, hnot, or_false]
      exact ⟨fun hv => by rw [← he, ← hv], fun hv => by rw [← hv]⟩
    · have hne : (k, v) ≠ e := fun hv => he (by rw [← hv])
      simp [find, he, ih h.2, hne]

/-- Dropping every entry under `k` leaves the answers of the other keys. -/
theorem find_filter_ne (k k' : κ) (entries : List (κ × α)) :
    find k' (entries.filter fun e => !decide (e.1 = k)) =
      if k = k' then none else find k' entries := by
  induction entries with
  | nil => simp [find]
  | cons e rest ih =>
    by_cases h : e.1 = k
    · simp only [List.filter_cons, h, decide_true, Bool.not_true, Bool.false_eq_true, if_false,
        ih, find]
      split <;> rfl
    · simp only [List.filter_cons, h, decide_false, Bool.not_false, if_true, find, ih]
      by_cases he : e.1 = k'
      · have hk : ¬ k = k' := fun hc => h (he.trans hc.symm)
        simp [he, hk]
      · simp [he]

section Renaming

variable {κ' β : Type} [DecidableEq κ'] {f : κ → κ'} (hf : Function.Injective f) (g : α → β)

include hf

/-- Writing does not depend on the names of keys and values. -/
theorem put_map (k : κ) (v : α) (entries : List (κ × α)) :
    put (f k) (g v) (entries.map (Prod.map f g)) = (put k v entries).map (Prod.map f g) := by
  induction entries with
  | nil => rfl
  | cons e rest ih =>
    by_cases h : e.1 = k
    · simp [put, h]
    · have h' : f e.1 ≠ f k := fun heq => h (hf heq)
      simp [put, h, h', ih]

/-- Looking up does not depend on the names of keys and values. -/
theorem find_map (k : κ) (entries : List (κ × α)) :
    find (f k) (entries.map (Prod.map f g)) = (find k entries).map g := by
  induction entries with
  | nil => rfl
  | cons e rest ih =>
    by_cases h : e.1 = k
    · simp [find, h]
    · have h' : f e.1 ≠ f k := fun heq => h (hf heq)
      simp [find, h, h', ih]

end Renaming

end Table

/-- A finite map that remembers the order in which its keys first came. -/
structure Table (κ α : Type) [DecidableEq κ] where
  /-- The entries, oldest key first. -/
  entries : List (κ × α)
  /-- No key has two entries. -/
  nodup : (entries.map Prod.fst).Nodup

namespace Table

/-! ## Operations -/

/-- The table without entries. -/
def empty : Table κ α := ⟨[], List.Pairwise.nil⟩

instance : Inhabited (Table κ α) := ⟨empty⟩

/-- Two tables with the same entries in the same order are one table. -/
@[ext] theorem ext {s t : Table κ α} (h : s.entries = t.entries) : s = t := by
  cases s; cases t; simp_all

instance [DecidableEq α] : DecidableEq (Table κ α) := fun s t =>
  decidable_of_iff (s.entries = t.entries) ⟨ext, fun h => h ▸ rfl⟩

/-- The value stored under a key. -/
def lookup (t : Table κ α) (k : κ) : Option α := find k t.entries

/-- Whether a key has a value. -/
def contains (t : Table κ α) (k : κ) : Bool := (t.lookup k).isSome

/-- Store a value under a key, replacing the one that is there. -/
def insert (t : Table κ α) (k : κ) (v : α) : Table κ α :=
  ⟨put k v t.entries, nodup_put t.nodup⟩

/-- Forget a key. -/
def erase (t : Table κ α) (k : κ) : Table κ α :=
  ⟨t.entries.filter fun e => !decide (e.1 = k),
    List.Nodup.sublist (List.Sublist.map _ (List.filter_sublist)) t.nodup⟩

/-- Change the value under a key, taking `start` for one that is not there. -/
def alter (t : Table κ α) (k : κ) (start : α) (f : α → α) : Table κ α :=
  t.insert k (f ((t.lookup k).getD start))

/-- The keys, oldest first. -/
def keys (t : Table κ α) : List κ := t.entries.map Prod.fst

/-- The values, in the order of their keys. -/
def values (t : Table κ α) : List α := t.entries.map Prod.snd

/-- The number of entries. -/
def size (t : Table κ α) : Nat := t.entries.length

/-- Whether there is no entry. -/
def isEmpty (t : Table κ α) : Bool := t.entries.isEmpty

/-- The table of a list of pairs; of several pairs with one key the last counts. -/
def ofList (pairs : List (κ × α)) : Table κ α :=
  pairs.foldl (fun t p => t.insert p.1 p.2) empty

/-! ## What the operations do to look-ups and keys -/

@[simp] theorem lookup_empty (k : κ) : (empty : Table κ α).lookup k = none := rfl

@[simp] theorem keys_empty : (empty : Table κ α).keys = [] := rfl

@[simp] theorem size_empty : (empty : Table κ α).size = 0 := rfl

/-- After a write a key answers what was written, and every other key what it answered before. -/
theorem lookup_insert (t : Table κ α) (k k' : κ) (v : α) :
    (t.insert k v).lookup k' = if k = k' then some v else t.lookup k' :=
  find_put k k' v t.entries

@[simp] theorem lookup_insert_self (t : Table κ α) (k : κ) (v : α) :
    (t.insert k v).lookup k = some v := by simp [lookup_insert]

/-- After an erasure a key answers nothing, and every other key what it answered before. -/
theorem lookup_erase (t : Table κ α) (k k' : κ) :
    (t.erase k).lookup k' = if k = k' then none else t.lookup k' :=
  find_filter_ne k k' t.entries

/-- A write appends a new key and leaves the order of the old ones. -/
theorem keys_insert (t : Table κ α) (k : κ) (v : α) :
    (t.insert k v).keys = if k ∈ t.keys then t.keys else t.keys ++ [k] :=
  map_fst_put k v t.entries

/-- A key answers nothing exactly if it is not among the keys. -/
theorem lookup_eq_none_iff (t : Table κ α) (k : κ) : t.lookup k = none ↔ k ∉ t.keys :=
  find_eq_none_iff k t.entries

/-- A key answers a value exactly if both are an entry. -/
theorem lookup_eq_some_iff (t : Table κ α) (k : κ) (v : α) :
    t.lookup k = some v ↔ (k, v) ∈ t.entries :=
  find_eq_some_iff t.nodup

/-- After a write the keys are those before and the one that was written. -/
theorem mem_keys_insert {t : Table κ α} {k k' : κ} {v : α} :
    k' ∈ (t.insert k v).keys ↔ k' = k ∨ k' ∈ t.keys := by
  rw [keys_insert]
  by_cases hk : k ∈ t.keys
  · rw [if_pos hk]
    exact ⟨Or.inr, fun h => h.elim (fun heq => heq ▸ hk) id⟩
  · rw [if_neg hk, List.mem_append, List.mem_singleton]
    exact or_comm

/-- After an erasure the keys are those before without the one that was erased. -/
theorem mem_keys_erase {t : Table κ α} {k k' : κ} :
    k' ∈ (t.erase k).keys ↔ k' ≠ k ∧ k' ∈ t.keys := by
  simp only [keys, erase, List.mem_map, List.mem_filter, Bool.not_eq_true', decide_eq_false_iff_not]
  constructor
  · intro h
    obtain ⟨e, ⟨he, hk⟩, rfl⟩ := h
    exact ⟨hk, e, he, rfl⟩
  · intro h
    obtain ⟨hk, e, he, rfl⟩ := h
    exact ⟨e, ⟨he, hk⟩, rfl⟩

/-- No key is listed twice. -/
theorem keys_nodup (t : Table κ α) : t.keys.Nodup := t.nodup

theorem length_keys (t : Table κ α) : t.keys.length = t.size := by
  simp [keys, size]

/-- A table says that it is empty exactly if it has no entry. -/
theorem isEmpty_iff (t : Table κ α) : t.isEmpty = true ↔ t.size = 0 := by
  simp [isEmpty, size]

end Table

end CallGraph
