import CallGraph.Proofs.Dump
import CallGraph.Proofs.Stores
import Mathlib.Data.Finset.Card
import Mathlib.Data.List.Induction

/-!
# What stores answer

A store is asked for records, for all of them and for their number while records are put into it.
What it has to answer depends only on the log of the records that were put before: the last record
under each key counts.  A store in memory and a store on disk both answer like that, so nothing that
is asked tells them apart.

Main results:

- Theorem `Memory.exists_meets` says that a store in memory answers what the log demands.
- Theorem `Disk.answer_filled` says that a store on disk gives the same answers.
- Theorem `answers_memory_disk` says both of any sequence of requests.
-/

namespace CallGraph

namespace Store

/-! ## Requests and answers -/

/-- What a store is asked to do. -/
inductive Request where
  | put (r : Record)
  | putAll (rs : List Record)
  | get (k : Key)
  | all
  | size
  | isEmpty
  deriving DecidableEq, Repr

/-- What a store answers. -/
inductive Answer where
  | done
  | found (r : Option Record)
  | listed (rs : List Record)
  | counted (n : Nat)
  | told (b : Bool)
  deriving DecidableEq, Repr

/-- The records that are put by a request. -/
def Request.records : Request → List Record
  | .put r => [r]
  | .putAll rs => rs
  | .get _ | .all | .size | .isEmpty => []

namespace Backend

variable {σ : Type} (b : Backend σ)

/-- The store after a request. -/
def after (s : σ) : Request → σ
  | .put r => b.put s r
  | .putAll rs => b.putAll s rs
  | .get _ | .all | .size | .isEmpty => s

/-- The answer to a request. -/
def answer (s : σ) : Request → Except ByteFault Answer
  | .put _ | .putAll _ => .ok .done
  | .get k => .found <$> b.get s k
  | .all => .listed <$> b.all s
  | .size => .ok (.counted (b.size s))
  | .isEmpty => .ok (.told (b.isEmpty s))

/-- The answers to requests that are made one after the other. -/
def answers (s : σ) : List Request → List (Except ByteFault Answer)
  | [] => []
  | q :: rest => b.answer s q :: answers (b.after s q) rest

/-- A request adds its records to the log of a store. -/
theorem after_filled (log : List Record) (q : Request) :
    b.after (b.filled log) q = b.filled (log ++ q.records) := by
  rw [filled_append]
  cases q <;> simp [after, putAll, Request.records]

end Backend

/-! ## What the log demands -/

/-- The last record of a log under a key. -/
def lastUnder (log : List Record) (k : Key) : Option Record :=
  (log.filter fun r => r.key = k).getLast?

/-- The answers that the log of the records put before demands. -/
inductive Meets (log : List Record) : Request → Answer → Prop
  | put (r : Record) : Meets log (.put r) .done
  | putAll (rs : List Record) : Meets log (.putAll rs) .done
  | get (k : Key) : Meets log (.get k) (.found (lastUnder log k))
  /-- The last record under each key, once, in strictly ascending order of the keys. -/
  | all {rs : List Record} (ascending : rs.Pairwise fun a b => compare a.key b.key = .lt)
      (last : ∀ r, r ∈ rs ↔ lastUnder log r.key = some r) : Meets log .all (.listed rs)
  /-- The number of different keys. -/
  | size : Meets log .size (.counted (log.map Record.key).toFinset.card)
  | isEmpty : Meets log .isEmpty (.told log.isEmpty)

/-- Every request gets the answer that the log demands when it is made. -/
inductive AllMeet : List Record → List Request → List Answer → Prop
  | nil {log : List Record} : AllMeet log [] []
  | cons {log : List Record} {q : Request} {a : Answer} {rest : List Request}
      {answers : List Answer} (meets : Meets log q a)
      (after : AllMeet (log ++ q.records) rest answers) : AllMeet log (q :: rest) (a :: answers)

/-- The record that was put last under a key hides those before. -/
theorem lastUnder_concat (log : List Record) (r : Record) (k : Key) :
    lastUnder (log ++ [r]) k = if r.key = k then some r else lastUnder log k := by
  rw [lastUnder, List.filter_append]
  by_cases h : r.key = k
  · simp [h]
  · simp [h, lastUnder]

/-- The last record under a key is in the log and has this key. -/
theorem lastUnder_eq_some {log : List Record} {k : Key} {r : Record}
    (h : lastUnder log k = some r) : r ∈ log ∧ r.key = k := by
  simpa using List.mem_of_getLast? h

/-- A log has no record under a key exactly if it has none of that key. -/
theorem lastUnder_eq_none_iff {log : List Record} {k : Key} :
    lastUnder log k = none ↔ k ∉ log.map Record.key := by
  simp [lastUnder]

/-! ## In memory -/

namespace Memory

variable (log : List Record)

/-- A store holds the last record of its log under each key. -/
theorem get_filled (k : Key) : (backend.filled log).get k = lastUnder log k := by
  induction log using List.reverseRecOn with
  | nil => rfl
  | append_singleton log r ih =>
    rw [Backend.filled_concat, lastUnder_concat, ← ih]
    exact get_put _ r k

/-- Every record is under its own key. -/
theorem key_of_mem_entries {e : Key × Record} (h : e ∈ (backend.filled log).records.entries) :
    e.2 ∈ log ∧ e.2.key = e.1 := by
  apply lastUnder_eq_some
  rw [← get_filled]
  exact (Table.lookup_eq_some_iff _ _ _).mpr h

/-- The keys of a store are those of its log, each once. -/
theorem toFinset_keys :
    (backend.filled log).records.keys.toFinset = (log.map Record.key).toFinset := by
  ext k
  have hnone := @lastUnder_eq_none_iff log k
  rw [← get_filled, get, Table.lookup_eq_none_iff, not_iff_not] at hnone
  rw [List.mem_toFinset, List.mem_toFinset]
  exact hnone

/-- A store has as many records as its log has keys. -/
theorem size_filled :
    backend.size (backend.filled log) = (log.map Record.key).toFinset.card := by
  rw [← toFinset_keys, List.toFinset_card_of_nodup (Table.keys_nodup _), Table.length_keys]
  rfl

/-- A store is empty exactly if its log is. -/
theorem isEmpty_filled : backend.isEmpty (backend.filled log) = log.isEmpty := by
  rw [Backend.isEmpty, size_filled, Bool.eq_iff_iff]
  simp

/-- A store lists the last record of its log under each key. -/
theorem mem_all_filled {r : Record} :
    r ∈ (backend.filled log).all ↔ lastUnder log r.key = some r := by
  rw [all, List.mem_mergeSort, Table.mem_values_iff]
  constructor
  · rintro ⟨k, hk⟩
    have hlast : lastUnder log k = some r := by
      rw [← get_filled]
      exact hk
    rw [(lastUnder_eq_some hlast).2]
    exact hlast
  · intro hlast
    rw [← get_filled] at hlast
    exact ⟨r.key, hlast⟩

/-- A store lists its records in ascending order of their keys, each key once. -/
theorem pairwise_all_filled :
    (backend.filled log).all.Pairwise fun a b => compare a.key b.key = .lt := by
  have hkeys : (backend.filled log).records.values.map Record.key =
      (backend.filled log).records.keys := by
    rw [Table.values, Table.keys, List.map_map]
    exact List.map_congr_left fun e he => (key_of_mem_entries log he).2
  apply pairwise_lt_mergeSort
  rw [hkeys]
  exact Table.keys_nodup _

/-- A store in memory answers what its log demands, and never fails. -/
theorem exists_meets (q : Request) :
    ∃ a, backend.answer (backend.filled log) q = .ok a ∧ Meets log q a := by
  cases q with
  | put r => exact ⟨_, rfl, .put r⟩
  | putAll rs => exact ⟨_, rfl, .putAll rs⟩
  | get k =>
    refine ⟨.found (lastUnder log k), ?_, .get k⟩
    rw [← get_filled]
    rfl
  | all => exact ⟨_, rfl, .all (pairwise_all_filled log) fun r => mem_all_filled log⟩
  | size =>
    refine ⟨_, ?_, .size⟩
    rw [← size_filled]
    rfl
  | isEmpty =>
    refine ⟨_, ?_, .isEmpty⟩
    rw [← isEmpty_filled]
    rfl

end Memory

/-! ## On disk -/

namespace Disk

/-- The entries on disk are those in memory, written as bytes. -/
theorem entries_filled (log : List Record) : (backend.filled log).table.entries =
    (Memory.backend.filled log).records.entries.map (Prod.map indexKey encodeRecord) := by
  induction log using List.reverseRecOn with
  | nil => rfl
  | append_singleton log r ih =>
    rw [Backend.filled_concat, Backend.filled_concat]
    have hput := Table.put_map (fun _ _ => indexKey_injective) encodeRecord r.key r
      (Memory.backend.filled log).records.entries
    rw [← ih] at hput
    exact hput

/-- A store on disk has as many records as one in memory. -/
theorem size_filled (log : List Record) : backend.size (backend.filled log) =
    Memory.backend.size (Memory.backend.filled log) := by
  have hlength := congrArg List.length (entries_filled log)
  rw [List.length_map] at hlength
  exact hlength

variable {log : List Record} (hlog : ∀ r ∈ log, Fits r)

include hlog

/-- A store on disk finds the record that one in memory finds, and reads it without a fault. -/
theorem get_filled (k : Key) :
    (backend.filled log).get k = .ok ((Memory.backend.filled log).get k) := by
  have hvalue : (backend.filled log).value (indexKey k) =
      ((Memory.backend.filled log).get k).map encodeRecord := by
    rw [value, Table.lookup, entries_filled]
    exact Table.find_map (fun _ _ => indexKey_injective) encodeRecord k _
  rw [get, hvalue, Memory.get_filled]
  cases hlast : lastUnder log k with
  | none => rfl
  | some r =>
    have hfits := hlog r (lastUnder_eq_some hlast).1
    simp [decodeRecord_encodeRecord hfits, Functor.map, Except.map]

/-- The bytes of keys are in the order of the keys, so both stores list their records alike. -/
theorem all_filled : (backend.filled log).all = .ok (Memory.backend.filled log).all := by
  have hentry := fun e he => Memory.key_of_mem_entries log (e := e) he
  have hmemory := List.map_mergeSort (f := Prod.snd) (r := fun a b => Key.le a.1 b.1)
    (s := fun a b => Key.le a.key b.key) (l := (Memory.backend.filled log).records.entries) (by
      intro a ha b hb
      rw [(hentry a ha).2, (hentry b hb).2])
  have hdisk := List.map_mergeSort (f := Prod.map indexKey encodeRecord)
    (r := fun a b => Key.le a.1 b.1) (s := fun a b => (compare a.1 b.1).isLE)
    (l := (Memory.backend.filled log).records.entries) (by
      intro a ha b hb
      rw [Prod.map_fst, Prod.map_fst, compare_indexKey, Key.le])
  have hread : ∀ e ∈ (Memory.backend.filled log).records.entries.mergeSort
      fun a b => Key.le a.1 b.1, decodeRecord (encodeRecord e.2) = .ok e.2 := by
    intro e he
    exact decodeRecord_encodeRecord (hlog e.2 (hentry e (List.mem_mergeSort.mp he)).1)
  rw [all, entries, entries_filled, ← hdisk, List.mapM_map, Memory.all, Table.values, ← hmemory]
  exact Graph.mapM_eq_ok hread

/-- A store on disk gives the answers of one in memory. -/
theorem answer_filled (q : Request) : backend.answer (backend.filled log) q =
    Memory.backend.answer (Memory.backend.filled log) q := by
  cases q with
  | put r => rfl
  | putAll rs => rfl
  | get k => exact congrArg (Answer.found <$> ·) (get_filled hlog k)
  | all => exact congrArg (Answer.listed <$> ·) (all_filled hlog)
  | size => rw [Backend.answer, Backend.answer, size_filled]
  | isEmpty => rw [Backend.answer, Backend.answer, Backend.isEmpty, Backend.isEmpty, size_filled]

end Disk

/-! ## Any sequence of requests -/

/-- From any log on, both stores give the answers that it demands. -/
theorem answers_of_log {log : List Record} (hlog : ∀ r ∈ log, Fits r) {requests : List Request}
    (hfits : ∀ q ∈ requests, ∀ r ∈ q.records, Fits r) :
    ∃ answers, Memory.backend.answers (Memory.backend.filled log) requests = answers.map .ok ∧
      Disk.backend.answers (Disk.backend.filled log) requests = answers.map .ok ∧
        AllMeet log requests answers := by
  induction requests generalizing log with
  | nil => exact ⟨[], rfl, rfl, .nil⟩
  | cons q rest ih =>
    have hnext : ∀ r ∈ log ++ q.records, Fits r := by
      intro r hr
      rcases List.mem_append.mp hr with hr | hr
      · exact hlog r hr
      · exact hfits q List.mem_cons_self r hr
    obtain ⟨answers, hmemory, hdisk, hmeet⟩ :=
      ih hnext fun q' hq' => hfits q' (List.mem_cons_of_mem q hq')
    obtain ⟨a, ha, hmeets⟩ := Memory.exists_meets log q
    refine ⟨a :: answers, ?_, ?_, .cons hmeets hmeet⟩
    · rw [Backend.answers, Backend.after_filled, hmemory, ha, List.map_cons]
    · rw [Backend.answers, Backend.after_filled, hdisk, Disk.answer_filled hlog, ha, List.map_cons]

/-- Nothing that is asked of two empty stores tells the one in memory from the one on disk: neither
fails, and both give the answers that the records put before demand.  The lengths of the records
have to fit the 64 bits in which they are written. -/
theorem answers_memory_disk {requests : List Request}
    (hfits : ∀ q ∈ requests, ∀ r ∈ q.records, Fits r) :
    ∃ answers, Memory.backend.answers .empty requests = answers.map .ok ∧
      Disk.backend.answers .empty requests = answers.map .ok ∧ AllMeet [] requests answers := by
  have hempty : ∀ r ∈ ([] : List Record), Fits r := by simp
  exact answers_of_log hempty hfits

/-- Records under keys with and without halves, from the least to the greatest numbers. -/
def edgeRecords : List Record :=
  [⟨⟨some ⟨18446744073709551615⟩, some ⟨0⟩⟩, false, some "lib/größe.rb", 4294967295,
      [⟨none, ⟨some ⟨18446744073709551615⟩, some ⟨0⟩⟩⟩], []⟩,
    ⟨⟨some ⟨0⟩, none⟩, true, none, 0, [], [⟨some ⟨some ⟨0⟩, none⟩, ⟨none, some ⟨256⟩⟩⟩]⟩,
    ⟨⟨none, none⟩, false, some "", 1, [], []⟩,
    ⟨⟨none, some ⟨255⟩⟩, false, none, 0, [⟨some ⟨none, none⟩, ⟨none, some ⟨255⟩⟩⟩], []⟩]

/-- Both stores answer alike while these records are put and one of them is replaced. -/
theorem answers_memory_disk_edgeRecords :
    let requests := [.isEmpty, .putAll edgeRecords, .all,
      .put ⟨⟨some ⟨0⟩, none⟩, false, none, 0, [], []⟩, .get ⟨some ⟨0⟩, none⟩,
      .get ⟨none, some ⟨0⟩⟩, .all, .size, .isEmpty]
    (∀ q ∈ requests, ∀ r ∈ q.records, Fits r) ∧
      ∃ answers, Memory.backend.answers .empty requests = answers.map .ok ∧
        Disk.backend.answers .empty requests = answers.map .ok ∧ AllMeet [] requests answers := by
  intro requests
  have hfits : ∀ q ∈ requests, ∀ r ∈ q.records, Fits r := by
    unfold Fits
    decide +kernel
  exact ⟨hfits, answers_memory_disk hfits⟩

end Store

end CallGraph
