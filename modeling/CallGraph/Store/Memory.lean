import CallGraph.Store.Backend
import CallGraph.Table

/-!
# Records in memory

A store keeps the last record put under each key.

Main results:

- Theorem `get_put` says what every key answers after a record is put.
-/

namespace CallGraph.Store

/-- The records of a store in memory. -/
structure Memory where
  records : Table Key Record := .empty
  deriving DecidableEq, Inhabited

namespace Memory

/-- The store without records. -/
def empty : Memory := {}

/-- Put a record under its own key, replacing the one that is there. -/
def put (s : Memory) (r : Record) : Memory := ⟨s.records.insert r.key r⟩

/-- The record of a key. -/
def get (s : Memory) (k : Key) : Option Record := s.records.lookup k

/-- All records, in ascending order of their keys. -/
def all (s : Memory) : List Record :=
  s.records.values.mergeSort fun a b => Key.le a.key b.key

/-- The number of records. -/
def size (s : Memory) : Nat := s.records.size

/-- A store in memory as a store among others; reading it never fails. -/
def backend : Backend Memory where
  empty := empty
  put := put
  get s k := .ok (s.get k)
  all s := .ok s.all
  size := size

/-- A record that is put is under its own key, and every other key keeps its record. -/
theorem get_put (s : Memory) (r : Record) (k : Key) :
    (s.put r).get k = if r.key = k then some r else s.get k :=
  Table.lookup_insert s.records r.key k r

end Memory

end CallGraph.Store
