import CallGraph.Store.Backend
import CallGraph.Store.Layout
import CallGraph.Table

/-!
# Records on disk

A store on disk is an ordered map from bytes to bytes, which holds each record under the bytes of
its key.  What is under a key is decoded when it is asked for, so entries that were written by
another hand may turn out to be no records.

Main results:

- Theorem `value_put` says what is under each key after a record is put.
-/

namespace CallGraph.Store

/-- The entries of a store on disk. -/
structure Disk where
  table : Table Bytes Bytes := .empty
  deriving DecidableEq, Inhabited

namespace Disk

/-- The store without entries. -/
def empty : Disk := {}

/-- The entries, in ascending order of their keys. -/
def entries (s : Disk) : List (Bytes × Bytes) :=
  s.table.entries.mergeSort fun a b => (compare a.1 b.1).isLE

/-- Write an entry, replacing the one under the same key. -/
def write (s : Disk) (key value : Bytes) : Disk := ⟨s.table.insert key value⟩

/-- The value under a key, if there is an entry. -/
def value (s : Disk) (key : Bytes) : Option Bytes := s.table.lookup key

/-- Put a record under its own key, replacing the one that is there. -/
def put (s : Disk) (r : Record) : Disk := s.write (indexKey r.key) (encodeRecord r)

/-- The record of a key. -/
def get (s : Disk) (k : Key) : Except ByteFault (Option Record) :=
  (s.value (indexKey k)).mapM decodeRecord

/-- All records, in ascending order of their keys; the first value that is no record fails. -/
def all (s : Disk) : Except ByteFault (List Record) :=
  s.entries.mapM fun e => decodeRecord e.2

/-- The number of entries. -/
def size (s : Disk) : Nat := s.table.size

/-- A store on disk as a store among others. -/
def backend : Backend Disk := ⟨empty, put, get, all, size⟩

/-- A record that is put is under the bytes of its key, and every other key keeps its bytes. -/
theorem value_put (s : Disk) (r : Record) (key : Bytes) :
    (s.put r).value key = if indexKey r.key = key then some (encodeRecord r) else s.value key :=
  Table.lookup_insert s.table (indexKey r.key) key (encodeRecord r)

end Disk

end CallGraph.Store
