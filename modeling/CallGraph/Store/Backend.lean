import CallGraph.Record
import CallGraph.Store.Bytes

/-!
# What every store can do

A store puts a record under its own key, gives the record of a key, and tells all its records and
their number.  Every kind of store says for itself how it does these things; putting several records
and asking whether there is none are defined from them once, for all kinds alike.

Main results:

- Theorem `filled_append` says that filling a store can be cut anywhere.
-/

namespace CallGraph.Store

/-- What a store can do.  Reading may turn out to be about bytes that are no record. -/
structure Backend (σ : Type) where
  empty : σ
  put : σ → Record → σ
  get : σ → Key → Except ByteFault (Option Record)
  all : σ → Except ByteFault (List Record)
  size : σ → Nat

namespace Backend

variable {σ : Type} (b : Backend σ)

/-- Put records one after the other. -/
def putAll (s : σ) (rs : List Record) : σ := rs.foldl b.put s

/-- Whether nothing is held. -/
def isEmpty (s : σ) : Bool := decide (b.size s = 0)

/-- The store after the records of a log were put into an empty one. -/
def filled (log : List Record) : σ := b.putAll b.empty log

/-- Filling a store can be cut anywhere. -/
theorem filled_append (log rs : List Record) :
    b.filled (log ++ rs) = b.putAll (b.filled log) rs := by
  simp [filled, putAll]

/-- The last record of a log is put last. -/
theorem filled_concat (log : List Record) (r : Record) :
    b.filled (log ++ [r]) = b.put (b.filled log) r :=
  b.filled_append log [r]

end Backend

end CallGraph.Store
