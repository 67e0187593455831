import CallGraph.Graph.Node

/-!
# Counting calls

A counter listens to the notices of graphs and counts for each edge how often it was entered and
left.  It knows edges by their handles alone, so it keeps the counts of a graph that has been
released, and graphs that share a counter share the counts of equal handles.

Main results:

- Theorem `counts_entered` says what each edge has after one of them was entered.
-/

namespace CallGraph

/-- How often an edge was entered and left. -/
structure Counts where
  calls : Nat := 0
  returns : Nat := 0
  deriving DecidableEq, Repr, Inhabited

/-- The counts of edges. -/
structure Counter where
  table : Table EdgeId Counts := .empty
  deriving DecidableEq, Inhabited

namespace Counter

/-- The counter that has heard nothing. -/
def empty : Counter := {}

/-- The counts of an edge. -/
def counts (c : Counter) (e : EdgeId) : Counts := (c.table.lookup e).getD {}

/-- Count a call through an edge. -/
def entered (c : Counter) (e : EdgeId) : Counter :=
  ⟨c.table.alter e {} fun n => { n with calls := n.calls + 1 }⟩

/-- Count a return through an edge. -/
def left (c : Counter) (e : EdgeId) : Counter :=
  ⟨c.table.alter e {} fun n => { n with returns := n.returns + 1 }⟩

/-- The number of calls through all edges. -/
def totalCalls (c : Counter) : Nat := c.table.values.foldl (fun n v => n + v.calls) 0

/-- A call through an edge raises the calls of this edge by one and leaves every other count
alone. -/
theorem counts_entered (c : Counter) (e e' : EdgeId) :
    (c.entered e).counts e' =
      if e = e' then { c.counts e with calls := (c.counts e).calls + 1 } else c.counts e' := by
  unfold counts entered Table.alter
  rw [Table.lookup_insert]
  split <;> rfl

/-- A return through an edge raises the returns of this edge by one and leaves every other count
alone. -/
theorem counts_left (c : Counter) (e e' : EdgeId) :
    (c.left e).counts e' =
      if e = e' then { c.counts e with returns := (c.counts e).returns + 1 } else c.counts e' := by
  unfold counts left Table.alter
  rw [Table.lookup_insert]
  split <;> rfl

end Counter

end CallGraph
