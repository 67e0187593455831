import CallGraph.Graph.Query

/-!
# Sessions

Every execution context has a graph of its own.  The registry makes the graph of a context when it
is first used and forgets it when the context is discarded; contexts share nothing.

Main results:

- Theorem `graph_update` says what the graph of each context is after one of them is used.
- Theorem `discard_eq_true_iff` says when discarding a context removes something.
-/

namespace CallGraph

/-- The graphs of the execution contexts. -/
structure Sessions where
  graphs : Table UInt64 Graph := .empty
  deriving DecidableEq, Inhabited

namespace Sessions

/-- The registry without contexts. -/
def empty : Sessions := {}

/-- The graph of a context, the empty one for a context that has none. -/
def graph (s : Sessions) (context : UInt64) : Graph := (s.graphs.lookup context).getD .empty

/-- Put the graph of a context back after it was used. -/
def update (s : Sessions) (context : UInt64) (g : Graph) : Sessions :=
  ⟨s.graphs.insert context g⟩

/-- Use the graph of a context, which is made if there is none. -/
def withSession {α : Type} (s : Sessions) (context : UInt64) (use : Graph → Graph × α) :
    Sessions × α :=
  let (g, a) := use (s.graph context)
  (s.update context g, a)

/-- Forget a context and its graph, and tell whether there was one. -/
def discard (s : Sessions) (context : UInt64) : Sessions × Bool :=
  (⟨s.graphs.erase context⟩, s.graphs.contains context)

/-- The contexts that have a graph, in ascending order. -/
def contexts (s : Sessions) : List UInt64 :=
  s.graphs.keys.mergeSort fun a b => (compare a b).isLE

/-- The number of contexts that have a graph. -/
def size (s : Sessions) : Nat := s.graphs.size

/-- The records of every context, in the order of contexts. -/
def dumpAll (s : Sessions) : Except GraphError (List (UInt64 × List Record)) :=
  s.contexts.mapM fun context => do return (context, ← (s.graph context).dumpAll)

/-- Putting a graph back changes what its context has and nothing else. -/
theorem graph_update (s : Sessions) (context context' : UInt64) (g : Graph) :
    (s.update context g).graph context' =
      if context = context' then g else s.graph context' := by
  unfold graph update
  rw [Table.lookup_insert]
  split <;> rfl

/-- A context that is discarded has the empty graph again, and every other one keeps its own. -/
theorem graph_discard (s : Sessions) (context context' : UInt64) :
    (s.discard context).1.graph context' =
      if context = context' then .empty else s.graph context' := by
  unfold graph discard
  simp only
  rw [Table.lookup_erase]
  split <;> rfl

/-- Discarding a context removes something exactly if the context has a graph. -/
theorem discard_eq_true_iff (s : Sessions) (context : UInt64) :
    (s.discard context).2 = true ↔ context ∈ s.graphs.keys := by
  unfold discard Table.contains
  simp only
  have h := Table.lookup_eq_none_iff s.graphs context
  cases hl : s.graphs.lookup context with
  | none => simpa [hl] using h
  | some g =>
    rw [hl] at h
    simpa using h

end Sessions

end CallGraph
