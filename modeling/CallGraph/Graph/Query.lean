import CallGraph.Graph.Basic
import CallGraph.Graph.Error
import CallGraph.Record

/-!
# Questions about a call graph

Every question goes through a handle, which is checked first: its generation must be the graph's,
and its index must be in the arena.

Main results:

- Theorem `node_eq_ok_iff` says which node handles are accepted, and `edge_eq_ok_iff` which edge
  handles.
- Theorems `node_of_stale` and `edge_of_stale` say what a handle of another generation gets.
-/

namespace CallGraph.Graph

/-! ## Checking handles -/

/-- The node of a handle. -/
def node (g : Graph) (id : NodeId) : Except GraphError Node :=
  if id.generation ≠ g.generation then .error (.nodeReleased id.index)
  else
    match g.nodes[id.index]? with
    | some n => .ok n
    | none => .error (.unknownHandle id.index)

/-- The edge of a handle. -/
def edge (g : Graph) (id : EdgeId) : Except GraphError Edge :=
  if id.generation ≠ g.generation then .error (.edgeReleased id.index)
  else
    match g.edges[id.index]? with
    | some e => .ok e
    | none => .error (.unknownHandle id.index)

/-- A node handle is accepted exactly if its generation is that of the graph and its index is in
range. -/
theorem node_eq_ok_iff {g : Graph} {id : NodeId} {n : Node} :
    g.node id = .ok n ↔ id.generation = g.generation ∧ g.nodes[id.index]? = some n := by
  unfold node
  split
  · simp_all
  · split <;> simp_all

/-- An edge handle is accepted exactly if its generation is that of the graph and its index is in
range. -/
theorem edge_eq_ok_iff {g : Graph} {id : EdgeId} {e : Edge} :
    g.edge id = .ok e ↔ id.generation = g.generation ∧ g.edges[id.index]? = some e := by
  unfold edge
  split
  · simp_all
  · split <;> simp_all

/-- A node handle of another generation is dead. -/
theorem node_of_stale {g : Graph} {id : NodeId} (h : id.generation ≠ g.generation) :
    g.node id = .error (.nodeReleased id.index) := by
  simp [node, h]

/-- An edge handle of another generation is dead. -/
theorem edge_of_stale {g : Graph} {id : EdgeId} (h : id.generation ≠ g.generation) :
    g.edge id = .error (.edgeReleased id.index) := by
  simp [edge, h]

/-! ## Neighbours -/

/-- The edges into a node, the one from outside any method first. -/
def callers (g : Graph) (id : NodeId) : Except GraphError (List EdgeId) :=
  Node.incoming <$> g.node id

/-- The edges out of a node. -/
def callees (g : Graph) (id : NodeId) : Except GraphError (List EdgeId) :=
  Node.outgoing <$> g.node id

/-- The edge from a caller, or from outside any method, to a callee.  The handle of the callee is
checked first. -/
def findEdge (g : Graph) (caller : Option NodeId) (callee : NodeId) :
    Except GraphError (Option EdgeId) := do
  let callee ← g.node callee
  match caller with
  | none => return callee.rootEdge
  | some id => return callee.callers.lookup (← g.node id).key

/-! ## The canonical owner -/

/-- The canonical owner of a method, which its node remembers from now on. -/
def resolve (g : Graph) (host : Host) (id : NodeId) : Except GraphError (Graph × Resolution) := do
  let n ← g.node id
  return (g.adjust id fun n => n.remember host, n.resolve host)

/-! ## Records -/

/-- The call of an edge, told by keys. -/
def callRecord (g : Graph) (id : EdgeId) : Except GraphError CallRecord := do
  let e ← g.edge id
  let caller ← e.caller.mapM fun c => Node.key <$> g.node c
  let callee ← g.node e.callee
  return ⟨caller, callee.key⟩

/-- The record of a method, with its calls in ascending order. -/
def dump (g : Graph) (id : NodeId) : Except GraphError Record := do
  let n ← g.node id
  let callers ← n.incoming.mapM g.callRecord
  let callees ← n.outgoing.mapM g.callRecord
  return ⟨n.key, n.recursive, n.source.map Source.file, n.line, CallRecord.sort callers,
    CallRecord.sort callees⟩

/-- The records of the methods that are not excluded, in order of creation. -/
def dumpAll (g : Graph) : Except GraphError (List Record) :=
  g.methods.mapM fun p => g.dump p.1

end CallGraph.Graph
