import CallGraph.Key
import CallGraph.Resolution
import CallGraph.Table

/-!
# Nodes and edges of call graphs

A call graph keeps one node for each method and one edge for each pair of a caller and a callee.
Nodes and edges refer to each other by handles only, and a handle carries the generation under
which it was issued.  The edge between two methods is indexed from both ends by the key of the
peer; the edge of a call from outside any method is kept apart, so that a caller with the blank key
stays an ordinary caller.

Main results:

- Theorem `resolve_remember` says that a canonical owner that is remembered does not change.
-/

namespace CallGraph

/-- A handle to a node of a graph. -/
structure NodeId where
  generation : Nat
  index : Nat
  deriving DecidableEq, Repr, Inhabited

/-- A handle to an edge of a graph. -/
structure EdgeId where
  generation : Nat
  index : Nat
  deriving DecidableEq, Repr, Inhabited

/-- The two ends of an edge; without a caller it is a call from outside any method. -/
structure Edge where
  caller : Option NodeId
  callee : NodeId
  deriving DecidableEq, Repr, Inhabited

/-- Where a method was written. -/
structure Source where
  file : String
  line : UInt32
  deriving DecidableEq, Repr, Inhabited

/-- What is known of one method. -/
structure Node where
  key : Key
  /-- The place where the method was written; native methods have none. -/
  source : Option Source := none
  /-- Whether the method was called from outside any method. -/
  root : Bool := false
  /-- Whether the method was called while it was open. -/
  recursive : Bool := false
  /-- Whether the method is left out of every listing. -/
  excluded : Bool := false
  /-- The incoming edge from outside any method. -/
  rootEdge : Option EdgeId := none
  /-- The incoming edges from methods, under the key of the caller. -/
  callers : Table Key EdgeId := .empty
  /-- The outgoing edges, under the key of the callee. -/
  callees : Table Key EdgeId := .empty
  /-- The canonical owner, once it has been asked for. -/
  resolution : Option Resolution := none
  deriving DecidableEq, Inhabited

namespace Node

/-- The file of the method, or a label for one that has none. -/
def sourceLabel (n : Node) (label : String) : String :=
  (n.source.map Source.file).getD label

/-- The line of the method, zero for one without a file. -/
def line (n : Node) : UInt32 := (n.source.map Source.line).getD 0

/-- Every incoming edge: the one from outside first. -/
def incoming (n : Node) : List EdgeId := n.rootEdge.toList ++ n.callers.values

/-- Every outgoing edge. -/
def outgoing (n : Node) : List EdgeId := n.callees.values

/-- The canonical owner: the remembered one if it has been asked for before. -/
def resolve (n : Node) (host : Host) : Resolution :=
  n.resolution.getD (host.resolve n.key.owner)

/-- Remember the canonical owner as a host gives it now, unless one is remembered already. -/
def remember (n : Node) (host : Host) : Node :=
  { n with resolution := some (n.resolve host) }

/-- What a node remembers counts whatever another host would say. -/
@[simp] theorem resolve_remember (n : Node) (host host' : Host) :
    (n.remember host).resolve host' = n.resolve host := rfl

end Node

/-- A node handle together with the key of its node. -/
structure Vertex where
  id : NodeId
  key : Key
  deriving DecidableEq, Repr, Inhabited

/-- An open call: the method that was entered, and the edge by which it was. -/
structure Frame where
  vertex : Vertex
  edge : EdgeId
  deriving DecidableEq, Repr, Inhabited

end CallGraph
