import CallGraph.Graph.Basic

/-!
# Calls and returns

A call finds or creates the node of its method and the edge from the innermost open call, and opens
one more frame; a return closes the innermost frame.  Excluding a method hides it from every
listing and leaves its calls in place.  Releasing a graph forgets everything in it.

Main results:

- Theorems `stack_enter` and `leave_eq_none_iff` say how calls and returns move the stack.
- Theorem `methods_release` says that a graph that was released lists nothing.
-/

namespace CallGraph

/-- A call as it is observed. -/
structure Observation where
  owner : Option TypeId := none
  method : Option MethodId := none
  file : Option String := none
  line : UInt32 := 0
  /-- Whether the method is native; then it has no place in a file. -/
  native : Bool := false
  deriving DecidableEq, Repr, Inhabited

namespace Observation

/-- The place that a call tells of its method. -/
def source (o : Observation) : Option Source :=
  if o.native then none else o.file.map fun file => ⟨file, o.line⟩

/-- The key under which a host files a call. -/
def key (o : Observation) (host : Host) : Key := Key.make host o.owner o.method

end Observation

/-- What a listener is told when a call enters or leaves an edge: the edge and its two ends. -/
structure Notice where
  edge : EdgeId
  ends : Option Edge
  deriving DecidableEq, Repr, Inhabited

namespace Graph

/-- Whether a node is open. -/
def isOpen (g : Graph) (id : NodeId) : Bool := g.stack.any fun f => f.vertex.id = id

/-- Mark a node that is called: as a root if no call is open, as recursive if it is open itself. -/
def mark (g : Graph) (id : NodeId) : Graph :=
  g.adjust id fun n =>
    { n with root := n.root || g.stack.isEmpty, recursive := n.recursive || g.isOpen id }

/-- Record a call: find or create its node and its edge, and open it. -/
def enter (g : Graph) (host : Host) (o : Observation) : Graph × NodeId × Notice :=
  let key := o.key host
  let (g, id) := g.intern key o.source
  let caller := g.stack.head?.map Frame.vertex
  -- The call is marked before it is opened, so it is recursive only if an outer one is open.
  let (g, edge) := (g.mark id).link caller ⟨id, key⟩
  ({ g with stack := ⟨⟨id, key⟩, edge⟩ :: g.stack }, id, ⟨edge, g.edges[edge.index]?⟩)

/-- Record a return: close the innermost call, if one is open. -/
def leave (g : Graph) : Graph × Option (NodeId × Notice) :=
  match g.stack with
  | [] => (g, none)
  | f :: rest =>
    ({ g with stack := rest }, some (f.vertex.id, ⟨f.edge, g.edges[f.edge.index]?⟩))

/-- Leave a method out of every listing, creating its node if it has none. -/
def exclude (g : Graph) (host : Host) (k : Key) : Graph × NodeId :=
  let key := k.canonical host
  match g.registry.lookup key with
  | some id => (g.adjust id fun n => { n with excluded := true }, id)
  | none => g.addNode { key := key, excluded := true }

/-- Forget every node, edge and open call.  Handles issued before are dead from now on. -/
def release (g : Graph) : Graph := { generation := g.generation + 1 }

@[simp] theorem stack_mark (g : Graph) (id : NodeId) : (g.mark id).stack = g.stack := rfl

/-- A call opens one frame on top of those that are open. -/
theorem stack_enter (g : Graph) (host : Host) (o : Observation) :
    ∃ f, (g.enter host o).1.stack = f :: g.stack ∧ f.vertex = ⟨(g.enter host o).2.1, o.key host⟩ ∧
      f.edge = (g.enter host o).2.2.edge := by
  refine ⟨⟨⟨(g.enter host o).2.1, o.key host⟩, (g.enter host o).2.2.edge⟩, ?_, rfl, rfl⟩
  simp [enter]

/-- A return does nothing exactly when no call is open. -/
theorem leave_eq_none_iff (g : Graph) : g.leave.2 = none ↔ g.stack = [] := by
  unfold leave
  split <;> simp_all

/-- A return with no call open changes nothing. -/
theorem leave_of_stack_nil {g : Graph} (h : g.stack = []) : g.leave = (g, none) := by
  simp [leave, h]

/-- A return closes the innermost call and tells of its edge. -/
theorem leave_of_stack_cons {g : Graph} {f : Frame} {rest : List Frame}
    (h : g.stack = f :: rest) :
    g.leave = ({ g with stack := rest },
      some (f.vertex.id, ⟨f.edge, g.edges[f.edge.index]?⟩)) := by
  simp [leave, h]

@[simp] theorem generation_release (g : Graph) : g.release.generation = g.generation + 1 := rfl

@[simp] theorem nodes_release (g : Graph) : g.release.nodes = #[] := rfl

/-- A graph that was released lists no method. -/
@[simp] theorem methods_release (g : Graph) : g.release.methods = [] := rfl

end Graph

end CallGraph
