import CallGraph.Graph.Node

/-!
# Call graphs

A call graph is two arenas of nodes and edges, the handle of each method, and the open calls.  The
generation in its handles makes sure that one that outlives a release is refused and not taken for
a newer node of the same index.

Main results:

- Theorem `lookup_registry_addNode` says which handle each key has after a node is added.
- Theorem `intern_of_lookup` says that a method that has a node keeps it.
- Theorem `link_of_edgeBetween` says that a pair that has an edge keeps it.
-/

namespace CallGraph

/-- The call graph of one session. -/
structure Graph where
  generation : Nat := 0
  /-- The handle of each method. -/
  registry : Table Key NodeId := .empty
  nodes : Array Node := #[]
  edges : Array Edge := #[]
  /-- The open calls, innermost first. -/
  stack : List Frame := []
  deriving DecidableEq, Inhabited

namespace Graph

/-- The graph without methods. -/
def empty : Graph := {}

/-! ## Nodes -/

/-- Change a node in place. -/
def adjust (g : Graph) (id : NodeId) (f : Node → Node) : Graph :=
  { g with nodes := g.nodes.modify id.index f }

/-- Add a node at the end of the arena and register its key. -/
def addNode (g : Graph) (node : Node) : Graph × NodeId :=
  let id : NodeId := ⟨g.generation, g.nodes.size⟩
  ({ g with registry := g.registry.insert node.key id, nodes := g.nodes.push node }, id)

/-- The node of a method, created with the given source if the method has none. -/
def intern (g : Graph) (key : Key) (source : Option Source) : Graph × NodeId :=
  match g.registry.lookup key with
  | some id => (g, id)
  | none => g.addNode { key := key, source := source }

/-- The handle of a method, if it has a node. -/
def lookup (g : Graph) (key : Key) : Option NodeId := g.registry.lookup key

@[simp] theorem registry_adjust (g : Graph) (id : NodeId) (f : Node → Node) :
    (g.adjust id f).registry = g.registry := rfl

@[simp] theorem edges_adjust (g : Graph) (id : NodeId) (f : Node → Node) :
    (g.adjust id f).edges = g.edges := rfl

@[simp] theorem stack_adjust (g : Graph) (id : NodeId) (f : Node → Node) :
    (g.adjust id f).stack = g.stack := rfl

@[simp] theorem generation_adjust (g : Graph) (id : NodeId) (f : Node → Node) :
    (g.adjust id f).generation = g.generation := rfl

@[simp] theorem size_nodes_adjust (g : Graph) (id : NodeId) (f : Node → Node) :
    (g.adjust id f).nodes.size = g.nodes.size := by simp [adjust]

@[simp] theorem id_addNode (g : Graph) (node : Node) :
    (g.addNode node).2 = ⟨g.generation, g.nodes.size⟩ := rfl

@[simp] theorem nodes_addNode (g : Graph) (node : Node) :
    (g.addNode node).1.nodes = g.nodes.push node := rfl

/-- After a node is added its key has the new handle and every other key the one it had. -/
theorem lookup_registry_addNode (g : Graph) (node : Node) (key : Key) :
    (g.addNode node).1.registry.lookup key =
      if node.key = key then some ⟨g.generation, g.nodes.size⟩ else g.registry.lookup key :=
  Table.lookup_insert _ _ _ _

/-- A method that has a node keeps it. -/
theorem intern_of_lookup {g : Graph} {key : Key} {id : NodeId}
    (h : g.registry.lookup key = some id) (source : Option Source) :
    g.intern key source = (g, id) := by
  simp [intern, h]

/-- A method without a node gets the next one of the arena. -/
theorem intern_of_lookup_none {g : Graph} {key : Key} (h : g.registry.lookup key = none)
    (source : Option Source) :
    g.intern key source = g.addNode { key := key, source := source } := by
  simp [intern, h]

/-- Finding or making a node opens and closes no call. -/
@[simp] theorem stack_intern (g : Graph) (key : Key) (source : Option Source) :
    (g.intern key source).1.stack = g.stack := by
  unfold intern
  split <;> rfl

/-! ## Edges -/

/-- The edge from a caller, given by its key, to a callee; without a caller the edge from outside
any method. -/
def edgeBetween (g : Graph) (caller : Option Key) (callee : NodeId) : Option EdgeId :=
  g.nodes[callee.index]?.bind fun node =>
    match caller with
    | some key => node.callers.lookup key
    | none => node.rootEdge

/-- Add an edge at the end of the arena and index it from both ends. -/
def addEdge (g : Graph) (caller : Option Vertex) (callee : Vertex) : Graph × EdgeId :=
  let id : EdgeId := ⟨g.generation, g.edges.size⟩
  let g : Graph := { g with edges := g.edges.push ⟨caller.map Vertex.id, callee.id⟩ }
  match caller with
  | some c =>
    -- A method that calls itself is both ends, and its node gets both entries.
    ((g.adjust callee.id fun n => { n with callers := n.callers.insert c.key id }).adjust c.id
      fun n => { n with callees := n.callees.insert callee.key id }, id)
  | none => (g.adjust callee.id fun n => { n with rootEdge := some id }, id)

/-- The edge between two methods, created if there is none. -/
def link (g : Graph) (caller : Option Vertex) (callee : Vertex) : Graph × EdgeId :=
  match g.edgeBetween (caller.map Vertex.key) callee.id with
  | some id => (g, id)
  | none => g.addEdge caller callee

/-- A new edge gets the next index of the arena. -/
@[simp] theorem id_addEdge (g : Graph) (caller : Option Vertex) (callee : Vertex) :
    (g.addEdge caller callee).2 = ⟨g.generation, g.edges.size⟩ := by
  cases caller <;> rfl

/-- A new edge stands at the end of the arena, whatever its ends are. -/
@[simp] theorem edges_addEdge (g : Graph) (caller : Option Vertex) (callee : Vertex) :
    (g.addEdge caller callee).1.edges = g.edges.push ⟨caller.map Vertex.id, callee.id⟩ := by
  cases caller <;> rfl

/-- A new edge opens and closes no call. -/
@[simp] theorem stack_addEdge (g : Graph) (caller : Option Vertex) (callee : Vertex) :
    (g.addEdge caller callee).1.stack = g.stack := by
  cases caller <;> rfl

/-- A pair that has an edge keeps it. -/
theorem link_of_edgeBetween {g : Graph} {caller : Option Vertex} {callee : Vertex} {id : EdgeId}
    (h : g.edgeBetween (caller.map Vertex.key) callee.id = some id) :
    g.link caller callee = (g, id) := by
  simp [link, h]

/-- Finding or making an edge opens and closes no call. -/
@[simp] theorem stack_link (g : Graph) (caller : Option Vertex) (callee : Vertex) :
    (g.link caller callee).1.stack = g.stack := by
  unfold link
  split <;> simp

/-! ## Listing -/

/-- The number of open calls. -/
def depth (g : Graph) : Nat := g.stack.length

/-- The nodes that are not excluded, with their handles, in order of creation. -/
def methods (g : Graph) : List (NodeId × Node) :=
  (g.nodes.toList.zipIdx.filter fun p => !p.1.excluded).map fun p => (⟨g.generation, p.2⟩, p.1)

end Graph

end CallGraph
