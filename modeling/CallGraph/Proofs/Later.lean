import CallGraph.Proofs.Action

/-!
# Graphs of a later generation

The generation of a graph is in all of its handles and nowhere else.  If some number is added to the
generation of a graph and of every handle that it keeps, every action and every question gives the
same as before with this number added to the handles.

Main results:

- Theorem `apply_later` says that every action does the same to a graph of a later generation.
- Theorems `node_later`, `edge_later` and `dump_later` say that it is asked in the same way.
-/

namespace CallGraph

namespace Table

variable {κ α β : Type} [DecidableEq κ]

/-- The table with every value changed. -/
def mapValues (f : α → β) (t : Table κ α) : Table κ β :=
  ⟨t.entries.map (Prod.map id f), by simpa [Function.comp_def] using t.nodup⟩

@[simp] theorem mapValues_empty (f : α → β) : (empty : Table κ α).mapValues f = empty := rfl

/-- A key leads to the changed value. -/
@[simp] theorem lookup_mapValues (f : α → β) (t : Table κ α) (k : κ) :
    (t.mapValues f).lookup k = (t.lookup k).map f :=
  find_map (fun _ _ h => h) f k t.entries

/-- Inserting a changed value is inserting a value and changing all of them. -/
@[simp] theorem insert_mapValues (f : α → β) (t : Table κ α) (k : κ) (v : α) :
    (t.mapValues f).insert k (f v) = (t.insert k v).mapValues f :=
  ext (put_map (fun _ _ h => h) f k v t.entries)

@[simp] theorem values_mapValues (f : α → β) (t : Table κ α) :
    (t.mapValues f).values = t.values.map f := by
  simp [values, mapValues]

end Table

/-! ## Handles and what holds them -/

/-- The handle of the same index, issued `d` generations later. -/
def NodeId.later (d : Nat) (id : NodeId) : NodeId := ⟨id.generation + d, id.index⟩

/-- The handle of the same index, issued `d` generations later. -/
def EdgeId.later (d : Nat) (id : EdgeId) : EdgeId := ⟨id.generation + d, id.index⟩

/-- The edge between the later handles of its ends. -/
def Edge.later (d : Nat) (e : Edge) : Edge := ⟨e.caller.map (NodeId.later d), e.callee.later d⟩

/-- The vertex of the same key under the later handle. -/
def Vertex.later (d : Nat) (v : Vertex) : Vertex := ⟨v.id.later d, v.key⟩

/-- The open call of the later vertex by the later edge. -/
def Frame.later (d : Nat) (f : Frame) : Frame := ⟨f.vertex.later d, f.edge.later d⟩

/-- What is told of the later edge, with its later ends. -/
def Notice.later (d : Nat) (notice : Notice) : Notice :=
  ⟨notice.edge.later d, notice.ends.map (Edge.later d)⟩

/-- The node with later handles in its tables and in its slot for calls from outside. -/
def Node.later (d : Nat) (n : Node) : Node :=
  { n with
    rootEdge := n.rootEdge.map (EdgeId.later d)
    callers := n.callers.mapValues (EdgeId.later d)
    callees := n.callees.mapValues (EdgeId.later d) }

/-- The graph as it would be if it had seen `d` releases more before. -/
def Graph.later (d : Nat) (g : Graph) : Graph where
  generation := g.generation + d
  registry := g.registry.mapValues (NodeId.later d)
  nodes := g.nodes.map (Node.later d)
  edges := g.edges.map (Edge.later d)
  stack := g.stack.map (Frame.later d)

/-- The action with `d` added to the generation of its handle. -/
def Action.later (d : Nat) : Action → Action
  | .resolve host id => .resolve host (id.later d)
  | a => a

/-- Later handles of nodes are the same only if the handles are. -/
theorem NodeId.later_inj {d : Nat} {a b : NodeId} : a.later d = b.later d ↔ a = b := by
  cases a
  cases b
  simp [later]

/-- Later handles of edges are the same only if the handles are. -/
theorem EdgeId.later_inj {d : Nat} {a b : EdgeId} : a.later d = b.later d ↔ a = b := by
  cases a
  cases b
  simp [later]

/-- The incoming edges of a later node are the later ones of the node. -/
@[simp] theorem incoming_later (d : Nat) (n : Node) :
    (n.later d).incoming = n.incoming.map (EdgeId.later d) := by
  cases h : n.rootEdge <;> simp [Node.incoming, Node.later, h]

/-- The outgoing edges of a later node are the later ones of the node. -/
@[simp] theorem outgoing_later (d : Nat) (n : Node) :
    (n.later d).outgoing = n.outgoing.map (EdgeId.later d) := by
  simp [Node.outgoing, Node.later]

namespace Graph

variable (d : Nat) (g : Graph)

/-! ## Nodes and edges -/

/-- The registry of a later graph leads to later handles. -/
theorem lookup_registry_later (k : Key) :
    (g.later d).registry.lookup k = (g.registry.lookup k).map (NodeId.later d) :=
  Table.lookup_mapValues _ _ _

/-- A key has the later handle in a later graph. -/
theorem lookup_later (k : Key) : (g.later d).lookup k = (g.lookup k).map (NodeId.later d) :=
  lookup_registry_later d g k

/-- The nodes of a later graph are later nodes. -/
theorem getElem?_nodes_later (i : Nat) :
    (g.later d).nodes[i]? = g.nodes[i]?.map (Node.later d) := by
  simp [later]

/-- The edges of a later graph are later edges. -/
theorem getElem?_edges_later (i : Nat) :
    (g.later d).edges[i]? = g.edges[i]?.map (Edge.later d) := by
  simp [later]

/-- Changing a node does not depend on the generation if the change does not. -/
theorem adjust_later {f f' : Node → Node} (hf : ∀ n : Node, f' (n.later d) = (f n).later d)
    (id : NodeId) : (g.later d).adjust (id.later d) f' = (g.adjust id f).later d := by
  have hnodes : (g.nodes.map (Node.later d)).modify id.index f' =
      (g.nodes.modify id.index f).map (Node.later d) := by
    apply Array.ext_getElem?
    intro i
    rw [Array.getElem?_modify, Array.getElem?_map, Array.getElem?_map, Array.getElem?_modify]
    by_cases hi : id.index = i
    · cases g.nodes[i]? <;> simp [hi, hf]
    · simp [hi]
  simp [adjust, later, NodeId.later, hnodes]

/-- Adding a node does not depend on the generation. -/
theorem addNode_later (n : Node) : (g.later d).addNode (n.later d) =
    ((g.addNode n).1.later d, (g.addNode n).2.later d) := by
  have hid : (⟨g.generation + d, g.nodes.size⟩ : NodeId) =
      NodeId.later d ⟨g.generation, g.nodes.size⟩ := rfl
  simp [addNode, later, Node.later, hid]

/-- Interning does not depend on the generation. -/
theorem intern_later (k : Key) (source : Option Source) : (g.later d).intern k source =
    ((g.intern k source).1.later d, (g.intern k source).2.later d) := by
  have hlookup := lookup_registry_later d g k
  cases h : g.registry.lookup k with
  | some id =>
    rw [h, Option.map_some] at hlookup
    rw [intern_of_lookup hlookup, intern_of_lookup h]
  | none =>
    rw [h, Option.map_none] at hlookup
    rw [intern_of_lookup_none hlookup, intern_of_lookup_none h]
    exact addNode_later d g { key := k, source := source }

/-- Finding the edge between two ends does not depend on the generation. -/
theorem edgeBetween_later (caller : Option Key) (callee : NodeId) :
    (g.later d).edgeBetween caller (callee.later d) =
      (g.edgeBetween caller callee).map (EdgeId.later d) := by
  unfold edgeBetween
  rw [getElem?_nodes_later]
  simp only [NodeId.later]
  cases g.nodes[callee.index]? with
  | none => rfl
  | some n => cases caller <;> simp [Node.later]

/-- Pushing an edge does not depend on the generation. -/
theorem pushEdge_later (e : Edge) :
    { g.later d with edges := (g.later d).edges.push (e.later d) } =
      ({ g with edges := g.edges.push e } : Graph).later d := by
  simp [later]

/-- Setting the slot for calls from outside does not depend on the generation. -/
theorem adjust_rootEdge_later (id : EdgeId) (callee : NodeId) :
    ((g.later d).adjust (callee.later d) fun n => { n with rootEdge := some (id.later d) }) =
      (g.adjust callee fun n => { n with rootEdge := some id }).later d := by
  apply adjust_later
  intro n
  rfl

/-- Inserting into the table of callers does not depend on the generation. -/
theorem adjust_callers_later (k : Key) (id : EdgeId) (callee : NodeId) :
    ((g.later d).adjust (callee.later d) fun n =>
        { n with callers := n.callers.insert k (id.later d) }) =
      (g.adjust callee fun n => { n with callers := n.callers.insert k id }).later d := by
  apply adjust_later
  intro n
  simp [Node.later]

/-- Inserting into the table of callees does not depend on the generation. -/
theorem adjust_callees_later (k : Key) (id : EdgeId) (caller : NodeId) :
    ((g.later d).adjust (caller.later d) fun n =>
        { n with callees := n.callees.insert k (id.later d) }) =
      (g.adjust caller fun n => { n with callees := n.callees.insert k id }).later d := by
  apply adjust_later
  intro n
  simp [Node.later]

/-- Adding an edge does not depend on the generation. -/
theorem addEdge_later (caller : Option Vertex) (callee : Vertex) :
    (g.later d).addEdge (caller.map (Vertex.later d)) (callee.later d) =
      ((g.addEdge caller callee).1.later d, (g.addEdge caller callee).2.later d) := by
  have hid : (⟨(g.later d).generation, (g.later d).edges.size⟩ : EdgeId) =
      EdgeId.later d ⟨g.generation, g.edges.size⟩ := by
    simp [later, EdgeId.later]
  have hpush := pushEdge_later d g ⟨caller.map Vertex.id, callee.id⟩
  unfold addEdge
  rw [hid]
  cases caller with
  | none =>
    simp only [Option.map_none, Vertex.later, Edge.later] at hpush ⊢
    rw [hpush, adjust_rootEdge_later]
  | some c =>
    simp only [Option.map_some, Vertex.later, Edge.later] at hpush ⊢
    rw [hpush, adjust_callers_later, adjust_callees_later]

/-- Linking two ends does not depend on the generation. -/
theorem link_later (caller : Option Vertex) (callee : Vertex) :
    (g.later d).link (caller.map (Vertex.later d)) (callee.later d) =
      ((g.link caller callee).1.later d, (g.link caller callee).2.later d) := by
  have hkey : (caller.map (Vertex.later d)).map Vertex.key = caller.map Vertex.key := by
    cases caller <;> rfl
  unfold link
  rw [hkey, show (callee.later d).id = callee.id.later d from rfl, edgeBetween_later]
  cases g.edgeBetween (caller.map Vertex.key) callee.id with
  | none => exact addEdge_later d g caller callee
  | some id => rfl

/-! ## Calls, returns and exclusions -/

/-- A method is open whatever the generation. -/
theorem isOpen_later (id : NodeId) : (g.later d).isOpen (id.later d) = g.isOpen id := by
  unfold isOpen later
  rw [List.any_map]
  congr 1
  funext f
  simp only [Function.comp, Frame.later, Vertex.later, NodeId.later_inj]

/-- Marking a node does not depend on the generation. -/
theorem mark_later (id : NodeId) : (g.later d).mark (id.later d) = (g.mark id).later d := by
  have hempty : (g.later d).stack.isEmpty = g.stack.isEmpty := List.isEmpty_map
  unfold mark
  rw [isOpen_later, hempty]
  apply adjust_later
  intro n
  rfl

/-- The innermost open call is that of the same vertex. -/
theorem head_later : (g.later d).stack.head?.map Frame.vertex =
    (g.stack.head?.map Frame.vertex).map (Vertex.later d) := by
  cases h : g.stack <;> simp [later, h, Frame.later]

/-- A call does not depend on the generation, and gives out later handles. -/
theorem enter_later (host : Host) (o : Observation) : (g.later d).enter host o =
    ((g.enter host o).1.later d, (g.enter host o).2.1.later d, (g.enter host o).2.2.later d) := by
  have hintern' := intern_later d g (o.key host) o.source
  cases hintern : g.intern (o.key host) o.source with
  | mk g₁ id =>
    rw [hintern] at hintern'
    have hlink' : ((g₁.mark id).later d).link
        ((g₁.stack.head?.map Frame.vertex).map (Vertex.later d)) ⟨id.later d, o.key host⟩ = _ :=
      link_later d (g₁.mark id) (g₁.stack.head?.map Frame.vertex) ⟨id, o.key host⟩
    cases hlink : (g₁.mark id).link (g₁.stack.head?.map Frame.vertex) ⟨id, o.key host⟩ with
    | mk g₂ edge =>
      rw [hlink] at hlink'
      simp only [enter, hintern, hintern', mark_later, head_later, hlink, hlink']
      simp [later, Frame.later, Vertex.later, Notice.later, EdgeId.later]

/-- A return does not depend on the generation, and gives out later handles. -/
theorem leave_later : (g.later d).leave =
    (g.leave.1.later d, g.leave.2.map (Prod.map (NodeId.later d) (Notice.later d))) := by
  unfold leave
  cases h : g.stack with
  | nil => simp [later, h]
  | cons f rest =>
    simp [later, h, Frame.later, Vertex.later, Notice.later, EdgeId.later]

/-- An exclusion does not depend on the generation, and gives out a later handle. -/
theorem exclude_later (host : Host) (k : Key) : (g.later d).exclude host k =
    ((g.exclude host k).1.later d, (g.exclude host k).2.later d) := by
  have hlookup := lookup_registry_later d g (k.canonical host)
  unfold exclude
  cases h : g.registry.lookup (k.canonical host) with
  | some id =>
    simp only [hlookup, h, Option.map_some]
    refine Prod.ext ?_ rfl
    apply adjust_later
    intro n
    rfl
  | none =>
    simp only [hlookup, h, Option.map_none]
    exact addNode_later d g { key := k.canonical host, excluded := true }

/-- A released graph is an empty one of a later generation. -/
theorem release_eq_later : g.release = empty.later (g.generation + 1) := by
  simp [release, later, empty]

/-- A release of a later graph leaves a later one. -/
theorem release_later : (g.later d).release = g.release.later d := by
  simp [release, later, Nat.add_right_comm]

/-! ## Loads and questions for an owner -/

/-- Taking in a caller does not depend on the generation. -/
theorem absorbCaller_later (host : Host) (v : Vertex) (c : CallRecord) :
    absorbCaller host (v.later d) (g.later d) c = (absorbCaller host v g c).later d := by
  unfold absorbCaller
  cases c.caller with
  | some peer =>
    simp only [intern_later]
    exact congrArg Prod.fst (link_later d _ (some ⟨_, _⟩) v)
  | none =>
    have hroot : ((g.later d).adjust (v.later d).id fun n => { n with root := true }) =
        (g.adjust v.id fun n => { n with root := true }).later d := by
      apply adjust_later
      intro n
      rfl
    simp only [hroot]
    exact congrArg Prod.fst (link_later d _ none v)

/-- Taking in a callee does not depend on the generation. -/
theorem absorbCallee_later (host : Host) (v : Vertex) (c : CallRecord) :
    absorbCallee host (v.later d) (g.later d) c = (absorbCallee host v g c).later d := by
  simp only [absorbCallee, intern_later]
  exact congrArg Prod.fst (link_later d _ (some v) ⟨_, _⟩)

/-- Steps that do not depend on the generation do not when they are repeated. -/
theorem foldl_later {α : Type} {step step' : Graph → α → Graph}
    (hstep : ∀ (g : Graph) a, step' (g.later d) a = (step g a).later d) (as : List α) :
    as.foldl step' (g.later d) = (as.foldl step g).later d :=
  List.foldl_hom (Graph.later d) hstep

/-- Taking in a record does not depend on the generation. -/
theorem absorb_later (host : Host) (r : Record) : (g.later d).absorb host r =
    ((g.absorb host r).1.later d, (g.absorb host r).2.later d) := by
  have hintern' := intern_later d g (r.key.canonical host) none
  cases hintern : g.intern (r.key.canonical host) none with
  | mk g₁ id =>
    rw [hintern] at hintern'
    have hdescribe : ((g₁.later d).adjust (id.later d) fun n =>
          { n with source := sourceOf r, recursive := n.recursive || r.recursive }) =
        (g₁.adjust id fun n =>
          { n with source := sourceOf r, recursive := n.recursive || r.recursive }).later d := by
      apply adjust_later
      intro n
      rfl
    have hcallers := fun g : Graph => foldl_later d g
      (fun g c => absorbCaller_later d g host ⟨id, r.key.canonical host⟩ c) r.callers
    have hcallees := fun g : Graph => foldl_later d g
      (fun g c => absorbCallee_later d g host ⟨id, r.key.canonical host⟩ c) r.callees
    simp only [Vertex.later] at hcallers hcallees
    simp only [absorb, hintern, hintern', hdescribe, hcallers, hcallees]

/-- A load of a record does not depend on the generation, and fails with the same error. -/
theorem load_later (host : Host) (r : Record) : (g.later d).load host r =
    Prod.map (later d) (NodeId.later d) <$> g.load host r := by
  unfold load
  cases recordProblem host r with
  | some problem => rfl
  | none =>
    rw [absorb_later]
    rfl

/-- A load of a value does not depend on the generation, and fails with the same error. -/
theorem loadValue_later (host : Host) (v : Json) : (g.later d).loadValue host v =
    Prod.map (later d) (NodeId.later d) <$> g.loadValue host v := by
  unfold loadValue
  cases recordOfJson v with
  | error e => rfl
  | ok r => exact load_later d g host r

/-! ## Questions -/

/-- A later handle denotes the later node, or is refused for the same reason. -/
theorem node_later (id : NodeId) : (g.later d).node (id.later d) = Node.later d <$> g.node id := by
  unfold node
  have hgen : (id.later d).generation ≠ (g.later d).generation ↔ id.generation ≠ g.generation := by
    simp [NodeId.later, later]
  by_cases h : id.generation ≠ g.generation
  · rw [if_pos h, if_pos (hgen.mpr h)]
    rfl
  · rw [if_neg h, if_neg (mt hgen.mp h), getElem?_nodes_later]
    simp only [NodeId.later]
    cases g.nodes[id.index]? <;> rfl

/-- A later handle denotes the later edge, or is refused for the same reason. -/
theorem edge_later (id : EdgeId) : (g.later d).edge (id.later d) = Edge.later d <$> g.edge id := by
  unfold edge
  have hgen : (id.later d).generation ≠ (g.later d).generation ↔ id.generation ≠ g.generation := by
    simp [EdgeId.later, later]
  by_cases h : id.generation ≠ g.generation
  · rw [if_pos h, if_pos (hgen.mpr h)]
    rfl
  · rw [if_neg h, if_neg (mt hgen.mp h), getElem?_edges_later]
    simp only [EdgeId.later]
    cases g.edges[id.index]? <;> rfl

/-- A later node is asked for its callers in the same way. -/
theorem callers_later (id : NodeId) :
    (g.later d).callers (id.later d) = List.map (EdgeId.later d) <$> g.callers id := by
  unfold callers
  rw [node_later]
  cases g.node id with
  | error e => rfl
  | ok n => exact congrArg Except.ok (incoming_later d n)

/-- A later node is asked for its callees in the same way. -/
theorem callees_later (id : NodeId) :
    (g.later d).callees (id.later d) = List.map (EdgeId.later d) <$> g.callees id := by
  unfold callees
  rw [node_later]
  cases g.node id with
  | error e => rfl
  | ok n => exact congrArg Except.ok (outgoing_later d n)

/-- The edge between later nodes is the later one. -/
theorem findEdge_later (caller : Option NodeId) (callee : NodeId) :
    (g.later d).findEdge (caller.map (NodeId.later d)) (callee.later d) =
      Option.map (EdgeId.later d) <$> g.findEdge caller callee := by
  unfold findEdge
  rw [node_later]
  cases g.node callee with
  | error e => rfl
  | ok n =>
    cases caller with
    | none => rfl
    | some id =>
      simp only [Option.map_some, node_later]
      cases g.node id with
      | error e => rfl
      | ok m => exact congrArg Except.ok (Table.lookup_mapValues (EdgeId.later d) n.callers m.key)

/-- A later node is asked for its canonical owner in the same way. -/
theorem resolve_later (host : Host) (id : NodeId) : (g.later d).resolve host (id.later d) =
    (fun out => (out.1.later d, out.2)) <$> g.resolve host id := by
  have hadjust : ((g.later d).adjust (id.later d) fun n => n.remember host) =
      (g.adjust id fun n => n.remember host).later d := by
    apply adjust_later
    intro n
    rfl
  unfold resolve
  rw [node_later, hadjust]
  cases g.node id <;> rfl

/-- The call of an edge is told by the keys of its ends. -/
theorem callRecord_of_edge {g : Graph} {id : EdgeId} {e : Edge} (h : g.edge id = .ok e) :
    g.callRecord id = (do
      let caller ← e.caller.mapM fun c => Node.key <$> g.node c
      let callee ← g.node e.callee
      return ⟨caller, callee.key⟩) := by
  rw [callRecord, h]
  rfl

/-- The call of a later edge is the same. -/
theorem callRecord_later (id : EdgeId) : (g.later d).callRecord (id.later d) = g.callRecord id := by
  cases he : g.edge id with
  | error err =>
    rw [callRecord, callRecord, edge_later, he]
    rfl
  | ok e =>
    have he' : (g.later d).edge (id.later d) = .ok (e.later d) := by
      rw [edge_later, he]
      rfl
    have hcaller : (e.later d).caller.mapM (fun c => Node.key <$> (g.later d).node c) =
        e.caller.mapM fun c => Node.key <$> g.node c := by
      cases hc : e.caller with
      | none => simp [Edge.later, hc]
      | some c =>
        simp only [Edge.later, hc, Option.map_some, Option.mapM_some, node_later]
        cases g.node c <;> rfl
    have hcallee : (g.later d).node (e.later d).callee = Node.later d <$> g.node e.callee :=
      node_later d g e.callee
    rw [callRecord_of_edge he, callRecord_of_edge he', hcaller, hcallee]
    cases g.node e.callee <;> rfl

/-- The calls of edges do not depend on the generation. -/
theorem mapM_callRecord_later (es : List EdgeId) :
    (es.map (EdgeId.later d)).mapM (g.later d).callRecord = es.mapM g.callRecord := by
  induction es with
  | nil => rfl
  | cons e rest ih => rw [List.map_cons, List.mapM_cons, List.mapM_cons, callRecord_later, ih]

/-- The record of a node is its key and what it says of its method, with the calls of its edges
sorted. -/
theorem dump_of_node {g : Graph} {id : NodeId} {n : Node} (h : g.node id = .ok n) :
    g.dump id = (do
      let callers ← n.incoming.mapM g.callRecord
      let callees ← n.outgoing.mapM g.callRecord
      return ⟨n.key, n.recursive, n.source.map Source.file, n.line, CallRecord.sort callers,
        CallRecord.sort callees⟩) := by
  rw [dump, h]
  rfl

/-- The record of a method does not depend on the generation. -/
theorem dump_later (id : NodeId) : (g.later d).dump (id.later d) = g.dump id := by
  cases hn : g.node id with
  | error e =>
    rw [dump, dump, node_later, hn]
    rfl
  | ok n =>
    have hn' : (g.later d).node (id.later d) = .ok (n.later d) := by
      rw [node_later, hn]
      rfl
    rw [dump_of_node hn, dump_of_node hn', incoming_later, outgoing_later, mapM_callRecord_later,
      mapM_callRecord_later]
    rfl

/-- The methods of a later graph are the later ones, in the same order. -/
theorem methods_later :
    (g.later d).methods = g.methods.map (Prod.map (NodeId.later d) (Node.later d)) := by
  have hzip : (g.later d).nodes.toList.zipIdx =
      g.nodes.toList.zipIdx.map (Prod.map (Node.later d) id) := by
    simp [later, List.zipIdx_map]
  unfold methods
  rw [hzip, List.filter_map, List.map_map, List.map_map]
  rfl

/-- The records of a graph do not depend on the generation. -/
theorem dumpAll_later : (g.later d).dumpAll = g.dumpAll := by
  unfold dumpAll
  rw [methods_later]
  induction g.methods with
  | nil => rfl
  | cons p rest ih =>
    rw [List.map_cons, List.mapM_cons, List.mapM_cons, ih]
    simp only [Prod.map_fst, dump_later]

/-! ## Actions -/

/-- What is kept if an action fails does not depend on the generation. -/
theorem orKeep_later {α β : Type} {f : α → β} (x : Except GraphError (Graph × α)) :
    (g.later d).orKeep (Prod.map (later d) f <$> x) = (g.orKeep x).later d := by
  cases x <;> rfl

/-- Every action does the same to a graph of a later generation. -/
theorem apply_later (a : Action) : (g.later d).apply (a.later d) = (g.apply a).later d := by
  cases a with
  | enter host o => exact congrArg Prod.fst (enter_later d g host o)
  | leave => exact congrArg Prod.fst (leave_later d g)
  | exclude host k => exact congrArg Prod.fst (exclude_later d g host k)
  | load host r =>
    simp only [apply, Action.later, load_later]
    exact orKeep_later d g _
  | loadValue host v =>
    simp only [apply, Action.later, loadValue_later]
    exact orKeep_later d g _
  | resolve host id =>
    simp only [apply, Action.later, resolve_later]
    cases g.resolve host id <;> rfl
  | release => exact release_later d g

end Graph

end CallGraph
