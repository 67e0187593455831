import CallGraph.Proofs.Growth
import CallGraph.Proofs.RoundTrip

/-!
# The life of a handle

A session gives out handles when it acts and when it is asked.  Each of them is alive when it is
given out, stays alive while its graph grows, and is dead from the next release on; and the handles
that are alive are those that every question accepts.

Main results:

- Theorems `Records.alive_told` and `Sound.alive_of_yields` say that no action and no question gives
  out a dead handle.
- Theorems `Records.accepts_of_alive` and `refuses_of_stale` say what a handle that is alive gets,
  and what one of another generation.
- Theorem `accepts_or_refuses_of_issued` says that a handle is accepted up to the next release and
  refused ever after.
-/

namespace CallGraph

/-- A handle to a node or to an edge. -/
inductive Handle where
  | node (id : NodeId)
  | edge (id : EdgeId)
  deriving DecidableEq, Repr

namespace Handle

/-- The generation of the graph that issued a handle. -/
def generation : Handle → Nat
  | node id => id.generation
  | edge id => id.generation

/-- The place in the arena that a handle points to. -/
def index : Handle → Nat
  | node id => id.index
  | edge id => id.index

/-- The error for a handle that outlived a release. -/
def released : Handle → GraphError
  | node id => .nodeReleased id.index
  | edge id => .edgeReleased id.index

end Handle

/-! ## Handles that are given out -/

/-- The handles in an edge. -/
def Edge.handles (e : Edge) : List Handle := .node e.callee :: (e.caller.map Handle.node).toList

/-- The handles that a listener is told. -/
def Notice.handles (notice : Notice) : List Handle :=
  .edge notice.edge :: (notice.ends.map Edge.handles).getD []

/-- The handles in a node. -/
def Node.handles (n : Node) : List Handle := (n.incoming ++ n.outgoing).map Handle.edge

namespace Graph

/-- The handle that comes back from a load. -/
def loaded : Except GraphError (Graph × NodeId) → List Handle
  | .ok (_, id) => [.node id]
  | .error _ => []

/-- The handles that an action gives out, to its caller and to a listener. -/
def told (g : Graph) : Action → List Handle
  | .enter host o => .node (g.enter host o).2.1 :: (g.enter host o).2.2.handles
  | .leave =>
    match g.leave.2 with
    | some (id, notice) => .node id :: notice.handles
    | none => []
  | .exclude host k => [.node (g.exclude host k).2]
  | .load host r => loaded (g.load host r)
  | .loadValue host v => loaded (g.loadValue host v)
  | .resolve _ _ => []
  | .release => []

/-- The handles that are in the answers to questions about a graph. -/
inductive Yields (g : Graph) : Handle → Prop
  | lookup {k : Key} {id : NodeId} (h : g.lookup k = some id) : Yields g (.node id)
  | methods {id : NodeId} {n : Node} (h : (id, n) ∈ g.methods) : Yields g (.node id)
  | node {id : NodeId} {n : Node} (h : g.node id = .ok n) {handle : Handle}
      (hmem : handle ∈ n.handles) : Yields g handle
  | edge {id : EdgeId} {e : Edge} (h : g.edge id = .ok e) {handle : Handle}
      (hmem : handle ∈ e.handles) : Yields g handle
  | callers {id : NodeId} {es : List EdgeId} (h : g.callers id = .ok es) {e : EdgeId}
      (hmem : e ∈ es) : Yields g (.edge e)
  | callees {id : NodeId} {es : List EdgeId} (h : g.callees id = .ok es) {e : EdgeId}
      (hmem : e ∈ es) : Yields g (.edge e)
  | findEdge {caller : Option NodeId} {callee : NodeId} {e : EdgeId}
      (h : g.findEdge caller callee = .ok (some e)) : Yields g (.edge e)

/-- The handles that a new graph gives out right at the end of a history: by its last action, or in
the answer to a question after it. -/
inductive Issued : List Action → Handle → Prop
  | told {before : List Action} {a : Action} {h : Handle}
      (hmem : h ∈ (empty.applyAll before).told a) : Issued (before ++ [a]) h
  | asked {before : List Action} {h : Handle} (hyields : (empty.applyAll before).Yields h) :
      Issued before h

/-! ## Questions about handles -/

/-- Every question about a node has an answer. -/
structure AcceptsNode (g : Graph) (id : NodeId) : Prop where
  node : ∃ n, g.node id = .ok n
  callers : ∃ es, g.callers id = .ok es
  callees : ∃ es, g.callees id = .ok es
  dump : ∃ r, g.dump id = .ok r
  /-- Edges to the node can be asked for. -/
  callee : ∀ caller, (∀ c, caller = some c → ∃ m, g.node c = .ok m) →
    ∃ e, g.findEdge caller id = .ok e
  /-- Edges from the node can be asked for. -/
  caller : ∀ callee n, g.node callee = .ok n → ∃ e, g.findEdge (some id) callee = .ok e

/-- Every question about a node fails in the same way. -/
structure RefusesNode (g : Graph) (id : NodeId) (e : GraphError) : Prop where
  node : g.node id = .error e
  callers : g.callers id = .error e
  callees : g.callees id = .error e
  dump : g.dump id = .error e
  /-- An edge to the node cannot be asked for, whatever its caller. -/
  callee : ∀ caller, g.findEdge caller id = .error e
  /-- An edge from the node cannot be asked for, once its callee has passed. -/
  caller : ∀ callee n, g.node callee = .ok n → g.findEdge (some id) callee = .error e

/-- Every question about a handle has an answer. -/
def Accepts (g : Graph) : Handle → Prop
  | .node id => g.AcceptsNode id
  | .edge id => ∃ e, g.edge id = .ok e

/-- Every question about a handle fails in the same way. -/
def Refuses (g : Graph) (h : Handle) (e : GraphError) : Prop :=
  match h with
  | .node id => g.RefusesNode id e
  | .edge id => g.edge id = .error e

/-- A node that is refused is refused by every question. -/
theorem refusesNode_of_node {g : Graph} {id : NodeId} {e : GraphError} (h : g.node id = .error e) :
    g.RefusesNode id e where
  node := h
  callers := by simp [callers, h, Functor.map, Except.map]
  callees := by simp [callees, h, Functor.map, Except.map]
  dump := by simp [Graph.dump, h, bind, Except.bind]
  callee caller := by simp [findEdge, h, bind, Except.bind]
  caller callee n hn := by simp [findEdge, h, hn, bind, Except.bind]

/-- A handle of another generation is refused as released. -/
theorem refuses_of_stale {g : Graph} {h : Handle} (hgen : h.generation ≠ g.generation) :
    g.Refuses h h.released := by
  cases h with
  | node id => exact refusesNode_of_node (node_of_stale hgen)
  | edge id => exact edge_of_stale hgen

/-! ## Handles that are alive -/

/-- A handle that denotes something. -/
def Alive (g : Graph) : Handle → Prop
  | .node id => ∃ k, g.Has ⟨id, k⟩
  | .edge id => ∃ e, g.Joins id e

/-- A handle that is alive is of the generation of its graph. -/
theorem Alive.generation_eq {g : Graph} {h : Handle} (ha : g.Alive h) :
    h.generation = g.generation := by
  cases h with
  | node id =>
    rcases ha with ⟨k, hk⟩
    exact hk.generation
  | edge id =>
    rcases ha with ⟨e, he⟩
    exact he.generation

/-- A handle stays alive while its graph grows. -/
theorem Alive.mono {g g' : Graph} {h : Handle} (ha : g.Alive h) (hext : g.Extends g') :
    g'.Alive h := by
  cases h with
  | node id =>
    rcases ha with ⟨k, hk⟩
    exact ⟨k, hk.mono hext⟩
  | edge id =>
    rcases ha with ⟨e, he⟩
    exact ⟨e, he.mono hext⟩

/-- A handle to a node is alive exactly if its node can be asked for. -/
theorem alive_node_iff {g : Graph} {id : NodeId} :
    g.Alive (.node id) ↔ ∃ n, g.node id = .ok n := by
  constructor
  · rintro ⟨k, hk⟩
    rcases has_iff_node.mp hk with ⟨n, hn, -⟩
    exact ⟨n, hn⟩
  · rintro ⟨n, hn⟩
    exact ⟨n.key, has_of_node hn⟩

/-- A handle to an edge is alive exactly if its edge can be asked for. -/
theorem alive_edge_iff {g : Graph} {id : EdgeId} :
    g.Alive (.edge id) ↔ ∃ e, g.edge id = .ok e := by
  simp only [Alive, joins_iff_edge]

/-- A handle that is alive is accepted by every question. -/
theorem Records.accepts_of_alive {g : Graph} {l : Ledger} (hrec : g.Records l)
    (hl : l.Consistent) {h : Handle} (ha : g.Alive h) : g.Accepts h := by
  cases h with
  | edge id => exact alive_edge_iff.mp ha
  | node id =>
    rcases alive_node_iff.mp ha with ⟨n, hn⟩
    have hanswers := hrec.sound.answers
    refine ⟨⟨n, hn⟩, ?_, ?_, ⟨_, hrec.dump hl hn⟩, ?_, ?_⟩
    · rcases hanswers.callers id n hn with ⟨es, hes, -⟩
      exact ⟨es, hes⟩
    · rcases hanswers.callees id n hn with ⟨es, hes, -⟩
      exact ⟨es, hes⟩
    · intro caller hcaller
      rcases hanswers.findEdge caller id n hcaller hn with ⟨e, he, -⟩
      exact ⟨e, he⟩
    · intro callee m hm
      have hcaller : ∀ c, some id = some c → ∃ m, g.node c = .ok m := by
        rintro c ⟨⟩
        exact ⟨n, hn⟩
      rcases hanswers.findEdge (some id) callee m hcaller hm with ⟨e, he, -⟩
      exact ⟨e, he⟩

/-! ## What is given out is alive -/

/-- A load gives out the handle of its node, and none if it fails. -/
theorem mem_loaded_iff {result : Except GraphError (Graph × NodeId)} {h : Handle} :
    h ∈ loaded result ↔ ∃ g id, result = .ok (g, id) ∧ h = .node id := by
  unfold loaded
  split <;> simp

/-- The handles in a node are those of its incoming and outgoing edges. -/
theorem mem_handles_node {n : Node} {e : EdgeId} :
    .edge e ∈ n.handles ↔ e ∈ n.incoming ∨ e ∈ n.outgoing := by
  simp [Node.handles]

section Sound

variable {g : Graph} (hg : g.Sound)

include hg

/-- The ends of an edge are alive. -/
theorem Sound.alive_of_mem_ends {id : EdgeId} {e : Edge} (hjoin : g.Joins id e) {h : Handle}
    (hmem : h ∈ e.handles) : g.Alive h := by
  rcases hg.vertices hjoin with ⟨caller, callee, rfl, hcaller, hcallee⟩
  simp only [Edge.handles, List.mem_cons, Option.map_map, Option.mem_toList] at hmem
  rcases hmem with rfl | hmem
  · exact ⟨callee.key, hcallee⟩
  · rcases Option.map_eq_some_iff.mp hmem with ⟨v, hv, rfl⟩
    exact ⟨v.key, hcaller v hv⟩

/-- The edges that a node lists are alive. -/
theorem Sound.alive_of_mem_node {id : NodeId} {n : Node} (hn : g.node id = .ok n) {h : Handle}
    (hmem : h ∈ n.handles) : g.Alive h := by
  rcases List.mem_map.mp hmem with ⟨e, he, rfl⟩
  rcases List.mem_append.mp he with he | he
  · rcases (hg.mem_incoming hn).mp he with ⟨caller, hjoin⟩
    exact ⟨_, hjoin⟩
  · rcases (hg.mem_outgoing hn).mp he with ⟨callee, hjoin⟩
    exact ⟨_, hjoin⟩

/-- No question gives out a dead handle. -/
theorem Sound.alive_of_yields {h : Handle} (hyields : g.Yields h) : g.Alive h := by
  cases hyields with
  | lookup h => exact ⟨_, (hg.registry _ _).mp h⟩
  | methods h => exact alive_node_iff.mpr ⟨_, node_of_mem_methods h⟩
  | node h hmem => exact hg.alive_of_mem_node h hmem
  | edge h hmem => exact hg.alive_of_mem_ends (joins_iff_edge.mpr h) hmem
  | callers h hmem =>
    rcases map_eq_ok_iff.mp h with ⟨n, hn, rfl⟩
    exact hg.alive_of_mem_node hn (mem_handles_node.mpr (Or.inl hmem))
  | callees h hmem =>
    rcases map_eq_ok_iff.mp h with ⟨n, hn, rfl⟩
    exact hg.alive_of_mem_node hn (mem_handles_node.mpr (Or.inr hmem))
  | @findEdge caller callee e h =>
    rcases bind_eq_ok_iff.mp h with ⟨n, hn, hfound⟩
    cases caller with
    | none =>
      exact ⟨_, ((hg.indexes_of_node hn).rootEdge e).mp (Except.ok.inj hfound)⟩
    | some c =>
      rcases bind_eq_ok_iff.mp hfound with ⟨m, -, hlookup⟩
      rcases ((hg.indexes_of_node hn).callers m.key e).mp (Except.ok.inj hlookup) with
        ⟨c', -, hjoin⟩
      exact ⟨_, hjoin⟩

/-- The innermost open call and its edge are alive, with the ends that a listener is told. -/
theorem Sound.alive_of_mem_head {f : Frame} {rest : List Frame} (hstack : g.stack = f :: rest)
    {h : Handle} (hmem : h ∈ Handle.node f.vertex.id ::
      (Notice.mk f.edge g.edges[f.edge.index]?).handles) : g.Alive h := by
  have hpath := hg.path
  rw [hstack] at hpath
  cases hpath with
  | cons vertex edge _ =>
    simp only [Notice.handles, edge.ends, Option.map_some, Option.getD_some, List.mem_cons] at hmem
    rcases hmem with rfl | rfl | hmem
    · exact ⟨f.vertex.key, vertex⟩
    · exact ⟨_, edge⟩
    · exact hg.alive_of_mem_ends edge hmem

end Sound

section Told

variable {g : Graph} {l : Ledger} (hrec : g.Records l) (host : Host) {h : Handle}

include hrec

/-- A call gives out handles that are alive. -/
theorem Records.alive_of_mem_enter (o : Observation)
    (hmem : h ∈ g.told (.enter host o)) : (g.apply (.enter host o)).Alive h := by
  rcases stack_enter g host o with ⟨f, hstack, hvertex, hedge⟩
  have hid : f.vertex.id = (g.enter host o).2.1 := by rw [hvertex]
  have hends : (g.enter host o).2.2 =
      ⟨f.edge, (g.enter host o).1.edges[f.edge.index]?⟩ := by
    rw [hedge]
    rfl
  apply (hrec.enter host o).sound.alive_of_mem_head hstack
  rw [hid, ← hends]
  exact hmem

/-- So does a return. -/
theorem Records.alive_of_mem_leave (hmem : h ∈ g.told .leave) : (g.apply .leave).Alive h := by
  cases hstack : g.stack with
  | nil => simp [told, leave_of_stack_nil hstack] at hmem
  | cons f rest =>
    simp only [told, leave_of_stack_cons hstack] at hmem
    exact (hrec.sound.alive_of_mem_head hstack hmem).mono (extends_leave g)

/-- So does an exclusion. -/
theorem Records.alive_of_mem_exclude (k : Key) (hmem : h ∈ g.told (.exclude host k)) :
    (g.apply (.exclude host k)).Alive h := by
  have hv := hrec.sound.has_intern (k.canonical host) none
  rw [told, List.mem_singleton, exclude_snd] at hmem
  rw [hmem, Graph.apply, exclude_fst]
  exact ⟨_, hv.mono (extends_adjust keepsLinks_excluded _ _)⟩

/-- So does a load. -/
theorem Records.alive_of_mem_load (r : Record) (hmem : h ∈ g.told (.load host r)) :
    (g.apply (.load host r)).Alive h := by
  rcases mem_loaded_iff.mp hmem with ⟨g', id, hload, rfl⟩
  rcases load_eq_ok_iff.mp hload with ⟨hproblem, habsorb⟩
  have hv := (hrec.absorb host r).2
  rw [apply_load, if_pos hproblem]
  rw [habsorb] at hv ⊢
  exact ⟨_, hv⟩

/-- So does a load of a value. -/
theorem Records.alive_of_mem_loadValue (v : Json) (hmem : h ∈ g.told (.loadValue host v)) :
    (g.apply (.loadValue host v)).Alive h := by
  rcases mem_loaded_iff.mp hmem with ⟨g', id, hload, rfl⟩
  rcases bind_eq_ok_iff.mp hload with ⟨r, hr, hload⟩
  simp only [apply_loadValue, hr]
  exact hrec.alive_of_mem_load host r (mem_loaded_iff.mpr ⟨g', id, hload, rfl⟩)

/-- No action gives out a dead handle. -/
theorem Records.alive_told {a : Action} (hmem : h ∈ g.told a) : (g.apply a).Alive h := by
  cases a with
  | enter host o => exact hrec.alive_of_mem_enter host o hmem
  | leave => exact hrec.alive_of_mem_leave hmem
  | exclude host k => exact hrec.alive_of_mem_exclude host k hmem
  | load host r => exact hrec.alive_of_mem_load host r hmem
  | loadValue host v => exact hrec.alive_of_mem_loadValue host v hmem
  | resolve host id => simp [told] at hmem
  | release => simp [told] at hmem

end Told

/-! ## Lives -/

/-- A handle that was issued is alive. -/
theorem alive_of_issued {before : List Action} {h : Handle} (hissued : Issued before h) :
    (empty.applyAll before).Alive h := by
  cases hissued with
  | @told earlier a h hmem =>
    rw [applyAll_append]
    exact (records_applyAll earlier).alive_told hmem
  | asked hyields => exact (records_applyAll before).sound.alive_of_yields hyields

/-- A handle is accepted up to the next release and refused ever after, even if its index comes
to be used again. -/
theorem accepts_or_refuses_of_issued {before : List Action} {h : Handle}
    (hissued : Issued before h) (later : List Action) :
    (.release ∉ later → (empty.applyAll (before ++ later)).Accepts h) ∧
      (.release ∈ later → (empty.applyAll (before ++ later)).Refuses h h.released) := by
  have halive := alive_of_issued hissued
  constructor
  · intro hrelease
    have hlater := halive.mono (extends_applyAll _ hrelease)
    rw [← applyAll_append] at hlater
    exact (records_applyAll _).accepts_of_alive (Ledger.consistent_empty.applyAll _) hlater
  · intro hrelease
    apply refuses_of_stale
    rw [applyAll_append, generation_applyAll, halive.generation_eq]
    have hpos := Action.releases_pos_iff.mpr hrelease
    omega

/-- A node of a small session is accepted, and refused once its index names a newer node. -/
theorem accepts_or_refuses_of_issued_kernelActions :
    Issued kernelActions (.node ⟨0, 1⟩) ∧
      (empty.applyAll kernelActions).Accepts (.node ⟨0, 1⟩) ∧
      (empty.applyAll (kernelActions ++ .release :: kernelActions)).Refuses (.node ⟨0, 1⟩)
        (.nodeReleased 1) ∧
      Issued (kernelActions ++ .release :: kernelActions) (.node ⟨1, 1⟩) := by
  have hfirst : (empty.applyAll kernelActions).lookup ⟨some ⟨4⟩, some ⟨13⟩⟩ = some ⟨0, 1⟩ := by
    decide
  have hsecond : (empty.applyAll (kernelActions ++ .release :: kernelActions)).lookup
      ⟨some ⟨4⟩, some ⟨13⟩⟩ = some ⟨1, 1⟩ := by decide
  have hissued : Issued kernelActions (.node ⟨0, 1⟩) := .asked (.lookup hfirst)
  have haccepts := (accepts_or_refuses_of_issued hissued []).1 (by simp)
  rw [List.append_nil] at haccepts
  exact ⟨hissued, haccepts,
    (accepts_or_refuses_of_issued hissued (.release :: kernelActions)).2 (by simp),
    .asked (.lookup hsecond)⟩

end Graph

end CallGraph
