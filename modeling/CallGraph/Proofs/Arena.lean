import CallGraph.Proofs.Action

/-!
# Soundness of the arenas of a call graph

A call graph tells every edge several times: in the arena of edges, in the tables of its two ends,
or in the slot of its callee for calls from outside.  A sound graph tells one edge set in all of
them.  The registry and the arena of nodes are in bijection, every handle that is kept anywhere is
alive, and the open calls form a path.

Main results:

- Theorem `Sound.edgeBetween_iff` says that looking at the callee alone finds the edge of a pair.
- Theorems `Sound.intern`, `Sound.adjust` and `Sound.link` say that the three operations from which
  every action is made keep a graph sound.
-/

namespace CallGraph

namespace Graph

/-! ## What handles denote -/

/-- The keys of the nodes, in order of creation. -/
def keys (g : Graph) : List Key := g.nodes.toList.map Node.key

/-- A vertex of a graph: its handle is alive and denotes the node of its key. -/
structure Has (g : Graph) (v : Vertex) : Prop where
  generation : v.id.generation = g.generation
  key : g.keys[v.id.index]? = some v.key

/-- The edge of a handle: the handle is alive and denotes an edge with the given ends. -/
structure Joins (g : Graph) (id : EdgeId) (e : Edge) : Prop where
  generation : id.generation = g.generation
  ends : g.edges[id.index]? = some e

/-- Every handle of the first graph denotes the same in the second one. -/
structure Extends (g g' : Graph) : Prop where
  generation : g'.generation = g.generation
  keys : ∀ (i : Nat) (k : Key), g.keys[i]? = some k → g'.keys[i]? = some k
  edges : ∀ (i : Nat) (e : Edge), g.edges[i]? = some e → g'.edges[i]? = some e

/-- A graph extends itself. -/
theorem Extends.refl (g : Graph) : g.Extends g :=
  ⟨rfl, fun _ _ h => h, fun _ _ h => h⟩

/-- A graph that extends one that extends a third extends the third. -/
theorem Extends.trans {g g' g'' : Graph} (h : g.Extends g') (h' : g'.Extends g'') :
    g.Extends g'' :=
  ⟨h'.generation.trans h.generation, fun i k hk => h'.keys i k (h.keys i k hk),
    fun i e he => h'.edges i e (h.edges i e he)⟩

/-- A vertex stays one while the graph grows. -/
theorem Has.mono {g g' : Graph} {v : Vertex} (h : g.Has v) (hext : g.Extends g') : g'.Has v :=
  ⟨h.generation.trans hext.generation.symm, hext.keys _ _ h.key⟩

/-- An edge keeps its ends while the graph grows. -/
theorem Joins.mono {g g' : Graph} {id : EdgeId} {e : Edge} (h : g.Joins id e)
    (hext : g.Extends g') : g'.Joins id e :=
  ⟨h.generation.trans hext.generation.symm, hext.edges _ _ h.ends⟩

/-- A live handle is known by its index. -/
theorem Has.index_eq_iff {g : Graph} {v : Vertex} (h : g.Has v) {i : Nat} :
    v.id.index = i ↔ v.id = ⟨g.generation, i⟩ := by
  rw [← h.generation]
  constructor
  · intro hi
    rw [← hi]
  · intro hid
    rw [hid]

/-- A handle denotes one node only. -/
theorem Has.key_unique {g : Graph} {id : NodeId} {k k' : Key} (h : g.Has ⟨id, k⟩)
    (h' : g.Has ⟨id, k'⟩) : k = k' := by
  have hk := h.key.symm.trans h'.key
  simpa using hk

/-- A handle that is alive denotes the same in every graph that extends this one. -/
theorem Has.iff_of_extends {g g' : Graph} {id : NodeId} {k k' : Key} (h : g.Has ⟨id, k⟩)
    (hext : g.Extends g') : g'.Has ⟨id, k'⟩ ↔ g.Has ⟨id, k'⟩ := by
  constructor
  · intro h'
    have hk := (h.mono hext).key_unique h'
    exact hk ▸ h
  · intro h'
    exact h'.mono hext

/-- A handle denotes one edge only. -/
theorem Joins.ends_unique {g : Graph} {id : EdgeId} {e e' : Edge} (h : g.Joins id e)
    (h' : g.Joins id e') : e = e' := by
  have he := h.ends.symm.trans h'.ends
  simpa using he

/-- The key at an index is that of the node there. -/
theorem getElem?_keys (g : Graph) (i : Nat) : g.keys[i]? = g.nodes[i]?.map Node.key := by
  simp [keys]

/-- A live handle denotes the node of its key. -/
theorem has_iff_node {g : Graph} {v : Vertex} :
    g.Has v ↔ ∃ n, g.node v.id = .ok n ∧ n.key = v.key := by
  constructor
  · intro h
    have hkey := h.key
    rw [getElem?_keys, Option.map_eq_some_iff] at hkey
    rcases hkey with ⟨n, hn, hk⟩
    exact ⟨n, node_eq_ok_iff.mpr ⟨h.generation, hn⟩, hk⟩
  · rintro ⟨n, hn, hk⟩
    rcases node_eq_ok_iff.mp hn with ⟨hgen, hnode⟩
    exact ⟨hgen, by rw [getElem?_keys, hnode, Option.map_some, hk]⟩

/-- An edge that is joined is one whose handle is accepted. -/
theorem joins_iff_edge {g : Graph} {id : EdgeId} {e : Edge} : g.Joins id e ↔ g.edge id = .ok e := by
  rw [edge_eq_ok_iff]
  exact ⟨fun h => ⟨h.generation, h.ends⟩, fun h => ⟨h.1, h.2⟩⟩

/-! ## The invariant -/

/-- Open calls form a path: the innermost call came by an edge from the one below it, and the
outermost one from outside any method. -/
inductive Path (g : Graph) : List Frame → Prop
  | nil : Path g []
  | cons {f : Frame} {rest : List Frame} (vertex : g.Has f.vertex)
      (edge : g.Joins f.edge ⟨rest.head?.map fun below => below.vertex.id, f.vertex.id⟩)
      (below : Path g rest) : Path g (f :: rest)

/-- The tables of a node hold exactly the edges that touch it, each under the key of its peer. -/
structure Indexes (g : Graph) (id : NodeId) (n : Node) : Prop where
  callers : ∀ k e, n.callers.lookup k = some e ↔ ∃ c, g.Has ⟨c, k⟩ ∧ g.Joins e ⟨some c, id⟩
  callees : ∀ k e, n.callees.lookup k = some e ↔ ∃ b, g.Has ⟨b, k⟩ ∧ g.Joins e ⟨some id, b⟩
  rootEdge : ∀ e, n.rootEdge = some e ↔ g.Joins e ⟨none, id⟩

/-- A graph whose registry, arenas, tables and open calls agree. -/
structure Sound (g : Graph) : Prop where
  registry : ∀ k id, g.registry.lookup k = some id ↔ g.Has ⟨id, k⟩
  callee : ∀ id e, g.Joins id e → ∃ k, g.Has ⟨e.callee, k⟩
  caller : ∀ id c b, g.Joins id ⟨some c, b⟩ → ∃ k, g.Has ⟨c, k⟩
  indexes : ∀ i n, g.nodes[i]? = some n → g.Indexes ⟨g.generation, i⟩ n
  path : g.Path g.stack

/-- Open calls stay a path while the graph grows. -/
theorem Path.mono {g g' : Graph} {frames : List Frame} (h : g.Path frames)
    (hext : g.Extends g') : g'.Path frames := by
  induction h with
  | nil => exact .nil
  | cons vertex edge _ ih => exact .cons (vertex.mono hext) (edge.mono hext) ih

/-- The innermost open call is a vertex. -/
theorem Path.has_head {g : Graph} {frames : List Frame} (h : g.Path frames) {f : Frame}
    (hf : frames.head? = some f) : g.Has f.vertex := by
  cases h with
  | nil => simp at hf
  | cons vertex _ _ =>
    simp only [List.head?_cons, Option.some.injEq] at hf
    exact hf ▸ vertex

/-- A graph in which nothing has happened yet is sound, whatever its generation. -/
theorem sound_fresh (generation : Nat) : ({ generation := generation } : Graph).Sound where
  registry k id := by
    constructor
    · intro h
      simp at h
    · intro h
      have hkey := h.key
      simp [keys] at hkey
  callee id e h := by
    have he := h.ends
    simp at he
  caller id c b h := by
    have he := h.ends
    simp at he
  indexes i n h := by simp at h
  path := .nil

namespace Sound

variable {g : Graph} (hg : g.Sound)

include hg

/-- A key has one node only. -/
theorem id_unique {a b : NodeId} {k : Key} (ha : g.Has ⟨a, k⟩) (hb : g.Has ⟨b, k⟩) : a = b := by
  have hab := ((hg.registry k a).mpr ha).symm.trans ((hg.registry k b).mpr hb)
  simpa using hab

/-- Looking at the callee alone finds the edge of a pair. -/
theorem edgeBetween_iff {caller : Option Vertex} {callee : Vertex} {id : EdgeId}
    (hcaller : ∀ c, caller = some c → g.Has c) (hcallee : g.Has callee) :
    g.edgeBetween (caller.map Vertex.key) callee.id = some id ↔
      g.Joins id ⟨caller.map Vertex.id, callee.id⟩ := by
  rcases has_iff_node.mp hcallee with ⟨n, hn, -⟩
  rcases node_eq_ok_iff.mp hn with ⟨hgen, hnode⟩
  have hself : (⟨g.generation, callee.id.index⟩ : NodeId) = callee.id := by rw [← hgen]
  have hidx := hg.indexes _ n hnode
  rw [hself] at hidx
  cases caller with
  | none => simpa [edgeBetween, hnode] using hidx.rootEdge id
  | some c =>
    have hc := hcaller c rfl
    simp only [edgeBetween, hnode, Option.map_some, Option.bind_some]
    rw [hidx.callers]
    constructor
    · rintro ⟨c', hc', hjoin⟩
      rw [hg.id_unique hc' hc] at hjoin
      exact hjoin
    · intro hjoin
      exact ⟨c.id, hc, hjoin⟩

/-- No two edges have the same ends. -/
theorem edge_unique {a b : EdgeId} {e : Edge} (ha : g.Joins a e) (hb : g.Joins b e) : a = b := by
  rcases hg.callee a e ha with ⟨k, hk⟩
  rcases e with ⟨_ | c, callee⟩
  · have hnone : ∀ v, (none : Option Vertex) = some v → g.Has v := by simp
    have hab := (hg.edgeBetween_iff hnone hk).mpr ha
    rw [(hg.edgeBetween_iff hnone hk).mpr hb] at hab
    simpa using hab.symm
  · rcases hg.caller a c callee ha with ⟨kc, hkc⟩
    have hcaller : ∀ v, some (⟨c, kc⟩ : Vertex) = some v → g.Has v := by
      intro v hv
      exact Option.some.inj hv ▸ hkc
    have hab := (hg.edgeBetween_iff hcaller hk).mpr ha
    rw [(hg.edgeBetween_iff hcaller hk).mpr hb] at hab
    simpa using hab.symm

/-- No edge leads to a handle that denotes nothing. -/
theorem not_joins_to {id : NodeId} (h : ∀ k, ¬ g.Has ⟨id, k⟩) (e : EdgeId)
    (caller : Option NodeId) : ¬ g.Joins e ⟨caller, id⟩ := by
  intro hjoin
  rcases hg.callee e _ hjoin with ⟨k, hk⟩
  exact h k hk

/-- No edge starts at a handle that denotes nothing. -/
theorem not_joins_from {id : NodeId} (h : ∀ k, ¬ g.Has ⟨id, k⟩) (e : EdgeId)
    (callee : NodeId) : ¬ g.Joins e ⟨some id, callee⟩ := by
  intro hjoin
  rcases hg.caller e id callee hjoin with ⟨k, hk⟩
  exact h k hk

/-- A graph that extends a sound one and has the same edges keeps the tables of its nodes. -/
theorem indexes_of_joins_iff {g' : Graph} (hext : g.Extends g')
    (hjoins : ∀ e p, g'.Joins e p ↔ g.Joins e p) {id : NodeId} {n : Node}
    (h : g.Indexes id n) : g'.Indexes id n where
  callers k e := by
    rw [h.callers]
    refine exists_congr fun c => ?_
    rw [hjoins]
    refine and_congr_left fun hjoin => ?_
    rcases hg.caller e c id hjoin with ⟨k', hk'⟩
    exact (hk'.iff_of_extends hext).symm
  callees k e := by
    rw [h.callees]
    refine exists_congr fun b => ?_
    rw [hjoins]
    refine and_congr_left fun hjoin => ?_
    rcases hg.callee e _ hjoin with ⟨k', hk'⟩
    exact (hk'.iff_of_extends hext).symm
  rootEdge e := by rw [h.rootEdge, hjoins]

/-! ## Changes that leave the edges alone -/

/-- A graph with the nodes and the edges of a sound one is sound if its tables give the same answers
and its open calls form a path. -/
theorem of_same {g' : Graph} (hext : g.Extends g') (hkeys : g'.keys = g.keys)
    (hedges : g'.edges = g.edges) (hreg : ∀ k, g'.registry.lookup k = g.registry.lookup k)
    (hnodes : ∀ (i : Nat) (n' : Node), g'.nodes[i]? = some n' →
      ∃ n, g.nodes[i]? = some n ∧ (∀ k, n'.callers.lookup k = n.callers.lookup k) ∧
        (∀ k, n'.callees.lookup k = n.callees.lookup k) ∧ n'.rootEdge = n.rootEdge)
    (hpath : g'.Path g'.stack) : g'.Sound := by
  have hhas : ∀ v, g'.Has v ↔ g.Has v := by
    intro v
    refine ⟨fun h => ⟨h.generation.trans hext.generation, ?_⟩, fun h => h.mono hext⟩
    rw [← hkeys]
    exact h.key
  have hjoins : ∀ e p, g'.Joins e p ↔ g.Joins e p := by
    intro e p
    refine ⟨fun h => ⟨h.generation.trans hext.generation, ?_⟩, fun h => h.mono hext⟩
    rw [← hedges]
    exact h.ends
  refine ⟨?_, ?_, ?_, ?_, hpath⟩
  · intro k id
    rw [hreg, hg.registry, hhas]
  · intro id e h
    simpa only [hhas] using hg.callee id e ((hjoins id e).mp h)
  · intro id c b h
    simpa only [hhas] using hg.caller id c b ((hjoins _ _).mp h)
  · intro i n' hn'
    rcases hnodes i n' hn' with ⟨n, hn, hcallers, hcallees, hroot⟩
    have hidx := hg.indexes_of_joins_iff hext hjoins (hg.indexes i n hn)
    rw [hext.generation]
    exact ⟨fun k e => by rw [hcallers]; exact hidx.callers k e,
      fun k e => by rw [hcallees]; exact hidx.callees k e, by rw [hroot]; exact hidx.rootEdge⟩

end Sound

/-! ## Changing flags -/

/-- A change of a node that leaves its key and its edges alone. -/
structure KeepsLinks (f : Node → Node) : Prop where
  key : ∀ n, (f n).key = n.key
  callers : ∀ n, (f n).callers = n.callers
  callees : ∀ n, (f n).callees = n.callees
  rootEdge : ∀ n, (f n).rootEdge = n.rootEdge

/-- Excluding a node leaves its key and its edges alone. -/
theorem keepsLinks_excluded : KeepsLinks fun n => { n with excluded := true } :=
  ⟨fun _ => rfl, fun _ => rfl, fun _ => rfl, fun _ => rfl⟩

/-- Marking a node as a root leaves its key and its edges alone. -/
theorem keepsLinks_root : KeepsLinks fun n => { n with root := true } :=
  ⟨fun _ => rfl, fun _ => rfl, fun _ => rfl, fun _ => rfl⟩

/-- Marking a node that is called leaves its key and its edges alone. -/
theorem keepsLinks_mark (g : Graph) (id : NodeId) :
    KeepsLinks fun n =>
      { n with root := n.root || g.stack.isEmpty, recursive := n.recursive || g.isOpen id } :=
  ⟨fun _ => rfl, fun _ => rfl, fun _ => rfl, fun _ => rfl⟩

/-- Describing a node by a record leaves its key and its edges alone. -/
theorem keepsLinks_describe (r : Record) :
    KeepsLinks fun n => { n with source := sourceOf r, recursive := n.recursive || r.recursive } :=
  ⟨fun _ => rfl, fun _ => rfl, fun _ => rfl, fun _ => rfl⟩

/-- A node that remembers its owner keeps its key and its edges. -/
theorem keepsLinks_remember (host : Host) : KeepsLinks fun n => n.remember host :=
  ⟨fun _ => rfl, fun _ => rfl, fun _ => rfl, fun _ => rfl⟩

/-- A change that leaves the links of nodes alone leaves their keys alone. -/
theorem keys_adjust {f : Node → Node} (hf : KeepsLinks f) (g : Graph) (id : NodeId) :
    (g.adjust id f).keys = g.keys := by
  apply List.ext_getElem?
  intro i
  simp only [getElem?_keys, adjust, Array.getElem?_modify]
  split
  · cases g.nodes[i]? <;> simp [hf.key]
  · rfl

/-- A change that leaves the links of nodes alone extends the graph. -/
theorem extends_adjust {f : Node → Node} (hf : KeepsLinks f) (g : Graph) (id : NodeId) :
    g.Extends (g.adjust id f) :=
  ⟨rfl, fun i k h => by rw [keys_adjust hf]; exact h, fun _ _ h => h⟩

/-- A change that leaves the links of nodes alone leaves a sound graph sound. -/
theorem Sound.adjust {g : Graph} (hg : g.Sound) {f : Node → Node} (hf : KeepsLinks f)
    (id : NodeId) : (g.adjust id f).Sound := by
  refine hg.of_same (extends_adjust hf g id) (keys_adjust hf g id) rfl (fun _ => rfl) ?_
    (hg.path.mono (extends_adjust hf g id))
  intro i n' hn'
  simp only [Graph.adjust, Array.getElem?_modify] at hn'
  split at hn'
  · rw [Option.map_eq_some_iff] at hn'
    rcases hn' with ⟨n, hn, rfl⟩
    exact ⟨n, hn, fun k => by rw [hf.callers], fun k => by rw [hf.callees], hf.rootEdge n⟩
  · exact ⟨n', hn', fun _ => rfl, fun _ => rfl, rfl⟩

/-- A change that leaves the node of a handle as it is leaves the graph as it is. -/
theorem adjust_eq_self {g : Graph} {id : NodeId} {f : Node → Node}
    (h : ∀ n, g.nodes[id.index]? = some n → f n = n) : g.adjust id f = g := by
  have hnodes : g.nodes.modify id.index f = g.nodes := by
    apply Array.ext_getElem?
    intro i
    rw [Array.getElem?_modify]
    by_cases hi : id.index = i
    · subst hi
      cases hn : g.nodes[id.index]? with
      | none => simp
      | some n => simp [h n hn]
    · simp [hi]
  rw [adjust, hnodes]

/-! ## Opening and closing calls -/

/-- Other open calls make no difference to nodes and edges. -/
theorem extends_stack (g : Graph) (frames : List Frame) : g.Extends { g with stack := frames } :=
  ⟨rfl, fun _ _ h => h, fun _ _ h => h⟩

/-- A sound graph stays sound with other open calls that form a path. -/
theorem Sound.withStack {g : Graph} (hg : g.Sound) {frames : List Frame} (h : g.Path frames) :
    ({ g with stack := frames } : Graph).Sound :=
  hg.of_same (extends_stack g frames) rfl rfl (fun _ => rfl)
    (fun _ n' hn' => ⟨n', hn', fun _ => rfl, fun _ => rfl, rfl⟩) (h.mono (extends_stack g frames))

/-! ## Adding nodes -/

/-- A node that is added has the last key. -/
theorem keys_addNode (g : Graph) (node : Node) :
    (g.addNode node).1.keys = g.keys ++ [node.key] := by
  simp [keys]

/-- There are as many keys as nodes. -/
theorem length_keys (g : Graph) : g.keys.length = g.nodes.size := by simp [keys]

/-- Adding a node extends the graph. -/
theorem extends_addNode (g : Graph) (node : Node) : g.Extends (g.addNode node).1 := by
  refine ⟨rfl, ?_, fun _ _ h => h⟩
  intro i k h
  have hi : i < g.keys.length := (List.getElem?_eq_some_iff.mp h).1
  rw [keys_addNode, List.getElem?_append_left hi]
  exact h

/-- The vertices after a node is added are those before and the new one. -/
theorem has_addNode_iff {g : Graph} {node : Node} {v : Vertex} :
    (g.addNode node).1.Has v ↔
      g.Has v ∨ v = ⟨⟨g.generation, g.nodes.size⟩, node.key⟩ := by
  constructor
  · intro h
    have hgen : v.id.generation = g.generation := h.generation
    have hkey := h.key
    rw [keys_addNode, List.getElem?_append] at hkey
    split at hkey
    · exact Or.inl ⟨hgen, hkey⟩
    · rename_i hlen
      rw [length_keys] at hlen hkey
      rw [List.getElem?_singleton] at hkey
      split at hkey
      · rename_i hzero
        have hidx : v.id.index = g.nodes.size := by omega
        rcases v with ⟨⟨gen, idx⟩, k⟩
        simp only [Option.some.injEq] at hkey
        simp only at hgen hidx
        exact Or.inr (by rw [hgen, hidx, hkey])
      · simp at hkey
  · rintro (h | rfl)
    · exact h.mono (extends_addNode g node)
    · exact ⟨rfl, by rw [keys_addNode, ← length_keys]; simp⟩

/-- A fresh node of a new key keeps a graph sound. -/
theorem Sound.addNode {g : Graph} (hg : g.Sound) {node : Node}
    (hnew : g.registry.lookup node.key = none) (hcallers : node.callers = .empty)
    (hcallees : node.callees = .empty) (hroot : node.rootEdge = none) :
    (g.addNode node).1.Sound := by
  have hext := extends_addNode g node
  have hgen : (g.addNode node).1.generation = g.generation := rfl
  have hjoins : ∀ e p, (g.addNode node).1.Joins e p ↔ g.Joins e p :=
    fun e p => ⟨fun h => ⟨h.generation, h.ends⟩, fun h => ⟨h.generation, h.ends⟩⟩
  have hfresh : ∀ k, ¬ g.Has ⟨⟨g.generation, g.nodes.size⟩, k⟩ := by
    intro k h
    have hi := (List.getElem?_eq_some_iff.mp h.key).1
    rw [length_keys] at hi
    exact Nat.lt_irrefl _ hi
  refine ⟨?_, ?_, ?_, ?_, hg.path.mono hext⟩
  · intro k id
    rw [lookup_registry_addNode, has_addNode_iff]
    split
    · rename_i hk
      subst hk
      have hold : ¬ g.Has ⟨id, node.key⟩ := by
        intro h
        rw [(hg.registry _ _).mpr h] at hnew
        simp at hnew
      simp [hold, eq_comm]
    · rename_i hk
      have hne : (⟨id, k⟩ : Vertex) ≠ ⟨⟨g.generation, g.nodes.size⟩, node.key⟩ := by
        intro h
        exact hk (Vertex.mk.inj h).2.symm
      simp [hne, hg.registry]
  · intro id e h
    rcases hg.callee id e ((hjoins id e).mp h) with ⟨k, hk⟩
    exact ⟨k, hk.mono hext⟩
  · intro id c b h
    rcases hg.caller id c b ((hjoins _ _).mp h) with ⟨k, hk⟩
    exact ⟨k, hk.mono hext⟩
  · intro i n hn
    rw [nodes_addNode, Array.getElem?_push] at hn
    split at hn
    · -- No edge can touch a node that has just come into being.
      rename_i hi
      rw [Option.some.injEq] at hn
      subst hn hi
      rw [hgen]
      refine ⟨?_, ?_, ?_⟩
      · intro k e
        simp [hcallers, hjoins, hg.not_joins_to hfresh]
      · intro k e
        simp [hcallees, hjoins, hg.not_joins_from hfresh]
      · intro e
        simp [hroot, hjoins, hg.not_joins_to hfresh]
    · exact hg.indexes_of_joins_iff hext hjoins (hg.indexes i n hn)

/-- Finding or making a node leaves a sound graph sound. -/
theorem Sound.intern {g : Graph} (hg : g.Sound) (key : Key) (source : Option Source) :
    (g.intern key source).1.Sound := by
  cases h : g.registry.lookup key with
  | some id =>
    rw [intern_of_lookup h]
    exact hg
  | none =>
    rw [intern_of_lookup_none h]
    exact hg.addNode h rfl rfl rfl

/-- Finding or making a node extends the graph. -/
theorem extends_intern (g : Graph) (key : Key) (source : Option Source) :
    g.Extends (g.intern key source).1 := by
  cases h : g.registry.lookup key with
  | some id =>
    rw [intern_of_lookup h]
    exact .refl g
  | none =>
    rw [intern_of_lookup_none h]
    exact extends_addNode g _

/-- The handle that is found or made for a key denotes its node. -/
theorem Sound.has_intern {g : Graph} (hg : g.Sound) (key : Key) (source : Option Source) :
    (g.intern key source).1.Has ⟨(g.intern key source).2, key⟩ := by
  cases h : g.registry.lookup key with
  | some id =>
    rw [intern_of_lookup h]
    exact (hg.registry key id).mp h
  | none =>
    rw [intern_of_lookup_none h]
    exact has_addNode_iff.mpr (Or.inr rfl)

/-! ## Adding edges -/

/-- The node at an index after an edge between two vertices was indexed from both ends. -/
def attach (id : EdgeId) (caller : Option Vertex) (callee : Vertex) (i : Nat) (n : Node) : Node :=
  match caller with
  | some c =>
    let n := if callee.id.index = i then { n with callers := n.callers.insert c.key id } else n
    if c.id.index = i then { n with callees := n.callees.insert callee.key id } else n
  | none => if callee.id.index = i then { n with rootEdge := some id } else n

/-- Adding an edge changes its two ends only, each by its own tables. -/
theorem getElem?_nodes_addEdge (g : Graph) (caller : Option Vertex) (callee : Vertex) (i : Nat) :
    (g.addEdge caller callee).1.nodes[i]? =
      g.nodes[i]?.map (attach ⟨g.generation, g.edges.size⟩ caller callee i) := by
  cases caller with
  | none =>
    simp only [addEdge, adjust, Array.getElem?_modify]
    cases g.nodes[i]? <;> by_cases hi : callee.id.index = i <;> simp [attach, hi]
  | some c =>
    simp only [addEdge, adjust, Array.getElem?_modify]
    cases g.nodes[i]? <;> by_cases hi : callee.id.index = i <;>
      by_cases hc : c.id.index = i <;> simp [attach, hi, hc]

/-- A node that gets an edge keeps its key. -/
@[simp] theorem key_attach (id : EdgeId) (caller : Option Vertex) (callee : Vertex) (i : Nat)
    (n : Node) : (attach id caller callee i n).key = n.key := by
  unfold attach
  cases caller <;> grind

/-- A new edge is among the callers of its callee, under the key of its caller, and nowhere else. -/
theorem callers_attach (id : EdgeId) (caller : Option Vertex) (callee : Vertex) (i : Nat)
    (n : Node) (k : Key) :
    (attach id caller callee i n).callers.lookup k =
      if caller.map Vertex.key = some k ∧ callee.id.index = i then some id
      else n.callers.lookup k := by
  cases caller with
  | none =>
    simp only [attach, Option.map_none, reduceCtorEq, false_and, if_false]
    split <;> rfl
  | some c =>
    have hcallers : (attach id (some c) callee i n).callers =
        if callee.id.index = i then n.callers.insert c.key id else n.callers := by
      simp only [attach]
      split <;> split <;> rfl
    rw [hcallers]
    by_cases hi : callee.id.index = i
    · simp [hi, Table.lookup_insert]
    · simp [hi]

/-- A new edge is among the callees of its caller, under the key of its callee, and nowhere else. -/
theorem callees_attach (id : EdgeId) (caller : Option Vertex) (callee : Vertex) (i : Nat)
    (n : Node) (k : Key) :
    (attach id caller callee i n).callees.lookup k =
      if callee.key = k ∧ caller.map (fun c => c.id.index) = some i then some id
      else n.callees.lookup k := by
  cases caller with
  | none =>
    simp only [attach, Option.map_none, reduceCtorEq, and_false, if_false]
    split <;> rfl
  | some c =>
    have hcallees : (attach id (some c) callee i n).callees =
        if c.id.index = i then n.callees.insert callee.key id else n.callees := by
      simp only [attach]
      split <;> split <;> rfl
    rw [hcallees]
    by_cases hi : c.id.index = i
    · simp [hi, Table.lookup_insert]
    · simp [hi]

/-- A new edge from outside is the one of its callee, and any other edge is none from outside. -/
theorem rootEdge_attach (id : EdgeId) (caller : Option Vertex) (callee : Vertex) (i : Nat)
    (n : Node) :
    (attach id caller callee i n).rootEdge =
      if caller = none ∧ callee.id.index = i then some id else n.rootEdge := by
  cases caller with
  | none =>
    simp only [attach, true_and]
    split <;> rfl
  | some c =>
    simp only [attach, reduceCtorEq, false_and, if_false]
    split <;> split <;> rfl

/-- Adding an edge adds no node. -/
theorem keys_addEdge (g : Graph) (caller : Option Vertex) (callee : Vertex) :
    (g.addEdge caller callee).1.keys = g.keys := by
  apply List.ext_getElem?
  intro i
  simp only [getElem?_keys, getElem?_nodes_addEdge, Option.map_map]
  congr 1
  funext n
  simp

@[simp] theorem generation_addEdge (g : Graph) (caller : Option Vertex) (callee : Vertex) :
    (g.addEdge caller callee).1.generation = g.generation := by
  cases caller <;> rfl

@[simp] theorem registry_addEdge (g : Graph) (caller : Option Vertex) (callee : Vertex) :
    (g.addEdge caller callee).1.registry = g.registry := by
  cases caller <;> rfl

/-- Adding an edge extends the graph. -/
theorem extends_addEdge (g : Graph) (caller : Option Vertex) (callee : Vertex) :
    g.Extends (g.addEdge caller callee).1 := by
  refine ⟨generation_addEdge g caller callee, ?_, ?_⟩
  · intro i k h
    rw [keys_addEdge]
    exact h
  · intro i e h
    have hi := (Array.getElem?_eq_some_iff.mp h).1
    rw [edges_addEdge, Array.getElem?_push_lt hi, ← Array.getElem?_eq_getElem hi]
    exact h

/-- Adding an edge makes no handle denote a node that did not before. -/
theorem has_addEdge_iff {g : Graph} {caller : Option Vertex} {callee v : Vertex} :
    (g.addEdge caller callee).1.Has v ↔ g.Has v := by
  constructor
  · intro h
    refine ⟨h.generation.trans (generation_addEdge g caller callee), ?_⟩
    rw [← keys_addEdge g caller callee]
    exact h.key
  · intro h
    exact h.mono (extends_addEdge g caller callee)

/-- The edges after an edge is added are those before and the new one. -/
theorem joins_addEdge_iff {g : Graph} {caller : Option Vertex} {callee : Vertex} {id : EdgeId}
    {e : Edge} :
    (g.addEdge caller callee).1.Joins id e ↔
      g.Joins id e ∨
        (id = ⟨g.generation, g.edges.size⟩ ∧ e = ⟨caller.map Vertex.id, callee.id⟩) := by
  constructor
  · intro h
    have hgen := h.generation.trans (generation_addEdge g caller callee)
    have hends := h.ends
    rw [edges_addEdge, Array.getElem?_push] at hends
    split at hends
    · rename_i hi
      rw [Option.some.injEq] at hends
      rcases id with ⟨gen, idx⟩
      simp only at hgen hi
      exact Or.inr ⟨by rw [hgen, hi], hends.symm⟩
    · exact Or.inl ⟨hgen, hends⟩
  · rintro (h | ⟨rfl, rfl⟩)
    · exact h.mono (extends_addEdge g caller callee)
    · exact ⟨(generation_addEdge g caller callee).symm, by rw [edges_addEdge]; simp⟩

section Linking

variable {g : Graph} (hg : g.Sound) {caller : Option Vertex} {callee : Vertex}
  (hcaller : ∀ c, caller = some c → g.Has c) (hcallee : g.Has callee)

include hg hcaller hcallee

/-- The edge of a pair that had none is under the key of its caller at its callee. -/
theorem Sound.callers_addEdge_iff
    (hnew : ∀ id, ¬ g.Joins id ⟨caller.map Vertex.id, callee.id⟩) {i : Nat} {n : Node}
    (hn : g.nodes[i]? = some n) (k : Key) (e : EdgeId) :
    (attach ⟨g.generation, g.edges.size⟩ caller callee i n).callers.lookup k = some e ↔
      ∃ c, (g.addEdge caller callee).1.Has ⟨c, k⟩ ∧
        (g.addEdge caller callee).1.Joins e ⟨some c, ⟨g.generation, i⟩⟩ := by
  have hself := hcallee.index_eq_iff (i := i)
  rw [callers_attach]
  simp only [has_addEdge_iff, joins_addEdge_iff]
  split
  · rename_i h
    rcases h with ⟨hk, hi⟩
    rw [Option.map_eq_some_iff] at hk
    rcases hk with ⟨v, rfl, rfl⟩
    have hv := hcaller v rfl
    rw [hself] at hi
    constructor
    · intro he
      exact ⟨v.id, hv, Or.inr ⟨(Option.some.inj he).symm, by simp [hi]⟩⟩
    · rintro ⟨c, hc, hjoin | ⟨rfl, -⟩⟩
      · rw [hg.id_unique hc hv, ← hi] at hjoin
        exact (hnew e hjoin).elim
      · rfl
  · rename_i h
    rw [(hg.indexes i n hn).callers]
    refine exists_congr fun c => and_congr_right fun hc => ?_
    constructor
    · exact Or.inl
    · rintro (hjoin | ⟨-, hends⟩)
      · exact hjoin
      · -- The new edge would put its caller under a key that is not the caller's.
        rw [Edge.mk.injEq] at hends
        rcases hends with ⟨hcid, hid⟩
        rcases Option.map_eq_some_iff.mp hcid.symm with ⟨v, rfl, rfl⟩
        have hk := (hcaller v rfl).key_unique hc
        exact (h ⟨by simp [hk], hself.mpr hid.symm⟩).elim

/-- The edge of a pair that had none is under the key of its callee at its caller. -/
theorem Sound.callees_addEdge_iff
    (hnew : ∀ id, ¬ g.Joins id ⟨caller.map Vertex.id, callee.id⟩) {i : Nat} {n : Node}
    (hn : g.nodes[i]? = some n) (k : Key) (e : EdgeId) :
    (attach ⟨g.generation, g.edges.size⟩ caller callee i n).callees.lookup k = some e ↔
      ∃ b, (g.addEdge caller callee).1.Has ⟨b, k⟩ ∧
        (g.addEdge caller callee).1.Joins e ⟨some ⟨g.generation, i⟩, b⟩ := by
  rw [callees_attach]
  simp only [has_addEdge_iff, joins_addEdge_iff]
  split
  · rename_i h
    rcases h with ⟨rfl, hi⟩
    rw [Option.map_eq_some_iff] at hi
    rcases hi with ⟨v, rfl, rfl⟩
    have hv := hcaller v rfl
    have hvid : v.id = ⟨g.generation, v.id.index⟩ := by rw [← hv.generation]
    constructor
    · intro he
      exact ⟨callee.id, hcallee, Or.inr ⟨(Option.some.inj he).symm, by simp [← hvid]⟩⟩
    · rintro ⟨b, hb, hjoin | ⟨rfl, -⟩⟩
      · rw [hg.id_unique hb hcallee, ← hvid] at hjoin
        exact (hnew e hjoin).elim
      · rfl
  · rename_i h
    rw [(hg.indexes i n hn).callees]
    refine exists_congr fun b => and_congr_right fun hb => ?_
    constructor
    · exact Or.inl
    · rintro (hjoin | ⟨-, hends⟩)
      · exact hjoin
      · rw [Edge.mk.injEq] at hends
        rcases hends with ⟨hcid, rfl⟩
        rcases Option.map_eq_some_iff.mp hcid.symm with ⟨v, rfl, hv⟩
        exact (h ⟨hcallee.key_unique hb, by simp [hv]⟩).elim

omit hcaller in
/-- The edge from outside of a method that had none is in the slot of the method. -/
theorem Sound.rootEdge_addEdge_iff
    (hnew : ∀ id, ¬ g.Joins id ⟨caller.map Vertex.id, callee.id⟩) {i : Nat} {n : Node}
    (hn : g.nodes[i]? = some n) (e : EdgeId) :
    (attach ⟨g.generation, g.edges.size⟩ caller callee i n).rootEdge = some e ↔
      (g.addEdge caller callee).1.Joins e ⟨none, ⟨g.generation, i⟩⟩ := by
  have hself := hcallee.index_eq_iff (i := i)
  rw [rootEdge_attach]
  simp only [joins_addEdge_iff]
  split
  · rename_i h
    rcases h with ⟨rfl, hi⟩
    rw [hself] at hi
    constructor
    · intro he
      exact Or.inr ⟨(Option.some.inj he).symm, by simp [hi]⟩
    · rintro (hjoin | ⟨rfl, -⟩)
      · rw [← hi] at hjoin
        exact (hnew e hjoin).elim
      · rfl
  · rename_i h
    rw [(hg.indexes i n hn).rootEdge]
    constructor
    · exact Or.inl
    · rintro (hjoin | ⟨-, hends⟩)
      · exact hjoin
      · rw [Edge.mk.injEq] at hends
        have hnone : caller = none := by simpa using hends.1.symm
        exact (h ⟨hnone, hself.mpr hends.2.symm⟩).elim

/-- The edge of a pair that had none is where the tables of its ends are asked for it, and nowhere
else. -/
theorem Sound.indexes_addEdge (hnew : ∀ id, ¬ g.Joins id ⟨caller.map Vertex.id, callee.id⟩)
    {i : Nat} {n : Node} (hn : g.nodes[i]? = some n) :
    (g.addEdge caller callee).1.Indexes ⟨g.generation, i⟩
      (attach ⟨g.generation, g.edges.size⟩ caller callee i n) where
  callers := hg.callers_addEdge_iff hcaller hcallee hnew hn
  callees := hg.callees_addEdge_iff hcaller hcallee hnew hn
  rootEdge := hg.rootEdge_addEdge_iff hcallee hnew hn

/-- An edge for a pair that had none keeps a graph sound. -/
theorem Sound.addEdge (hnew : ∀ id, ¬ g.Joins id ⟨caller.map Vertex.id, callee.id⟩) :
    (g.addEdge caller callee).1.Sound := by
  refine ⟨?_, ?_, ?_, ?_, ?_⟩
  · intro k id
    rw [registry_addEdge, hg.registry, has_addEdge_iff]
  · intro id e h
    simp only [has_addEdge_iff]
    rcases joins_addEdge_iff.mp h with h | ⟨-, rfl⟩
    · exact hg.callee id e h
    · exact ⟨callee.key, hcallee⟩
  · intro id c b h
    simp only [has_addEdge_iff]
    rcases joins_addEdge_iff.mp h with h | ⟨-, hends⟩
    · exact hg.caller id c b h
    · rw [Edge.mk.injEq] at hends
      rcases Option.map_eq_some_iff.mp hends.1.symm with ⟨v, hv, rfl⟩
      exact ⟨v.key, hcaller v hv⟩
  · intro i n' hn'
    rw [getElem?_nodes_addEdge, Option.map_eq_some_iff] at hn'
    rcases hn' with ⟨n, hn, rfl⟩
    rw [generation_addEdge]
    exact hg.indexes_addEdge hcaller hcallee hnew hn
  · rw [stack_addEdge]
    exact hg.path.mono (extends_addEdge g caller callee)

/-- Finding or making an edge between two vertices leaves a sound graph sound. -/
theorem Sound.link : (g.link caller callee).1.Sound := by
  cases h : g.edgeBetween (caller.map Vertex.key) callee.id with
  | some id =>
    rw [link_of_edgeBetween h]
    exact hg
  | none =>
    have hlink : g.link caller callee = g.addEdge caller callee := by simp [Graph.link, h]
    rw [hlink]
    refine hg.addEdge hcaller hcallee fun id hjoin => ?_
    rw [(hg.edgeBetween_iff hcaller hcallee).mpr hjoin] at h
    simp at h

/-- The handle that is found or made for a pair denotes its edge. -/
theorem Sound.joins_link :
    (g.link caller callee).1.Joins (g.link caller callee).2
      ⟨caller.map Vertex.id, callee.id⟩ := by
  cases h : g.edgeBetween (caller.map Vertex.key) callee.id with
  | some id =>
    rw [link_of_edgeBetween h]
    exact (hg.edgeBetween_iff hcaller hcallee).mp h
  | none =>
    have hlink : g.link caller callee = g.addEdge caller callee := by simp [Graph.link, h]
    rw [hlink, joins_addEdge_iff]
    exact Or.inr ⟨id_addEdge g caller callee, rfl⟩

end Linking

/-- Finding or making an edge extends the graph. -/
theorem extends_link (g : Graph) (caller : Option Vertex) (callee : Vertex) :
    g.Extends (g.link caller callee).1 := by
  unfold link
  split
  · exact .refl g
  · exact extends_addEdge g caller callee

end Graph

end CallGraph
