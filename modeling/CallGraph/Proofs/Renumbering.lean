import CallGraph.Proofs.Handles
import CallGraph.Proofs.Remembered
import Mathlib.Data.Set.Function

/-!
# Graphs that differ in their numbers

The handles of a graph number its nodes and edges in order of creation, so two graphs that record
the same in another order have other handles.  One of them is then the other one with its nodes and
edges renumbered.  If both have grown from one graph, the handles of that graph keep their numbers.

Main results:

- Theorem `Sound.edgeOf_eq_some_iff` says that a call that is told by keys leads to its edge.
- Theorem `Grows.branches` says that two graphs that have grown from one graph and record the same
  differ in the numbers of what is new.
-/

namespace CallGraph

namespace Graph

/-! ## Edges told by keys -/

/-- The edge of a call that is told by keys. -/
def edgeOf (g : Graph) (c : CallRecord) : Option EdgeId :=
  (g.lookup c.callee).bind (g.edgeBetween c.caller)

section Sound

variable {g : Graph} (hg : g.Sound)

include hg

/-- The handle of a key is that of its vertex. -/
theorem Sound.lookup_eq_some_iff {k : Key} {id : NodeId} : g.lookup k = some id ↔ g.Has ⟨id, k⟩ :=
  hg.registry k id

/-- An edge between vertices is told by their keys. -/
theorem Sound.callRecord_of_has {id : EdgeId} (caller : Option Vertex) {callee : Vertex}
    (hjoin : g.Joins id ⟨caller.map Vertex.id, callee.id⟩)
    (hcaller : ∀ v, caller = some v → g.Has v) (hcallee : g.Has callee) :
    g.callRecord id = .ok ⟨caller.map Vertex.key, callee.key⟩ := by
  rw [hg.callRecord_of_joins hjoin, callAt_eq hcaller hcallee]

/-- The edge that a callee lists under the key of a caller is that of the call between the two. -/
theorem Sound.edgeBetween_eq_some_iff {caller : Option Key} {callee : Vertex} {id : EdgeId}
    (hcallee : g.Has callee) :
    g.edgeBetween caller callee.id = some id ↔ g.callRecord id = .ok ⟨caller, callee.key⟩ := by
  constructor
  · intro hid
    obtain ⟨n, hn, -⟩ := has_iff_node.mp hcallee
    have hidx := hg.indexes_of_node hn
    simp only [edgeBetween, (node_eq_ok_iff.mp hn).2, Option.bind_some] at hid
    cases caller with
    | none =>
      have hjoin := (hidx.rootEdge id).mp hid
      exact hg.callRecord_of_has none hjoin (by simp) hcallee
    | some k =>
      obtain ⟨c, hc, hjoin⟩ := (hidx.callers k id).mp hid
      exact hg.callRecord_of_has (some ⟨c, k⟩) hjoin
        (fun v hv => Option.some.inj hv ▸ hc) hcallee
  · intro hrecord
    obtain ⟨caller', callee', hjoin, hcaller', hcallee', heq⟩ := hg.vertices_of_callRecord hrecord
    rw [CallRecord.mk.injEq] at heq
    obtain ⟨hcaller, hkey⟩ := heq
    rw [hcaller]
    have hid : callee'.id = callee.id := by
      apply hg.id_unique hcallee'
      rw [← hkey]
      exact hcallee
    rw [hid] at hjoin
    exact (hg.edgeBetween_iff hcaller' hcallee).mpr hjoin

/-- A call that is told by keys leads to its edge. -/
theorem Sound.edgeOf_eq_some_iff {c : CallRecord} {id : EdgeId} :
    g.edgeOf c = some id ↔ g.callRecord id = .ok c := by
  rw [edgeOf, Option.bind_eq_some_iff]
  constructor
  · rintro ⟨b, hb, hid⟩
    exact (hg.edgeBetween_eq_some_iff (hg.lookup_eq_some_iff.mp hb)).mp hid
  · intro hc
    obtain ⟨caller, callee, -, -, hcallee, rfl⟩ := hg.vertices_of_callRecord hc
    exact ⟨callee.id, hg.lookup_eq_some_iff.mpr hcallee,
      (hg.edgeBetween_eq_some_iff hcallee).mpr hc⟩

/-- The edge of a live handle is told by keys. -/
theorem Sound.exists_callRecord_iff {id : EdgeId} :
    (∃ c, g.callRecord id = .ok c) ↔ ∃ e, g.edge id = .ok e := by
  constructor
  · rintro ⟨c, hc⟩
    obtain ⟨e, he, -⟩ := bind_eq_ok_iff.mp hc
    exact ⟨e, he⟩
  · rintro ⟨e, he⟩
    exact ⟨_, hg.callRecord_of_joins (joins_iff_edge.mpr he)⟩

/-- The tables of a node hold the edges of its calls. -/
theorem Sound.tables_eq {id : NodeId} {n : Node} (hn : g.node id = .ok n) :
    n.rootEdge = g.edgeOf ⟨none, n.key⟩ ∧ (∀ k, n.callers.lookup k = g.edgeOf ⟨some k, n.key⟩) ∧
      ∀ k, n.callees.lookup k = g.edgeOf ⟨some n.key, k⟩ := by
  have hv := has_of_node hn
  have hid : g.lookup n.key = some id := hg.lookup_eq_some_iff.mpr hv
  have hnode := (node_eq_ok_iff.mp hn).2
  refine ⟨?_, ?_, ?_⟩
  · simp [edgeOf, hid, edgeBetween, hnode]
  · intro k
    simp [edgeOf, hid, edgeBetween, hnode]
  · intro k
    apply Option.ext
    intro e
    rw [(hg.indexes_of_node hn).callees, hg.edgeOf_eq_some_iff]
    constructor
    · rintro ⟨b, hb, hjoin⟩
      exact hg.callRecord_of_has (some ⟨id, n.key⟩) hjoin
        (fun v hv' => Option.some.inj hv' ▸ hv) hb
    · intro hrecord
      obtain ⟨caller, callee, hjoin, hcaller, hcallee, heq⟩ := hg.vertices_of_callRecord hrecord
      rw [CallRecord.mk.injEq] at heq
      obtain ⟨hkey, rfl⟩ := heq
      obtain ⟨v, rfl, hvkey⟩ := Option.map_eq_some_iff.mp hkey.symm
      have hvid : v.id = id := by
        apply hg.id_unique (hcaller v rfl)
        rw [hvkey]
        exact hv
      rw [Option.map_some, hvid] at hjoin
      exact ⟨callee.id, hcallee, hjoin⟩

end Sound

end Graph

/-! ## Renumbering -/

/-- The node `n'` is `n` with other numbers for its edges. -/
structure Node.Renumbers (n : Node) (ε : EdgeId → EdgeId) (n' : Node) : Prop where
  profile : n'.profile = n.profile
  resolution : n'.resolution = n.resolution
  rootEdge : n'.rootEdge = n.rootEdge.map ε
  callers : ∀ k, n'.callers.lookup k = (n.callers.lookup k).map ε
  callees : ∀ k, n'.callees.lookup k = (n.callees.lookup k).map ε

/-- The ledger `l'` records what `l` records, in whatever order. -/
structure Ledger.Alike (l l' : Ledger) : Prop where
  keys : ∀ k, k ∈ l'.keys ↔ k ∈ l.keys
  calls : ∀ c, c ∈ l'.calls ↔ c ∈ l.calls
  profile : ∀ k, l'.profile k = l.profile k

namespace Graph

/-- The graph `g'` is `g` with other numbers for its nodes and edges. -/
structure Renumbers (g : Graph) (ν : NodeId → NodeId) (ε : EdgeId → EdgeId) (g' : Graph) :
    Prop where
  generation : g'.generation = g.generation
  nodes : Set.BijOn ν {id | ∃ n, g.node id = .ok n} {id | ∃ n, g'.node id = .ok n}
  edges : Set.BijOn ε {id | ∃ e, g.edge id = .ok e} {id | ∃ e, g'.edge id = .ok e}
  lookup : ∀ k, g'.lookup k = (g.lookup k).map ν
  node : ∀ id n, g.node id = .ok n → ∃ n', g'.node (ν id) = .ok n' ∧ n.Renumbers ε n'
  edge : ∀ id e, g.edge id = .ok e → g'.edge (ε id) = .ok ⟨e.caller.map ν, ν e.callee⟩
  callRecord : ∀ id c, g.callRecord id = .ok c → g'.callRecord (ε id) = .ok c
  stack : g'.stack = g.stack.map fun f => ⟨⟨ν f.vertex.id, f.vertex.key⟩, ε f.edge⟩

/-- The graphs `g` and `g'` have grown from `base` and differ in the numbers of what is new. -/
structure Branches (base g : Graph) (ν : NodeId → NodeId) (ε : EdgeId → EdgeId) (g' : Graph) :
    Prop where
  renumbers : g.Renumbers ν ε g'
  node : ∀ id n, base.node id = .ok n → ν id = id
  edge : ∀ id e, base.edge id = .ok e → ε id = id
  stack : g.stack = base.stack
  stack_renumbered : g'.stack = base.stack

/-- The graph `g` has grown from `base`, with the same open calls and no question for an owner. -/
structure Grows (base g : Graph) : Prop where
  extends_base : base.Extends g
  stack : g.stack = base.stack
  remembered : g.remembered = base.remembered

/-- The number in `g'` of the node of a handle of `g`. -/
def renode (g g' : Graph) (id : NodeId) : NodeId := (g'.lookup (g.keyAt id)).getD id

/-- The number in `g'` of the edge of a handle of `g`. -/
def reedge (g g' : Graph) (id : EdgeId) : EdgeId :=
  ((g.edges[id.index]?).bind fun e => g'.edgeOf (g.callAt e)).getD id

section Alike

variable {g g' : Graph} {l l' : Ledger} (h : g.Records l) (h' : g'.Records l')
  (halike : Ledger.Alike l l')

include h h' halike

/-- The handle of a key in one graph is the number in that graph of its handle in the other. -/
theorem Records.lookup_eq_map (k : Key) : g'.lookup k = (g.lookup k).map (g.renode g') := by
  cases hid : g.lookup k with
  | none =>
    rw [lookup, h.sound.registry_eq_none_iff, ← h.mem_keys_iff, ← halike.keys] at hid
    rw [lookup, Option.map_none, h'.sound.registry_eq_none_iff, ← h'.mem_keys_iff]
    exact hid
  | some id =>
    have hv := h.sound.lookup_eq_some_iff.mp hid
    have hk : k ∈ l'.keys := (halike.keys k).mpr (h.mem_keys_iff.mpr hv.mem_keys)
    rw [h'.mem_keys_iff] at hk
    obtain ⟨id', hid'⟩ := exists_has_of_mem hk
    have hlookup := h'.sound.lookup_eq_some_iff.mpr hid'
    rw [Option.map_some, renode, hv.keyAt_eq, hlookup, Option.getD_some]

/-- The edge of a call in one graph is the number in that graph of its edge in the other. -/
theorem Records.edgeOf_eq_map (c : CallRecord) : g'.edgeOf c = (g.edgeOf c).map (g.reedge g') := by
  have hcall : (∃ id, g.callRecord id = .ok c) ↔ ∃ id, g'.callRecord id = .ok c := by
    rw [← h.mem_calls_iff_callRecord, ← h'.mem_calls_iff_callRecord, halike.calls]
  simp only [← h.sound.edgeOf_eq_some_iff, ← h'.sound.edgeOf_eq_some_iff] at hcall
  cases hid : g.edgeOf c with
  | none =>
    cases hid' : g'.edgeOf c with
    | none => rfl
    | some id' =>
      obtain ⟨id, hsome⟩ := hcall.mpr ⟨id', hid'⟩
      rw [hid] at hsome
      simp at hsome
  | some id =>
    obtain ⟨id', hid'⟩ := hcall.mp ⟨id, hid⟩
    have hrecord := h.sound.edgeOf_eq_some_iff.mp hid
    obtain ⟨e, he⟩ := h.sound.exists_callRecord_iff.mp ⟨c, hrecord⟩
    have hjoin := joins_iff_edge.mpr he
    rw [h.sound.callRecord_of_joins hjoin, Except.ok.injEq] at hrecord
    simp [reedge, hjoin.ends, hrecord, hid']

end Alike

/-- Answers to the same questions match one-to-one if no two questions have one answer. -/
theorem bijOn_of_eq_map {κ α : Type} {m : α → α} {old new : κ → Option α}
    (hmap : ∀ k, new k = (old k).map m)
    (hnew : ∀ k k' a, new k = some a → new k' = some a → k = k') :
    Set.BijOn m {a | ∃ k, old k = some a} {a | ∃ k, new k = some a} := by
  have hto : ∀ k a, old k = some a → new k = some (m a) := by
    intro k a ha
    rw [hmap, ha, Option.map_some]
  refine ⟨?_, ?_, ?_⟩
  · rintro a ⟨k, ha⟩
    exact ⟨k, hto k a ha⟩
  · rintro a ⟨k, ha⟩ b ⟨k', hb⟩ hab
    have hk := hnew k k' (m a) (hto k a ha) (by rw [hab]; exact hto k' b hb)
    rw [hk, hb] at ha
    exact (Option.some.inj ha).symm
  · rintro b ⟨k, hb⟩
    rw [hmap] at hb
    obtain ⟨a, ha, hab⟩ := Option.map_eq_some_iff.mp hb
    exact ⟨a, ⟨k, ha⟩, hab⟩

/-- The node handles that are alive are those that some key has. -/
theorem Sound.setOf_node {g : Graph} (hg : g.Sound) :
    {id | ∃ n, g.node id = .ok n} = {id | ∃ k, g.lookup k = some id} := by
  ext id
  exact alive_node_iff.symm.trans (exists_congr fun k => hg.lookup_eq_some_iff.symm)

/-- The edge handles that are alive are those of some call. -/
theorem Sound.setOf_edge {g : Graph} (hg : g.Sound) :
    {id | ∃ e, g.edge id = .ok e} = {id | ∃ c, g.edgeOf c = some id} := by
  ext id
  exact hg.exists_callRecord_iff.symm.trans (exists_congr fun c => hg.edgeOf_eq_some_iff.symm)

/-! ## Growing -/

namespace Grows

/-- A graph has grown from itself. -/
theorem refl (g : Graph) : g.Grows g := ⟨.refl g, rfl, rfl⟩

/-- What has grown from a graph that has grown has grown from the first one. -/
theorem trans {g g' g'' : Graph} (h : g.Grows g') (h' : g'.Grows g'') : g.Grows g'' :=
  ⟨h.extends_base.trans h'.extends_base, h'.stack.trans h.stack, h'.remembered.trans h.remembered⟩

section Base

variable {base g : Graph} (h : base.Grows g) (hbase : base.Sound) (hg : g.Sound)

include h hbase hg

/-- A key that has a handle keeps it. -/
theorem lookup_eq {k : Key} {id : NodeId} (hid : base.lookup k = some id) :
    g.lookup k = some id :=
  hg.lookup_eq_some_iff.mpr ((hbase.lookup_eq_some_iff.mp hid).mono h.extends_base)

/-- A call that has an edge keeps it. -/
theorem edgeOf_eq {c : CallRecord} {id : EdgeId} (hid : base.edgeOf c = some id) :
    g.edgeOf c = some id := by
  obtain ⟨caller, callee, hjoin, hcaller, hcallee, rfl⟩ :=
    hbase.vertices_of_callRecord (hbase.edgeOf_eq_some_iff.mp hid)
  have hext := h.extends_base
  exact hg.edgeOf_eq_some_iff.mpr (hg.callRecord_of_has caller (hjoin.mono hext)
    (fun v hv => (hcaller v hv).mono hext) (hcallee.mono hext))

/-- A node remembers what the node of its key remembered, and nothing if it is new. -/
theorem resolution_eq {id : NodeId} {n : Node} (hn : g.node id = .ok n) :
    n.resolution = (base.lookup n.key).bind fun old => base.remembered old.index := by
  have hv := has_of_node hn
  obtain ⟨hgen, hnode⟩ := node_eq_ok_iff.mp hn
  have hresolution : n.resolution = base.remembered id.index := by
    rw [← h.remembered, Graph.remembered, hnode, Option.bind_some]
  rw [hresolution]
  cases hold : base.lookup n.key with
  | some old =>
    have heq := (hg.lookup_eq_some_iff.mpr hv).symm.trans (h.lookup_eq hbase hg hold)
    rw [Option.bind_some, Option.some.inj heq]
  | none =>
    -- A node of the base at this index would have the key of the new one.
    cases hm : base.nodes[id.index]? with
    | none => rw [Graph.remembered, hm, Option.bind_none, Option.bind_none]
    | some m =>
      have hgen' : id.generation = base.generation := hgen.trans h.extends_base.generation
      have hm' := has_of_node (node_eq_ok_iff.mpr ⟨hgen', hm⟩)
      have hkey := (hm'.mono h.extends_base).key_unique hv
      rw [hkey, ← hbase.lookup_eq_some_iff, hold] at hm'
      simp at hm'

end Base

section Two

variable {base g g' : Graph} {l l' : Ledger} (h : base.Grows g) (h' : base.Grows g')
  (hbase : base.Sound) (hg : g.Records l) (hg' : g'.Records l') (halike : Ledger.Alike l l')

include h h' hbase hg hg' halike

/-- The handles that were there before both graphs grew keep their numbers. -/
theorem renode_eq {k : Key} {id : NodeId} (hid : base.lookup k = some id) :
    g.renode g' id = id := by
  have hmap := hg.lookup_eq_map hg' halike k
  rw [h.lookup_eq hbase hg.sound hid, h'.lookup_eq hbase hg'.sound hid, Option.map_some] at hmap
  exact (Option.some.inj hmap).symm

/-- The edges that were there before both graphs grew keep their numbers. -/
theorem reedge_eq {c : CallRecord} {id : EdgeId} (hid : base.edgeOf c = some id) :
    g.reedge g' id = id := by
  have hmap := hg.edgeOf_eq_map hg' halike c
  rw [h.edgeOf_eq hbase hg.sound hid, h'.edgeOf_eq hbase hg'.sound hid, Option.map_some] at hmap
  exact (Option.some.inj hmap).symm

/-- The open calls are in nodes and edges of the base, which keep their numbers. -/
theorem stack_eq_map : g'.stack =
    g.stack.map fun f => ⟨⟨g.renode g' f.vertex.id, f.vertex.key⟩, g.reedge g' f.edge⟩ := by
  rw [h.stack, h'.stack]
  symm
  refine (List.map_congr_left ?_).trans (List.map_id _)
  intro f hf
  have hid := hbase.lookup_eq_some_iff.mpr (hbase.path.has_of_mem hf)
  obtain ⟨caller, hjoin⟩ := hbase.path.joins_of_mem hf
  have hedge := hbase.edgeOf_eq_some_iff.mpr (hbase.callRecord_of_joins hjoin)
  rw [h.renode_eq h' hbase hg hg' halike hid, h.reedge_eq h' hbase hg hg' halike hedge]
  rfl

end Two

end Grows

section Renumbering

variable {g g' : Graph} {l l' : Ledger} (hg : g.Records l) (hg' : g'.Records l')
  (halike : Ledger.Alike l l')

include hg hg' halike

/-- An edge tells the same call under its number in the other graph. -/
theorem Records.callRecord_reedge {id : EdgeId} {c : CallRecord} (hc : g.callRecord id = .ok c) :
    g'.callRecord (g.reedge g' id) = .ok c := by
  have hmap := hg.edgeOf_eq_map hg' halike c
  rw [hg.sound.edgeOf_eq_some_iff.mpr hc, Option.map_some] at hmap
  exact hg'.sound.edgeOf_eq_some_iff.mp hmap

/-- A vertex has its number in the other graph under the same key. -/
theorem Records.lookup_renode {v : Vertex} (hv : g.Has v) :
    g'.lookup v.key = some (g.renode g' v.id) := by
  rw [hg.lookup_eq_map hg' halike, hg.sound.lookup_eq_some_iff.mpr hv, Option.map_some]

/-- The ends of an edge are renumbered with it. -/
theorem Records.edge_reedge {id : EdgeId} {e : Edge} (he : g.edge id = .ok e) :
    g'.edge (g.reedge g' id) = .ok ⟨e.caller.map (g.renode g'), g.renode g' e.callee⟩ := by
  have hjoin := joins_iff_edge.mpr he
  have hend : ∀ {v v' : Vertex}, g.Has v → g'.Has v' → v'.key = v.key →
      v'.id = g.renode g' v.id := by
    intro v v' hv hv' hkey
    apply hg'.sound.id_unique hv'
    rw [hkey, ← hg'.sound.lookup_eq_some_iff]
    exact hg.lookup_renode hg' halike hv
  obtain ⟨caller, callee, rfl, hcaller, hcallee⟩ := hg.sound.vertices hjoin
  have hrecord := hg.sound.callRecord_of_has caller hjoin hcaller hcallee
  obtain ⟨caller', callee', hjoin', hcaller', hcallee', heq⟩ :=
    hg'.sound.vertices_of_callRecord (hg.callRecord_reedge hg' halike hrecord)
  rw [CallRecord.mk.injEq] at heq
  obtain ⟨hcallers, hcallees⟩ := heq
  have hcalleeId := hend hcallee hcallee' hcallees.symm
  have hcallerId : caller'.map Vertex.id = (caller.map Vertex.id).map (g.renode g') := by
    cases caller with
    | none =>
      rw [Option.map_none, eq_comm, Option.map_eq_none_iff] at hcallers
      rw [hcallers]
      rfl
    | some c =>
      obtain ⟨c', rfl, hkey⟩ := Option.map_eq_some_iff.mp hcallers.symm
      rw [Option.map_some, Option.map_some, Option.map_some,
        hend (hcaller c rfl) (hcaller' c' rfl) hkey]
  rw [hcallerId, hcalleeId] at hjoin'
  exact joins_iff_edge.mp hjoin'

end Renumbering

section Branching

variable {base g g' : Graph} {l l' : Ledger} (h : base.Grows g) (h' : base.Grows g')
  (hbase : base.Sound) (hg : g.Records l) (hg' : g'.Records l') (halike : Ledger.Alike l l')
  (hl : l.Consistent) (hl' : l'.Consistent)

include h h' hbase hg hg' halike hl hl'

/-- Two graphs that have grown from one graph and record the same differ in their numbers. -/
theorem Grows.renumbers : g.Renumbers (g.renode g') (g.reedge g') g' where
  generation := h'.extends_base.generation.trans h.extends_base.generation.symm
  nodes := by
    rw [hg.sound.setOf_node, hg'.sound.setOf_node]
    apply bijOn_of_eq_map (hg.lookup_eq_map hg' halike)
    intro k k' id hk hk'
    exact (hg'.sound.lookup_eq_some_iff.mp hk).key_unique (hg'.sound.lookup_eq_some_iff.mp hk')
  edges := by
    rw [hg.sound.setOf_edge, hg'.sound.setOf_edge]
    apply bijOn_of_eq_map (hg.edgeOf_eq_map hg' halike)
    intro c c' id hc hc'
    rw [hg'.sound.edgeOf_eq_some_iff] at hc hc'
    exact Except.ok.inj (hc.symm.trans hc')
  lookup := hg.lookup_eq_map hg' halike
  node id n hn := by
    have hid := hg.lookup_renode hg' halike (has_of_node hn)
    obtain ⟨n', hn', hkey⟩ := has_iff_node.mp (hg'.sound.lookup_eq_some_iff.mp hid)
    simp only at hn' hkey
    obtain ⟨hroot, hcallers, hcallees⟩ := hg.sound.tables_eq hn
    obtain ⟨hroot', hcallers', hcallees'⟩ := hg'.sound.tables_eq hn'
    rw [hkey] at hroot' hcallers' hcallees'
    have hmap := hg.edgeOf_eq_map hg' halike
    refine ⟨n', hn', ?_, ?_, ?_, ?_, ?_⟩
    · rw [← hg.profile_eq hl hn, ← hg'.profile_eq hl' hn', hkey, halike.profile]
    · rw [h.resolution_eq hbase hg.sound hn, h'.resolution_eq hbase hg'.sound hn', hkey]
    · rw [hroot, hroot', hmap]
    · intro k
      rw [hcallers, hcallers', hmap]
    · intro k
      rw [hcallees, hcallees', hmap]
  edge _ _ he := hg.edge_reedge hg' halike he
  callRecord _ _ hc := hg.callRecord_reedge hg' halike hc
  stack := h.stack_eq_map h' hbase hg hg' halike

/-- The numbers in which they differ are those of what is new. -/
theorem Grows.branches : base.Branches g (g.renode g') (g.reedge g') g' where
  renumbers := h.renumbers h' hbase hg hg' halike hl hl'
  node _ _ hn := h.renode_eq h' hbase hg hg' halike
    (hbase.lookup_eq_some_iff.mpr (has_of_node hn))
  edge _ _ he := h.reedge_eq h' hbase hg hg' halike
    (hbase.edgeOf_eq_some_iff.mpr (hbase.callRecord_of_joins (joins_iff_edge.mpr he)))
  stack := h.stack
  stack_renumbered := h'.stack

end Branching

end Graph

end CallGraph
