import CallGraph.Proofs.Absorb

/-!
# The edges of a call graph and their indexes

An edge is found in three ways: by its handle in the arena, by the key of its caller at its
callee, and by the key of its callee at its caller; one from outside any method is in a slot of
its callee instead.  After every history of a new graph these tell the same edges, and the
questions about neighbours answer by them.

Main results:

- Theorems `Sound.mem_incoming` and `Sound.mem_outgoing` say which edges a node lists.
- Theorem `indexed_applyAll` says that after every history the arena, the tables and the slots
  tell one edge set and that all questions about neighbours are answered by it.
-/

namespace CallGraph

namespace Table

variable {κ α : Type} [DecidableEq κ]

/-- The values of a table are those that it answers for some key. -/
theorem mem_values_iff {t : Table κ α} {v : α} : v ∈ t.values ↔ ∃ k, t.lookup k = some v := by
  simp only [lookup_eq_some_iff, values, List.mem_map]
  constructor
  · rintro ⟨e, he, rfl⟩
    exact ⟨e.1, he⟩
  · rintro ⟨k, hk⟩
    exact ⟨(k, v), hk, rfl⟩

/-- No value is listed twice if no value is stored under two keys. -/
theorem nodup_values {t : Table κ α}
    (h : ∀ k k' v, t.lookup k = some v → t.lookup k' = some v → k = k') : t.values.Nodup := by
  have hentries : t.entries.Nodup := t.nodup.of_map Prod.fst
  refine hentries.map_on ?_
  rintro ⟨k, v⟩ he ⟨k', v'⟩ he' rfl
  have hk := h k k' v ((t.lookup_eq_some_iff k v).mpr he) ((t.lookup_eq_some_iff k' v).mpr he')
  rw [hk]

end Table

namespace Graph

/-! ## The lists of a node -/

section Lists

variable {g : Graph} (hg : g.Sound) {id : NodeId} {n : Node} (hn : g.node id = .ok n)

include hg hn

/-- The node of a live handle has the tables that its handle asks for. -/
theorem Sound.indexes_of_node : g.Indexes id n := by
  rcases node_eq_ok_iff.mp hn with ⟨hgen, hnode⟩
  have hidx := hg.indexes _ n hnode
  rw [← hgen] at hidx
  exact hidx

/-- The table of callers holds the edges into its node that come from a method. -/
theorem Sound.mem_callers {e : EdgeId} :
    e ∈ n.callers.values ↔ ∃ c, g.Joins e ⟨some c, id⟩ := by
  have hidx := hg.indexes_of_node hn
  simp only [Table.mem_values_iff, hidx.callers]
  constructor
  · rintro ⟨k, c, -, hjoin⟩
    exact ⟨c, hjoin⟩
  · rintro ⟨c, hjoin⟩
    rcases hg.caller e c id hjoin with ⟨k, hk⟩
    exact ⟨k, c, hk, hjoin⟩

/-- A node lists its incoming edges. -/
theorem Sound.mem_incoming {e : EdgeId} :
    e ∈ n.incoming ↔ ∃ caller, g.Joins e ⟨caller, id⟩ := by
  have hidx := hg.indexes_of_node hn
  rw [Node.incoming, List.mem_append, hg.mem_callers hn, Option.mem_toList, hidx.rootEdge]
  constructor
  · rintro (hjoin | ⟨c, hjoin⟩)
    · exact ⟨none, hjoin⟩
    · exact ⟨some c, hjoin⟩
  · rintro ⟨_ | c, hjoin⟩
    · exact Or.inl hjoin
    · exact Or.inr ⟨c, hjoin⟩

/-- A node lists its outgoing edges. -/
theorem Sound.mem_outgoing {e : EdgeId} :
    e ∈ n.outgoing ↔ ∃ callee, g.Joins e ⟨some id, callee⟩ := by
  have hidx := hg.indexes_of_node hn
  simp only [Node.outgoing, Table.mem_values_iff, hidx.callees]
  constructor
  · rintro ⟨k, b, -, hjoin⟩
    exact ⟨b, hjoin⟩
  · rintro ⟨b, hjoin⟩
    rcases hg.callee e _ hjoin with ⟨k, hk⟩
    exact ⟨k, b, hk, hjoin⟩

/-- A node lists no incoming edge twice. -/
theorem Sound.nodup_incoming : n.incoming.Nodup := by
  have hidx := hg.indexes_of_node hn
  rw [Node.incoming, List.nodup_append]
  refine ⟨?_, ?_, ?_⟩
  · cases n.rootEdge <;> simp
  · apply Table.nodup_values
    intro k k' e hk hk'
    rcases (hidx.callers k e).mp hk with ⟨c, hc, hjoin⟩
    rcases (hidx.callers k' e).mp hk' with ⟨c', hc', hjoin'⟩
    have hends := hjoin.ends_unique hjoin'
    rw [Edge.mk.injEq, Option.some.injEq] at hends
    rw [← hends.1] at hc'
    exact hc.key_unique hc'
  · -- The edge from outside has no caller and those of the table have one.
    rintro e he e' he' rfl
    rw [Option.mem_toList, hidx.rootEdge] at he
    rcases (hg.mem_callers hn).mp he' with ⟨c, hjoin⟩
    have hends := he.ends_unique hjoin
    simp at hends

/-- A node lists no outgoing edge twice. -/
theorem Sound.nodup_outgoing : n.outgoing.Nodup := by
  have hidx := hg.indexes_of_node hn
  apply Table.nodup_values
  intro k k' e hk hk'
  rcases (hidx.callees k e).mp hk with ⟨b, hb, hjoin⟩
  rcases (hidx.callees k' e).mp hk' with ⟨b', hb', hjoin'⟩
  have hends := hjoin.ends_unique hjoin'
  rw [Edge.mk.injEq] at hends
  rw [← hends.2] at hb'
  exact hb.key_unique hb'

end Lists

/-! ## One edge set -/

/-- The edges of a graph and its indexes tell one edge set. -/
structure Indexed (g : Graph) : Prop where
  /-- An edge between methods is under the key of its caller at its callee, under the key of its
  callee at its caller, and under no other key of either. -/
  between : ∀ i c b, g.edge i = .ok ⟨some c, b⟩ → ∃ m n, g.node c = .ok m ∧ g.node b = .ok n ∧
    (∀ k, n.callers.lookup k = some i ↔ k = m.key) ∧
      ∀ k, m.callees.lookup k = some i ↔ k = n.key
  /-- An edge from outside any method is in the slot of its callee. -/
  outside : ∀ i b, g.edge i = .ok ⟨none, b⟩ → ∃ n, g.node b = .ok n ∧ n.rootEdge = some i
  /-- What a table of callers holds is an edge from the method of the key. -/
  callers : ∀ b n k i, g.node b = .ok n → n.callers.lookup k = some i →
    ∃ c m, g.edge i = .ok ⟨some c, b⟩ ∧ g.node c = .ok m ∧ m.key = k
  /-- What a table of callees holds is an edge to the method of the key. -/
  callees : ∀ c m k i, g.node c = .ok m → m.callees.lookup k = some i →
    ∃ b n, g.edge i = .ok ⟨some c, b⟩ ∧ g.node b = .ok n ∧ n.key = k
  /-- What a slot holds is an edge from outside any method. -/
  rootEdge : ∀ b n i, g.node b = .ok n → n.rootEdge = some i → g.edge i = .ok ⟨none, b⟩
  /-- No two edges have the same ends. -/
  unique : ∀ i j e, g.edge i = .ok e → g.edge j = .ok e → i = j
  /-- A method is marked as a root exactly if there is an edge to it from outside any method. -/
  root : ∀ b n, g.node b = .ok n → (n.root = true ↔ n.rootEdge.isSome = true)

/-- The questions about neighbours are answered by the edges. -/
structure Answers (g : Graph) : Prop where
  /-- The edges into a node, each of them once. -/
  callers : ∀ b n, g.node b = .ok n →
    ∃ es, g.callers b = .ok es ∧ es.Nodup ∧ ∀ i, i ∈ es ↔ ∃ caller, g.edge i = .ok ⟨caller, b⟩
  /-- The edges out of a node, each of them once. -/
  callees : ∀ a n, g.node a = .ok n →
    ∃ es, g.callees a = .ok es ∧ es.Nodup ∧ ∀ i, i ∈ es ↔ ∃ b, g.edge i = .ok ⟨some a, b⟩
  /-- The edge between two ends, if there is one. -/
  findEdge : ∀ caller b n, (∀ c, caller = some c → ∃ m, g.node c = .ok m) → g.node b = .ok n →
    ∃ r, g.findEdge caller b = .ok r ∧ ∀ i, r = some i ↔ g.edge i = .ok ⟨caller, b⟩

/-- A live handle is a vertex under the key of its node. -/
theorem has_of_node {g : Graph} {id : NodeId} {n : Node} (hn : g.node id = .ok n) :
    g.Has ⟨id, n.key⟩ :=
  has_iff_node.mpr ⟨n, hn, rfl⟩

/-- A handle that is accepted stays so, and its node keeps its key. -/
theorem Extends.exists_node {g g' : Graph} (hext : g.Extends g') {id : NodeId} {n : Node}
    (hn : g.node id = .ok n) : ∃ n', g'.node id = .ok n' ∧ n'.key = n.key :=
  has_iff_node.mp ((has_of_node hn).mono hext)

/-- The ends of an edge between methods have nodes. -/
theorem Sound.exists_nodes {g : Graph} (hg : g.Sound) {i : EdgeId} {c b : NodeId}
    (h : g.Joins i ⟨some c, b⟩) : ∃ m n, g.node c = .ok m ∧ g.node b = .ok n := by
  rcases hg.caller i c b h with ⟨k, hk⟩
  rcases hg.callee i _ h with ⟨k', hk'⟩
  rcases has_iff_node.mp hk with ⟨m, hm, -⟩
  rcases has_iff_node.mp hk' with ⟨n, hn, -⟩
  exact ⟨m, n, hm, hn⟩

/-- The edges of a graph and its indexes tell one edge set, if roots are those with an edge from
outside. -/
theorem Sound.indexed {g : Graph} (hg : g.Sound)
    (hroot : ∀ b n, g.node b = .ok n → (n.root = true ↔ n.rootEdge.isSome = true)) :
    g.Indexed where
  between i c b h := by
    rw [← joins_iff_edge] at h
    -- An edge has one pair of ends and a handle one key, so there is one key to find it under.
    rcases hg.exists_nodes h with ⟨m, n, hm, hn⟩
    refine ⟨m, n, hm, hn, ?_, ?_⟩
    · intro k
      rw [(hg.indexes_of_node hn).callers]
      constructor
      · rintro ⟨c', hc', hjoin⟩
        have hends := hjoin.ends_unique h
        rw [Edge.mk.injEq, Option.some.injEq] at hends
        rw [hends.1] at hc'
        exact hc'.key_unique (has_of_node hm)
      · rintro rfl
        exact ⟨c, has_of_node hm, h⟩
    · intro k
      rw [(hg.indexes_of_node hm).callees]
      constructor
      · rintro ⟨b', hb', hjoin⟩
        have hends := hjoin.ends_unique h
        rw [Edge.mk.injEq] at hends
        rw [hends.2] at hb'
        exact hb'.key_unique (has_of_node hn)
      · rintro rfl
        exact ⟨b, has_of_node hn, h⟩
  outside i b h := by
    rw [← joins_iff_edge] at h
    rcases hg.callee i _ h with ⟨k, hk⟩
    rcases has_iff_node.mp hk with ⟨n, hn, -⟩
    exact ⟨n, hn, ((hg.indexes_of_node hn).rootEdge i).mpr h⟩
  callers b n k i hn hi := by
    rcases ((hg.indexes_of_node hn).callers k i).mp hi with ⟨c, hc, hjoin⟩
    rcases has_iff_node.mp hc with ⟨m, hm, hk⟩
    exact ⟨c, m, joins_iff_edge.mp hjoin, hm, hk⟩
  callees c m k i hm hi := by
    rcases ((hg.indexes_of_node hm).callees k i).mp hi with ⟨b, hb, hjoin⟩
    rcases has_iff_node.mp hb with ⟨n, hn, hk⟩
    exact ⟨b, n, joins_iff_edge.mp hjoin, hn, hk⟩
  rootEdge b n i hn hi := joins_iff_edge.mp (((hg.indexes_of_node hn).rootEdge i).mp hi)
  unique i j e hi hj := hg.edge_unique (joins_iff_edge.mpr hi) (joins_iff_edge.mpr hj)
  root := hroot

/-- The questions about neighbours are answered by the edges. -/
theorem Sound.answers {g : Graph} (hg : g.Sound) : g.Answers where
  callers b n hn := by
    refine ⟨n.incoming, by simp [Graph.callers, hn, Functor.map, Except.map], ?_, ?_⟩
    · exact hg.nodup_incoming hn
    · intro i
      simp only [hg.mem_incoming hn, joins_iff_edge]
  callees a n hn := by
    refine ⟨n.outgoing, by simp [Graph.callees, hn, Functor.map, Except.map], ?_, ?_⟩
    · exact hg.nodup_outgoing hn
    · intro i
      simp only [hg.mem_outgoing hn, joins_iff_edge]
  findEdge caller b n hcaller hn := by
    have hidx := hg.indexes_of_node hn
    cases caller with
    | none =>
      refine ⟨n.rootEdge, by simp [Graph.findEdge, hn, bind, Except.bind, pure, Except.pure], ?_⟩
      intro i
      rw [hidx.rootEdge, joins_iff_edge]
    | some c =>
      rcases hcaller c rfl with ⟨m, hm⟩
      refine ⟨n.callers.lookup m.key,
        by simp [Graph.findEdge, hn, hm, bind, Except.bind, pure, Except.pure], ?_⟩
      intro i
      rw [hidx.callers, ← joins_iff_edge]
      constructor
      · rintro ⟨c', hc', hjoin⟩
        rw [hg.id_unique hc' (has_of_node hm)] at hjoin
        exact hjoin
      · intro hjoin
        exact ⟨c, has_of_node hm, hjoin⟩

/-! ## Roots -/

/-- A consistent ledger knows of a method what its node says. -/
theorem Records.profile_eq {g : Graph} {l : Ledger} (h : g.Records l) (hl : l.Consistent)
    {id : NodeId} {n : Node} (hn : g.node id = .ok n) : l.profile n.key = n.profile := by
  have hmem : n.profile ∈ l.profiles := by
    rw [← h.ledger_eq]
    apply List.mem_map_of_mem
    exact Array.mem_toList_iff.mpr (Array.mem_of_getElem? (node_eq_ok_iff.mp hn).2)
  exact ((Ledger.mem_profiles_iff hl.keys_nodup).mp hmem).2

/-- A method is marked as a root exactly if its slot for calls from outside is taken. -/
theorem Records.root_iff {g : Graph} {l : Ledger} (h : g.Records l) (hl : l.Consistent)
    {id : NodeId} {n : Node} (hn : g.node id = .ok n) :
    n.root = true ↔ n.rootEdge.isSome = true := by
  have hprofile := h.profile_eq hl hn
  have hnone : ∀ v, (none : Option Vertex) = some v → g.Has v := by simp
  have hcalls := h.sound.mem_calls_iff hnone (has_of_node hn)
  rw [h.ledger_eq] at hcalls
  calc n.root = true ↔ (l.profile n.key).root = true := by rw [hprofile]; rfl
    _ ↔ ⟨none, n.key⟩ ∈ l.calls := hl.root n.key
    _ ↔ ∃ e, g.Joins e ⟨none, id⟩ := hcalls
    _ ↔ ∃ e, n.rootEdge = some e := by simp only [(h.sound.indexes_of_node hn).rootEdge]
    _ ↔ n.rootEdge.isSome = true := Option.isSome_iff_exists.symm

/-- After every history of a new graph, the arena of edges, the tables of callers and callees and
the slots for calls from outside tell one edge set, and the questions about neighbours are
answered by it. -/
theorem indexed_applyAll (actions : List Action) :
    (empty.applyAll actions).Indexed ∧ (empty.applyAll actions).Answers := by
  have hrec := records_applyAll actions
  have hl := Ledger.consistent_empty.applyAll actions
  refine ⟨hrec.sound.indexed ?_, hrec.sound.answers⟩
  intro b n hn
  exact hrec.root_iff hl hn

end Graph

end CallGraph
