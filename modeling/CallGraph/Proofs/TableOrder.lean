import CallGraph.Proofs.Canonical
import CallGraph.Proofs.Remembered
import Mathlib.Data.List.Forall2

/-!
# Tables in any order

A table may list its entries in any order, as a hash map does, and two graphs that differ in nothing
else go on like that: an action does the same to both.  The reason is that a graph is known by its
ledger.  Two sound graphs of one generation that record the same, and whose nodes remember the same,
have equal arenas of edges and equal open calls, and their tables hold equal entries, listed in
whatever order.

Main results:

- Theorem `Table.perm_of_lookup` says that tables with the same answers hold the same entries.
- Theorem `Records.reorders` says that a graph is known by what it records, but for the order of its
  tables.
- Theorem `Reorders.apply` says that every action does the same whatever the order of the tables.
- Theorems `Reorders.node`, `Reorders.methods` and `Reorders.dumpAll` say the same of questions.
-/

namespace CallGraph

namespace Table

variable {κ α : Type} [DecidableEq κ] {t t' : Table κ α}

/-- Tables in which every key answers the same hold the same entries. -/
theorem perm_of_lookup (h : ∀ k v, t'.lookup k = some v ↔ t.lookup k = some v) :
    t.entries.Perm t'.entries := by
  refine (List.perm_ext_iff_of_nodup t.nodup.of_map t'.nodup.of_map).mpr ?_
  rintro ⟨k, v⟩
  rw [← lookup_eq_some_iff, ← lookup_eq_some_iff, h]

/-- Writing does the same whatever the order of the entries. -/
theorem perm_insert (h : t.entries.Perm t'.entries) (k : κ) (v : α) :
    (t.insert k v).entries.Perm (t'.insert k v).entries := by
  apply perm_of_lookup
  intro k' v'
  rw [lookup_insert, lookup_insert, lookup_eq_of_perm h]

end Table

namespace Node.Reorders

variable {n n' n'' : Node}

/-- A node is listed in the order in which it is listed. -/
theorem refl (n : Node) : n.Reorders n := ⟨rfl, rfl, rfl, .refl _, .refl _⟩

/-- Tables that one node lists in another order the other node does as well. -/
theorem symm (h : n.Reorders n') : n'.Reorders n :=
  ⟨h.profile.symm, h.resolution.symm, h.rootEdge.symm, h.callers.symm, h.callees.symm⟩

/-- An order of another order is another order of the tables of a node. -/
theorem trans (h : n.Reorders n') (h' : n'.Reorders n'') : n.Reorders n'' :=
  ⟨h'.profile.trans h.profile, h'.resolution.trans h.resolution, h'.rootEdge.trans h.rootEdge,
    h.callers.trans h'.callers, h.callees.trans h'.callees⟩

/-- The key does not depend on the order of the tables. -/
theorem key_eq (h : n.Reorders n') : n'.key = n.key := congrArg Profile.key h.profile

/-- The incoming edges are the same, listed in whatever order. -/
theorem perm_incoming (h : n.Reorders n') : n.incoming.Perm n'.incoming := by
  unfold Node.incoming Table.values
  rw [h.rootEdge]
  exact (h.callers.map _).append_left _

/-- The outgoing edges are the same, listed in whatever order. -/
theorem perm_outgoing (h : n.Reorders n') : n.outgoing.Perm n'.outgoing := h.callees.map _

/-- The canonical owner does not depend on the order of the tables. -/
theorem resolve_eq (h : n.Reorders n') (host : Host) : n'.resolve host = n.resolve host := by
  rw [Node.resolve, Node.resolve, h.resolution, h.key_eq]

end Node.Reorders

namespace Graph

/-! ## A graph is known by its ledger -/

section Known

variable {g g' : Graph} {l : Ledger}

/-- A graph that records the same as another one of its generation has the same handles. -/
theorem Records.extends_of_records (h : g.Records l) (h' : g'.Records l)
    (hgen : g'.generation = g.generation) : g.Extends g' := by
  have hkeys : g'.keys = g.keys := by
    rw [← keys_ledger, ← keys_ledger, h.ledger_eq, h'.ledger_eq]
  have hhas : ∀ {v : Vertex}, g'.Has v → g.Has v := fun hv =>
    ⟨hv.generation.trans hgen, by rw [← hkeys]; exact hv.key⟩
  have hcallAt : g'.callAt = g.callAt := by
    funext e
    rw [callAt, callAt]
    unfold keyAt
    rw [hkeys]
  refine ⟨hgen, fun i k hk => by rw [hkeys]; exact hk, ?_⟩
  intro i e he
  have hjoin : g.Joins ⟨g.generation, i⟩ e := ⟨rfl, he⟩
  -- Both arenas have an edge of the same call there, and a call has one pair of ends only.
  have hcall : g'.edges[i]?.map g'.callAt = some (g.callAt e) := by
    rw [← getElem?_calls_ledger, h'.ledger_eq, ← h.ledger_eq, getElem?_calls_ledger, he,
      Option.map_some]
  obtain ⟨e', he', hsame⟩ := Option.map_eq_some_iff.mp hcall
  have hjoin' : g'.Joins ⟨g'.generation, i⟩ e' := ⟨rfl, he'⟩
  obtain ⟨caller, callee, rfl, hcaller, hcallee⟩ := h.sound.vertices hjoin
  obtain ⟨caller', callee', rfl, hcaller', hcallee'⟩ := h'.sound.vertices hjoin'
  have hcaller'' : ∀ c, caller' = some c → g.Has c := fun c hc => hhas (hcaller' c hc)
  rw [hcallAt, callAt_eq hcaller'' (hhas hcallee'), callAt_eq hcaller hcallee] at hsame
  rw [he', h.sound.ends_eq hcaller hcallee hcaller'' (hhas hcallee') hsame]

/-- The open calls of a sound graph are known by their methods. -/
theorem Path.eq_of_keys (hg : g.Sound) {frames frames' : List Frame} (h : g.Path frames)
    (h' : g.Path frames')
    (hkeys : frames'.map (fun f => f.vertex.key) = frames.map fun f => f.vertex.key) :
    frames' = frames := by
  induction h generalizing frames' with
  | nil => simpa using hkeys
  | @cons f rest vertex edge below ih =>
    cases h' with
    | nil => simp at hkeys
    | @cons f' rest' vertex' edge' below' =>
      simp only [List.map_cons, List.cons.injEq] at hkeys
      have hrest := ih below' hkeys.2
      have hid : f'.vertex.id = f.vertex.id := by
        apply hg.id_unique vertex'
        rw [hkeys.1]
        exact vertex
      have hvertex : f'.vertex = f.vertex := by
        cases hf : f.vertex
        cases hf' : f'.vertex
        simp_all
      rw [hrest, hid] at edge'
      have hedge : f'.edge = f.edge := hg.edge_unique edge' edge
      cases f
      cases f'
      simp_all

/-- A graph is known by what it records and what its nodes remember, but for the order in which its
tables list their entries. -/
theorem Records.reorders (h : g.Records l) (h' : g'.Records l)
    (hgen : g'.generation = g.generation) (hrem : g'.remembered = g.remembered) :
    g.Reorders g' := by
  have hext := h.extends_of_records h' hgen
  have hext' := h'.extends_of_records h hgen.symm
  have hhas : ∀ v, g'.Has v ↔ g.Has v := fun v => ⟨fun hv => hv.mono hext', fun hv => hv.mono hext⟩
  have hjoins : ∀ e p, g'.Joins e p ↔ g.Joins e p :=
    fun e p => ⟨fun hj => hj.mono hext', fun hj => hj.mono hext⟩
  have hprofiles : g'.nodes.toList.map Node.profile = g.nodes.toList.map Node.profile :=
    congrArg Ledger.profiles (h'.ledger_eq.trans h.ledger_eq.symm)
  -- Sound graphs index their vertices and edges, and these are the same in both.
  refine ⟨hgen, ?_, ?_, ?_, ?_, ?_⟩
  · apply Table.perm_of_lookup
    intro k id
    rw [h'.sound.registry, h.sound.registry, hhas]
  · simpa using congrArg List.length hprofiles
  · intro i n n' hn hn'
    have hprofile : g'.nodes[i]?.map Node.profile = g.nodes[i]?.map Node.profile := by
      simpa using congrArg (fun ps => ps[i]?) hprofiles
    have hresolution : g'.remembered i = g.remembered i := congrFun hrem i
    have hidx := h.sound.indexes i n hn
    have hidx' := h'.sound.indexes i n' hn'
    rw [hgen] at hidx'
    rw [hn, hn', Option.map_some, Option.map_some, Option.some.injEq] at hprofile
    rw [remembered, remembered, hn, hn', Option.bind_some, Option.bind_some] at hresolution
    refine ⟨hprofile, hresolution, ?_, ?_, ?_⟩
    · apply Option.ext
      intro e
      rw [hidx'.rootEdge, hidx.rootEdge, hjoins]
    · apply Table.perm_of_lookup
      intro k e
      simp only [hidx'.callers, hidx.callers, hhas, hjoins]
    · apply Table.perm_of_lookup
      intro k e
      simp only [hidx'.callees, hidx.callees, hhas, hjoins]
  · apply Array.ext_getElem?
    intro i
    apply Option.ext
    intro e
    exact ⟨hext'.edges i e, hext.edges i e⟩
  · apply Path.eq_of_keys h.sound h.sound.path (h'.sound.path.mono hext')
    exact congrArg Ledger.stack (h'.ledger_eq.trans h.ledger_eq.symm)

end Known

/-! ## Graphs whose tables are listed in another order -/

namespace Reorders

/-- A graph is listed in the order in which it is listed. -/
theorem refl (g : Graph) : g.Reorders g where
  generation := rfl
  registry := .refl _
  size := rfl
  nodes i n n' hn hn' := by
    rw [hn, Option.some.injEq] at hn'
    rw [← hn']
    exact .refl n
  edges := rfl
  stack := rfl

variable {g g' g'' : Graph}

/-- Tables that one graph lists in another order the other graph does as well. -/
theorem symm (h : g.Reorders g') : g'.Reorders g where
  generation := h.generation.symm
  registry := h.registry.symm
  size := h.size.symm
  nodes i n n' hn hn' := (h.nodes i n' n hn' hn).symm
  edges := h.edges.symm
  stack := h.stack.symm

/-- An order of another order is another order of the tables of a graph. -/
theorem trans (h : g.Reorders g') (h' : g'.Reorders g'') : g.Reorders g'' where
  generation := h'.generation.trans h.generation
  registry := h.registry.trans h'.registry
  size := h'.size.trans h.size
  nodes i n n'' hn hn'' := by
    obtain ⟨n', hn', hsame⟩ := h'.exists_node hn''
    exact (h.nodes i n n' hn hn').trans hsame
  edges := h'.edges.trans h.edges
  stack := h'.stack.trans h.stack

variable (h : g.Reorders g')

include h

/-- The order of the tables is not remembered. -/
theorem remembered_eq : g'.remembered = g.remembered := by
  funext i
  unfold remembered
  cases hn' : g'.nodes[i]? with
  | none =>
    have hn : g.nodes[i]? = none := by
      rw [Array.getElem?_eq_none_iff] at hn' ⊢
      rw [← h.size]
      exact hn'
    rw [hn]
  | some n' =>
    obtain ⟨n, hn, hsame⟩ := h.exists_node hn'
    rw [hn, Option.bind_some, Option.bind_some, hsame.resolution]

/-- A graph that lists its tables in another order records the same. -/
theorem records {l : Ledger} (hg : g.Records l) : g'.Records l :=
  ⟨h.sound hg.sound, h.ledger_eq.trans hg.ledger_eq⟩

/-- What an action makes nodes remember does not depend on the order of the tables. -/
theorem remembered_apply_eq (a : Action) : (g'.apply a).remembered = (g.apply a).remembered := by
  by_cases hrelease : a = .release
  · rw [hrelease]
    rfl
  · by_cases hresolve : ∃ host id, a = .resolve host id
    · obtain ⟨host, id, rfl⟩ := hresolve
      funext i
      have hkey : g'.resolvedAt host i = g.resolvedAt host i := by
        rw [resolvedAt, resolvedAt, h.keys_eq]
      rw [remembered_resolve, remembered_resolve, h.remembered_eq, h.generation, hkey]
    · have hne : ∀ host id, a ≠ .resolve host id := fun host id ha => hresolve ⟨host, id, ha⟩
      rw [remembered_apply g' hrelease hne, remembered_apply g hrelease hne, h.remembered_eq]

/-- Every action does the same to a graph whatever the order of its tables. -/
theorem apply {l : Ledger} (hg : g.Records l) (a : Action) : (g.apply a).Reorders (g'.apply a) := by
  refine (hg.apply a).reorders ((h.records hg).apply a) ?_ (h.remembered_apply_eq a)
  rw [generation_apply, generation_apply, h.generation]

/-- Histories do the same to the tables in any order. -/
theorem applyAll {l : Ledger} (hg : g.Records l) (actions : List Action) :
    (g.applyAll actions).Reorders (g'.applyAll actions) := by
  induction actions generalizing g g' l with
  | nil => exact h
  | cons a rest ih => exact ih (h.apply hg a) (hg.apply a)

/-! ## What actions give -/

/-- A key has the same handle whatever the order of the registry. -/
theorem lookup_eq (k : Key) : g'.lookup k = g.lookup k := Table.lookup_eq_of_perm h.registry k

/-- A method gets the same handle whatever the order of the tables. -/
theorem intern_snd_eq (k : Key) (source : Option Source) :
    (g'.intern k source).2 = (g.intern k source).2 := by
  have hlookup : g'.registry.lookup k = g.registry.lookup k := h.lookup_eq k
  cases hid : g.registry.lookup k with
  | some id => rw [intern_of_lookup hid, intern_of_lookup (hlookup.trans hid)]
  | none =>
    rw [intern_of_lookup_none hid, intern_of_lookup_none (hlookup.trans hid), id_addNode,
      id_addNode, h.generation, h.size]

/-- A call gives its handle and its notice whatever the order of the tables. -/
theorem enter_snd_eq {l : Ledger} (hg : g.Records l) (host : Host) (o : Observation) :
    (g'.enter host o).2 = (g.enter host o).2 := by
  have hafter : (g.enter host o).1.Reorders (g'.enter host o).1 := h.apply hg (.enter host o)
  -- What the call gives can be read off the frame that it opens.
  obtain ⟨f, hstack, hvertex, hedge⟩ := g.stack_enter host o
  obtain ⟨f', hstack', hvertex', hedge'⟩ := g'.stack_enter host o
  have hframe : f' = f := by
    have heq := hafter.stack
    rw [hstack, hstack', List.cons.injEq] at heq
    exact heq.1
  have hid : (g'.enter host o).2.1 = (g.enter host o).2.1 := by
    rw [hframe, hvertex, Vertex.mk.injEq] at hvertex'
    exact hvertex'.1.symm
  have hid' : (g'.enter host o).2.2.edge = (g.enter host o).2.2.edge := by
    rw [← hedge', ← hedge, hframe]
  have hnotice : ∀ g : Graph, (g.enter host o).2.2 =
      ⟨(g.enter host o).2.2.edge,
        (g.enter host o).1.edges[(g.enter host o).2.2.edge.index]?⟩ := fun _ => rfl
  refine Prod.ext hid ?_
  rw [hnotice g', hnotice g, hid', hafter.edges]

/-- A return gives the same whatever the order of the tables. -/
theorem leave_snd_eq : g'.leave.2 = g.leave.2 := by
  unfold leave
  rw [h.stack, h.edges]
  cases g.stack <;> rfl

/-- An exclusion gives the same handle whatever the order of the registry. -/
theorem exclude_snd_eq (host : Host) (k : Key) : (g'.exclude host k).2 = (g.exclude host k).2 := by
  rw [exclude_snd, exclude_snd, h.intern_snd_eq]

/-- A load fails or gives the same handle whatever the order of the tables. -/
theorem map_snd_load_eq (host : Host) (r : Record) :
    Prod.snd <$> g'.load host r = Prod.snd <$> g.load host r := by
  unfold load
  cases recordProblem host r with
  | some problem => rfl
  | none => exact congrArg Except.ok (h.intern_snd_eq _ none)

/-! ## Questions -/

/-- A handle is refused alike, or denotes the same node, listed in whatever order. -/
theorem node (id : NodeId) :
    (∃ e, g.node id = .error e ∧ g'.node id = .error e) ∨
      ∃ n n', g.node id = .ok n ∧ g'.node id = .ok n' ∧ n.Reorders n' := by
  cases hn : g.node id with
  | error e =>
    have hmap := h.map_profile_node id
    rw [hn] at hmap
    cases hn' : g'.node id with
    | ok n' => simp [hn', Functor.map, Except.map] at hmap
    | error e' =>
      refine Or.inl ⟨e, rfl, ?_⟩
      simpa [hn', Functor.map, Except.map] using hmap
  | ok n =>
    obtain ⟨hgen, hnode⟩ := node_eq_ok_iff.mp hn
    obtain ⟨n', hn', -⟩ := h.symm.exists_node hnode
    exact Or.inr ⟨n, n', rfl, node_eq_ok_iff.mpr ⟨hgen.trans h.generation.symm, hn'⟩,
      h.nodes _ n n' hnode hn'⟩

/-- An edge has the same ends whatever the order of the tables. -/
theorem edge_eq (id : EdgeId) : g'.edge id = g.edge id := by
  rw [edge, edge, h.generation, h.edges]

/-- An edge is found whatever the order of the tables. -/
theorem findEdge_eq (caller : Option NodeId) (callee : NodeId) :
    g'.findEdge caller callee = g.findEdge caller callee := by
  unfold findEdge
  rcases h.node callee with ⟨e, hn, hn'⟩ | ⟨n, n', hn, hn', hsame⟩
  · rw [hn, hn']
    rfl
  · rw [hn, hn']
    cases caller with
    | none => exact congrArg Except.ok hsame.rootEdge
    | some id =>
      rcases h.node id with ⟨e, hm, hm'⟩ | ⟨m, m', hm, hm', hsame'⟩
      · simp only [hm, hm', bind, Except.bind]
      · simp only [hm, hm', bind, Except.bind, pure, Except.pure, hsame'.key_eq,
          Table.lookup_eq_of_perm hsame.callers]

/-- A question for an owner is answered whatever the order of the tables. -/
theorem map_snd_resolve_eq (host : Host) (id : NodeId) :
    Prod.snd <$> g'.resolve host id = Prod.snd <$> g.resolve host id := by
  unfold resolve
  rcases h.node id with ⟨e, hn, hn'⟩ | ⟨n, n', hn, hn', hsame⟩
  · rw [hn, hn']
    rfl
  · rw [hn, hn']
    exact congrArg Except.ok (hsame.resolve_eq host)

/-- The same nodes are in the arena, in the same order. -/
theorem forall₂_nodes : List.Forall₂ Node.Reorders g.nodes.toList g'.nodes.toList := by
  rw [List.forall₂_iff_get]
  refine ⟨by simp [h.size], ?_⟩
  intro i hi hi'
  apply h.nodes i
  · simp [Array.getElem?_eq_getElem (by simpa using hi : i < g.nodes.size)]
  · simp [Array.getElem?_eq_getElem (by simpa using hi' : i < g'.nodes.size)]

omit h in
/-- The same nodes of a list are left if those that are excluded are dropped. -/
theorem forall₂_listed {ns ns' : List Node} (h : List.Forall₂ Node.Reorders ns ns')
    (generation start : Nat) :
    List.Forall₂ (fun p p' : NodeId × Node => p'.1 = p.1 ∧ p.2.Reorders p'.2)
      (((ns.zipIdx start).filter fun p => !p.1.excluded).map fun p =>
        (⟨generation, p.2⟩, p.1))
      (((ns'.zipIdx start).filter fun p => !p.1.excluded).map fun p =>
        (⟨generation, p.2⟩, p.1)) := by
  induction h generalizing start with
  | nil => exact .nil
  | @cons n n' ns ns' hn _ ih =>
    have hexcluded : n'.excluded = n.excluded := congrArg Profile.excluded hn.profile
    rw [List.zipIdx_cons, List.zipIdx_cons, List.filter_cons, List.filter_cons]
    simp only [hexcluded]
    split
    · exact .cons ⟨rfl, hn⟩ (ih (start + 1))
    · exact ih (start + 1)

/-- The same methods are listed under the same handles, in the same order. -/
theorem methods : List.Forall₂ (fun p p' : NodeId × Node => p'.1 = p.1 ∧ p.2.Reorders p'.2)
    g.methods g'.methods := by
  unfold Graph.methods
  rw [h.generation]
  exact forall₂_listed h.forall₂_nodes g.generation 0

omit h in
/-- What is read off each method that is listed, but for the order of its tables, is the same. -/
theorem map_methods_eq {α : Type} (h : g.Reorders g') {f : NodeId × Node → α}
    (hf : ∀ p p' : NodeId × Node, p'.1 = p.1 → p.2.Reorders p'.2 → f p' = f p) :
    g'.methods.map f = g.methods.map f := by
  have hmethods := h.methods
  generalize g.methods = ms at hmethods
  generalize g'.methods = ms' at hmethods
  induction hmethods with
  | nil => rfl
  | @cons p p' ms ms' hp _ ih => rw [List.map_cons, List.map_cons, hf p p' hp.1 hp.2, ih]

/-- The records of all methods are the same in whatever order the tables are listed. -/
theorem dumpAll_eq {l : Ledger} (hg : g.Records l) (hl : l.Consistent) :
    g'.dumpAll = g.dumpAll := by
  have hdump : (fun p : NodeId × Node => g'.dump p.1) = fun p => g.dump p.1 := by
    funext p
    exact h.dump_eq hg hl p.1
  have hids : g'.methods.map Prod.fst = g.methods.map Prod.fst :=
    h.map_methods_eq fun _ _ hid _ => hid
  have hmap : ∀ ms : List (NodeId × Node),
      (ms.mapM fun p => g.dump p.1) = (ms.map Prod.fst).mapM g.dump := by
    intro ms
    rw [List.mapM_map]
    rfl
  rw [dumpAll, dumpAll, hdump, hmap, hmap, hids]

end Reorders

end Graph

end CallGraph
