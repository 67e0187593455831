import CallGraph.Proofs.Crossing

/-!
# Handles that are kept

A graph keeps handles in its registry, in its open calls, in its edges and in the tables of its
nodes, and its actions follow them into the arenas without asking whether they lead anywhere.  Each
action has a careful twin here, which reads what it needs through the handles alone and gives up at
the first index that is out of range.  On a graph with a history no twin ever gives up, and each
does what its action does.

Main results:

- Theorem `Sound.alive_of_mem_kept` says that every handle that is kept is alive.
- Theorems `link?_eq`, `Sound.enter?_eq` and `Sound.absorb?_eq`, and those like them, say that no
  action leaves the arenas.
- Theorem `housed_applyAll` says that after every history the registry and the arena of nodes are in
  bijection, that no action leaves the arenas, and that all records can be told.
-/

namespace CallGraph

namespace Graph

/-! ## What is kept -/

/-- The handles that a graph keeps in its open calls, its edges and the tables of its nodes. -/
def kept (g : Graph) : List Handle :=
  (g.stack.flatMap fun f => [.node f.vertex.id, .edge f.edge]) ++
    g.edges.toList.flatMap Edge.handles ++ g.nodes.toList.flatMap Node.handles

/-- The handles of an open call are alive. -/
theorem Sound.alive_of_mem_stack {g : Graph} (hg : g.Sound) {f : Frame} (hf : f ∈ g.stack) :
    g.Alive (.node f.vertex.id) ∧ g.Alive (.edge f.edge) := by
  have hvertex := hg.path.has_of_mem hf
  obtain ⟨caller, hjoin⟩ := hg.path.joins_of_mem hf
  exact ⟨⟨_, hvertex⟩, ⟨_, hjoin⟩⟩

/-- Every handle that is kept is alive. -/
theorem Sound.alive_of_mem_kept {g : Graph} (hg : g.Sound) {h : Handle} (hmem : h ∈ g.kept) :
    g.Alive h := by
  simp only [kept, List.mem_append, List.mem_flatMap] at hmem
  rcases hmem with (⟨f, hf, hmem⟩ | ⟨e, he, hmem⟩) | ⟨n, hn, hmem⟩
  · obtain ⟨hnode, hedge⟩ := hg.alive_of_mem_stack hf
    simp only [List.mem_cons, List.not_mem_nil, or_false] at hmem
    rcases hmem with heq | heq
    · exact heq ▸ hnode
    · exact heq ▸ hedge
  · obtain ⟨i, hi⟩ := List.getElem?_of_mem he
    have hjoin : g.Joins ⟨g.generation, i⟩ e := ⟨rfl, by simpa using hi⟩
    exact hg.alive_of_mem_ends hjoin hmem
  · obtain ⟨i, hi⟩ := List.getElem?_of_mem hn
    have hnode : g.node ⟨g.generation, i⟩ = .ok n :=
      node_eq_ok_iff.mpr ⟨rfl, by simpa using hi⟩
    exact hg.alive_of_mem_node hnode hmem

/-! ## Careful twins -/

/-- Change the node at the index of a handle, if there is one. -/
def adjust? (g : Graph) (id : NodeId) (f : Node → Node) : Option Graph :=
  if id.index < g.nodes.size then some (g.adjust id f) else none

/-- The vertex at the index of a handle, if there is one. -/
def vertex? (g : Graph) (id : NodeId) : Option Vertex :=
  g.nodes[id.index]?.map fun n => ⟨id, n.key⟩

/-- Add an edge, and index it at the nodes of its ends. -/
def addEdge? (g : Graph) (caller : Option Vertex) (callee : Vertex) : Option (Graph × EdgeId) := do
  let id : EdgeId := ⟨g.generation, g.edges.size⟩
  let g : Graph := { g with edges := g.edges.push ⟨caller.map Vertex.id, callee.id⟩ }
  match caller with
  | some c =>
    let g ← g.adjust? callee.id fun n => { n with callers := n.callers.insert c.key id }
    let g ← g.adjust? c.id fun n => { n with callees := n.callees.insert callee.key id }
    return (g, id)
  | none =>
    let g ← g.adjust? callee.id fun n => { n with rootEdge := some id }
    return (g, id)

/-- Find or add the edge between two handles, whose keys are read from the arena. -/
def link? (g : Graph) (caller : Option NodeId) (callee : NodeId) : Option (Graph × EdgeId) := do
  let caller ← caller.mapM g.vertex?
  let callee ← g.vertex? callee
  let n ← g.nodes[callee.id.index]?
  let found := match caller with
    | some c => n.callers.lookup c.key
    | none => n.rootEdge
  match found with
  | some id => return (g, id)
  | none => g.addEdge? caller callee

/-- Mark a node that is called. -/
def mark? (g : Graph) (id : NodeId) : Option Graph := do
  let g ← if g.stack.isEmpty then g.adjust? id fun n => { n with root := true } else some g
  if g.isOpen id then g.adjust? id fun n => { n with recursive := true } else some g

/-- Record a call, and look its edge up for the listener. -/
def enter? (g : Graph) (host : Host) (o : Observation) : Option (Graph × NodeId × Notice) := do
  let key := o.key host
  let (g, id) := g.intern key o.source
  let caller := g.stack.head?.map fun f => f.vertex.id
  let g ← g.mark? id
  let (g, edge) ← g.link? caller id
  let ends ← g.edges[edge.index]?
  return ({ g with stack := ⟨⟨id, key⟩, edge⟩ :: g.stack }, id, ⟨edge, some ends⟩)

/-- Record a return, and look its edge up for the listener. -/
def leave? (g : Graph) : Option (Graph × Option (NodeId × Notice)) :=
  match g.stack with
  | [] => some (g, none)
  | f :: rest => do
    let ends ← g.edges[f.edge.index]?
    return ({ g with stack := rest }, some (f.vertex.id, ⟨f.edge, some ends⟩))

/-- Leave a method out of every listing. -/
def exclude? (g : Graph) (host : Host) (k : Key) : Option (Graph × NodeId) :=
  let key := k.canonical host
  match g.registry.lookup key with
  | some id => do
    let g ← g.adjust? id fun n => { n with excluded := true }
    return (g, id)
  | none => some (g.addNode { key := key, excluded := true })

/-- Add an incoming call of a method. -/
def absorbCaller? (host : Host) (id : NodeId) (g : Graph) (c : CallRecord) : Option Graph :=
  match c.caller with
  | some peer => do
    let (g, caller) := g.intern (peer.canonical host) none
    let (g, _) ← g.link? (some caller) id
    return g
  | none => do
    let g ← g.adjust? id fun n => { n with root := true }
    let (g, _) ← g.link? none id
    return g

/-- Add an outgoing call of a method. -/
def absorbCallee? (host : Host) (id : NodeId) (g : Graph) (c : CallRecord) : Option Graph := do
  let (g, callee) := g.intern (c.callee.canonical host) none
  let (g, _) ← g.link? (some id) callee
  return g

/-- Take in a record that has been checked. -/
def absorb? (g : Graph) (host : Host) (r : Record) : Option (Graph × NodeId) := do
  let (g, id) := g.intern (r.key.canonical host) none
  let g ← g.adjust? id fun n =>
    { n with source := sourceOf r, recursive := n.recursive || r.recursive }
  let g ← r.callers.foldlM (absorbCaller? host id) g
  let g ← r.callees.foldlM (absorbCallee? host id) g
  return (g, id)

/-- Load a record. -/
def load? (g : Graph) (host : Host) (r : Record) : Option (Except GraphError (Graph × NodeId)) :=
  match recordProblem host r with
  | some problem => some (.error (.malformedRecord problem))
  | none => (g.absorb? host r).map .ok

/-! ## No twin gives up -/

/-- The index of a vertex is in range. -/
theorem Has.lt_size {g : Graph} {v : Vertex} (h : g.Has v) : v.id.index < g.nodes.size := by
  have hindex := (List.getElem?_eq_some_iff.mp h.key).1
  rwa [length_keys] at hindex

/-- Changing the node of a vertex, with the index checked, is changing it. -/
theorem Has.adjust?_eq {g : Graph} {v : Vertex} (h : g.Has v) (f : Node → Node) :
    g.adjust? v.id f = some (g.adjust v.id f) := by
  rw [adjust?, if_pos h.lt_size]

/-- The vertex of a handle, with the index checked, is the vertex. -/
theorem Has.vertex?_eq {g : Graph} {v : Vertex} (h : g.Has v) : g.vertex? v.id = some v := by
  have hkey := h.key
  rw [getElem?_keys, Option.map_eq_some_iff] at hkey
  obtain ⟨n, hn, hk⟩ := hkey
  simp [vertex?, hn, hk]

section Linking

variable {g : Graph} {caller : Option Vertex} {callee : Vertex}
  (hcaller : ∀ c, caller = some c → g.Has c) (hcallee : g.Has callee)

include hcaller hcallee

/-- Adding an edge between two vertices, with every index checked, is adding it. -/
theorem addEdge?_eq : g.addEdge? caller callee = some (g.addEdge caller callee) := by
  have hsize := hcallee.lt_size
  cases caller with
  | none => simp [addEdge?, addEdge, adjust?, hsize]
  | some c =>
    have hsize' := (hcaller c rfl).lt_size
    simp [addEdge?, addEdge, adjust?, hsize, hsize']

/-- The edge of two handles is found or added without leaving the arenas. -/
theorem link?_eq : g.link? (caller.map Vertex.id) callee.id = some (g.link caller callee) := by
  have hvertices : (caller.map Vertex.id).mapM g.vertex? = some caller := by
    cases caller with
    | none => rfl
    | some c => simp [(hcaller c rfl).vertex?_eq]
  have hindex := hcallee.lt_size
  have hnode : g.nodes[callee.id.index]? = some g.nodes[callee.id.index] :=
    Array.getElem?_eq_getElem hindex
  have hadd := addEdge?_eq hcaller hcallee
  simp only [link?, hvertices, hcallee.vertex?_eq, hnode, bind, Option.bind]
  cases caller with
  | none =>
    simp only [link, edgeBetween, hnode, Option.map_none, Option.bind_some]
    cases g.nodes[callee.id.index].rootEdge with
    | none => exact hadd
    | some id => rfl
  | some c =>
    simp only [link, edgeBetween, hnode, Option.map_some, Option.bind_some]
    cases g.nodes[callee.id.index].callers.lookup c.key with
    | none => exact hadd
    | some id => rfl

end Linking

/-- Marking a node sets one flag, the other one, or none. -/
theorem Has.mark?_eq {g : Graph} {v : Vertex} (h : g.Has v) :
    g.mark? v.id = some (g.mark v.id) := by
  cases hstack : g.stack with
  | nil =>
    simp [mark?, mark, hstack, h.adjust?_eq, isOpen]
  | cons f rest =>
    by_cases hopen : g.isOpen v.id = true
    · simp [mark?, mark, hstack, hopen, h.adjust?_eq]
    · have hsame : g.mark v.id = g := by
        apply adjust_eq_self
        intro n _
        simp [hstack, hopen]
      simp [mark?, hstack, hopen, hsame]

section Sound

variable {g : Graph} (hg : g.Sound)

include hg

/-- A call of a sound graph, with every index checked, is the call. -/
theorem Sound.enter?_eq (host : Host) (o : Observation) :
    g.enter? host o = some (g.enter host o) := by
  have hintern := hg.records.intern (o.key host) o.source
  have hv := hg.has_intern (o.key host) o.source
  cases hpair : g.intern (o.key host) o.source with
  | mk g' id =>
    rw [hpair] at hintern hv
    have hmark := hintern.mark hv
    have hv' : (g'.mark id).Has ⟨id, o.key host⟩ := hv.mono (extends_mark g' id)
    have hcaller : ∀ c, g'.stack.head?.map Frame.vertex = some c → (g'.mark id).Has c := by
      intro c hc
      obtain ⟨f, hf, heq⟩ := Option.map_eq_some_iff.mp hc
      have hhead := hmark.sound.path.has_head hf
      exact heq ▸ hhead
    have hlink := link?_eq hcaller hv'
    have hjoin := hmark.sound.joins_link hcaller hv'
    rw [Option.map_map] at hlink
    simp only [enter?, enter, hpair, hv.mark?_eq, bind, Option.bind]
    simp only [Function.comp_def] at hlink
    simp only [hlink, hjoin.ends]
    rfl

/-- A return of a sound graph, with every index checked, is the return. -/
theorem Sound.leave?_eq : g.leave? = some g.leave := by
  cases hstack : g.stack with
  | nil => simp [leave?, leave, hstack]
  | cons f rest =>
    have hmem : f ∈ g.stack := by simp [hstack]
    obtain ⟨caller, hjoin⟩ := hg.path.joins_of_mem hmem
    simp [leave?, leave, hstack, hjoin.ends]

/-- An exclusion in a sound graph, with every index checked, is the exclusion. -/
theorem Sound.exclude?_eq (host : Host) (k : Key) :
    g.exclude? host k = some (g.exclude host k) := by
  cases hid : g.registry.lookup (k.canonical host) with
  | none => simp [exclude?, exclude, hid]
  | some id =>
    have hv := (hg.registry _ _).mp hid
    simp [exclude?, exclude, hid, hv.adjust?_eq]

/-- Taking an incoming call in, with every index checked, is taking it in. -/
theorem Sound.absorbCaller?_eq (host : Host) {v : Vertex} (hv : g.Has v) (c : CallRecord) :
    absorbCaller? host v.id g c = some (absorbCaller host v g c) := by
  unfold absorbCaller? absorbCaller
  cases c.caller with
  | none =>
    have hv' := hv.mono (extends_adjust keepsLinks_root g v.id)
    have hlink := @link?_eq _ none v (by simp) hv'
    rw [Option.map_none] at hlink
    simp [hv.adjust?_eq, hlink]
  | some peer =>
    have hpeer := hg.has_intern (peer.canonical host) none
    have hv' := hv.mono (extends_intern g (peer.canonical host) none)
    have hlink := @link?_eq _ (some ⟨_, peer.canonical host⟩) v
      (fun c hc => Option.some.inj hc ▸ hpeer) hv'
    rw [Option.map_some] at hlink
    simp [hlink]

/-- Taking an outgoing call in, with every index checked, is taking it in. -/
theorem Sound.absorbCallee?_eq (host : Host) {v : Vertex} (hv : g.Has v) (c : CallRecord) :
    absorbCallee? host v.id g c = some (absorbCallee host v g c) := by
  have hpeer := hg.has_intern (c.callee.canonical host) none
  have hv' := hv.mono (extends_intern g (c.callee.canonical host) none)
  have hlink := @link?_eq _ (some v) _ (fun c hc => Option.some.inj hc ▸ hv') hpeer
  rw [Option.map_some] at hlink
  simp [absorbCallee?, absorbCallee, hlink]

end Sound

/-- Twins that do not give up on a sound graph can be repeated. -/
theorem foldlM_eq {v : Vertex} {twin : Graph → CallRecord → Option Graph}
    {step : Graph → CallRecord → Graph}
    (htwin : ∀ {g : Graph}, g.Sound → g.Has v → ∀ c, twin g c = some (step g c))
    (hstep : ∀ {g : Graph}, g.Sound → g.Has v → ∀ c, (step g c).Sound ∧ (step g c).Has v)
    {g : Graph} (hg : g.Sound) (hv : g.Has v) (calls : List CallRecord) :
    calls.foldlM twin g = some (calls.foldl step g) := by
  induction calls generalizing g with
  | nil => rfl
  | cons c rest ih =>
    obtain ⟨hsound, hv'⟩ := hstep hg hv c
    rw [List.foldlM_cons, htwin hg hv c, List.foldl_cons]
    exact ih hsound hv'

section Loads

variable {g : Graph} (hg : g.Sound)

include hg

/-- Taking a record in, with every index checked, is taking it in. -/
theorem Sound.absorb?_eq (host : Host) (r : Record) :
    g.absorb? host r = some (g.absorb host r) := by
  have hintern := hg.records.intern (r.key.canonical host) none
  have hv := hg.has_intern (r.key.canonical host) none
  cases hpair : g.intern (r.key.canonical host) none with
  | mk g' id =>
    rw [hpair] at hintern hv
    have hdescribe := hintern.sound.adjust (keepsLinks_describe r) id
    have hv' := hv.mono (extends_adjust (keepsLinks_describe r) g' id)
    have hcallers := foldlM_eq (fun hg hv c => hg.absorbCaller?_eq host hv c)
      (fun hg hv c => (hg.records.absorbCaller host hv c).imp_left Records.sound) hdescribe hv'
      r.callers
    obtain ⟨hrec, hv''⟩ := hdescribe.records.foldl (fun h hv c => h.absorbCaller host hv c) hv'
      r.callers
    have hcallees := foldlM_eq (fun hg hv c => hg.absorbCallee?_eq host hv c)
      (fun hg hv c => (hg.records.absorbCallee host hv c).imp_left Records.sound) hrec.sound hv''
      r.callees
    simp only [absorb?, absorb, hpair, hv.adjust?_eq, hcallers, hcallees, bind, Option.bind, pure]

/-- Loading a record, with every index checked, is loading it. -/
theorem Sound.load?_eq (host : Host) (r : Record) : g.load? host r = some (g.load host r) := by
  unfold load? load
  cases recordProblem host r with
  | some problem => rfl
  | none => simp [hg.absorb?_eq]

end Loads

/-! ## Every history -/

/-- The registry and the arena of nodes are in bijection, and every handle that is kept is in range
with the current generation. -/
structure Housed (g : Graph) : Prop where
  lookup : ∀ k id, g.lookup k = some id ↔
    id.generation = g.generation ∧ ∃ n, g.nodes[id.index]? = some n ∧ n.key = k
  keys : (g.nodes.toList.map Node.key).Nodup
  kept : ∀ h ∈ g.kept, h.generation = g.generation ∧ h.index < g.arenaSize h

/-- No twin gives up, and each does what its action does. -/
structure InBounds (g : Graph) : Prop where
  link : ∀ caller callee, (∀ c, caller = some c → g.lookup c.key = some c.id) →
    g.lookup callee.key = some callee.id →
      g.link? (caller.map Vertex.id) callee.id = some (g.link caller callee)
  enter : ∀ host o, g.enter? host o = some (g.enter host o)
  leave : g.leave? = some g.leave
  exclude : ∀ host k, g.exclude? host k = some (g.exclude host k)
  load : ∀ host r, g.load? host r = some (g.load host r)

section Histories

variable {g : Graph} (hg : g.Sound)

include hg

/-- In a sound graph with different keys the registry and the arena tell each other. -/
theorem Sound.housed (hkeys : g.keys.Nodup) : g.Housed where
  lookup k id := by
    rw [lookup, hg.registry, has_iff_node]
    simp only [node_eq_ok_iff]
    constructor
    · rintro ⟨n, ⟨hgen, hn⟩, hk⟩
      exact ⟨hgen, n, hn, hk⟩
    · rintro ⟨hgen, n, hn, hk⟩
      exact ⟨n, ⟨hgen, hn⟩, hk⟩
  keys := hkeys
  kept _ hmem := alive_iff.mp (hg.alive_of_mem_kept hmem)

/-- In a sound graph no operation leaves the range of an index. -/
theorem Sound.inBounds : g.InBounds where
  link _ _ hcaller hcallee :=
    link?_eq (fun c hc => (hg.registry _ _).mp (hcaller c hc)) ((hg.registry _ _).mp hcallee)
  enter := hg.enter?_eq
  leave := hg.leave?_eq
  exclude := hg.exclude?_eq
  load := hg.load?_eq

end Histories

/-- After every history each method has one node, every handle that is kept leads to one, no action
leaves the arenas, and all records can be told. -/
theorem housed_applyAll (actions : List Action) :
    (empty.applyAll actions).Housed ∧ (empty.applyAll actions).InBounds ∧
      ∃ rs, (empty.applyAll actions).dumpAll = .ok rs := by
  have h := records_applyAll actions
  have hl := Ledger.consistent_empty.applyAll actions
  have hkeys : (empty.applyAll actions).keys.Nodup := by
    rw [← keys_ledger, h.ledger_eq]
    exact hl.keys_nodup
  exact ⟨h.sound.housed hkeys, h.sound.inBounds, _, h.dumpAll hl⟩

end Graph

end CallGraph
