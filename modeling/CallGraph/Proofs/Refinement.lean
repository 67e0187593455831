import CallGraph.Proofs.Arena
import CallGraph.Proofs.Ledger

/-!
# The ledger of a call graph

A sound graph is read as a ledger by replacing every handle by the key it denotes.  What an action
does to a graph is then what its counterpart does to the ledger: the handles, the tables and the
generation of a graph are an index of its ledger and hold nothing else.

Main results:

- Theorem `Records.apply` says that every action does to a ledger what it does to its graph.
- Theorem `records_applyAll` says the same of a history of a new graph.
-/

namespace CallGraph

/-- What a node says of its method apart from its calls. -/
def Node.profile (n : Node) : Profile := ⟨n.key, n.source, n.root, n.recursive, n.excluded⟩

namespace Graph

/-! ## Reading a graph -/

/-- The key that a handle denotes. -/
def keyAt (g : Graph) (id : NodeId) : Key := (g.keys[id.index]?).getD .blank

/-- The call of an edge, told by the keys of its ends. -/
def callAt (g : Graph) (e : Edge) : CallRecord := ⟨e.caller.map g.keyAt, g.keyAt e.callee⟩

/-- The ledger of a graph. -/
def ledger (g : Graph) : Ledger where
  profiles := g.nodes.toList.map Node.profile
  calls := g.edges.toList.map g.callAt
  stack := g.stack.map fun f => f.vertex.key

/-- A sound graph and its ledger. -/
structure Records (g : Graph) (l : Ledger) : Prop where
  sound : g.Sound
  ledger_eq : g.ledger = l

/-- A sound graph records its own ledger. -/
theorem Sound.records {g : Graph} (hg : g.Sound) : g.Records g.ledger := ⟨hg, rfl⟩

/-- A graph and its ledger list the same keys. -/
@[simp] theorem keys_ledger (g : Graph) : g.ledger.keys = g.keys := by
  simp [ledger, Ledger.keys, keys, Node.profile, Function.comp_def]

/-- A graph and its ledger have the same open calls. -/
@[simp] theorem stack_ledger (g : Graph) :
    g.ledger.stack = g.stack.map fun f => f.vertex.key := rfl

/-- The calls of the ledger are those of the edges, at the same places. -/
theorem getElem?_calls_ledger (g : Graph) (i : Nat) :
    g.ledger.calls[i]? = g.edges[i]?.map g.callAt := by
  simp [ledger]

/-- The methods of the ledger are those of the nodes, at the same places. -/
theorem getElem?_profiles_ledger (g : Graph) (i : Nat) :
    g.ledger.profiles[i]? = g.nodes[i]?.map Node.profile := by
  simp [ledger]

/-- The handle of a vertex denotes its key. -/
theorem Has.keyAt_eq {g : Graph} {v : Vertex} (h : g.Has v) : g.keyAt v.id = v.key := by
  rw [keyAt, h.key, Option.getD_some]

/-- The handle of a vertex is known once its key is. -/
theorem Has.mem_keys {g : Graph} {v : Vertex} (h : g.Has v) : v.key ∈ g.keys :=
  List.mem_of_getElem? h.key

/-- Every key of a graph has a handle. -/
theorem exists_has_of_mem {g : Graph} {k : Key} (h : k ∈ g.keys) : ∃ id, g.Has ⟨id, k⟩ := by
  rcases List.getElem?_of_mem h with ⟨i, hi⟩
  exact ⟨⟨g.generation, i⟩, rfl, hi⟩

/-- The call of an edge between vertices is told by their keys. -/
theorem callAt_eq {g : Graph} {caller : Option Vertex} {callee : Vertex}
    (hcaller : ∀ c, caller = some c → g.Has c) (hcallee : g.Has callee) :
    g.callAt ⟨caller.map Vertex.id, callee.id⟩ = ⟨caller.map Vertex.key, callee.key⟩ := by
  cases caller with
  | none => simp [callAt, hcallee.keyAt_eq]
  | some c => simp [callAt, hcallee.keyAt_eq, (hcaller c rfl).keyAt_eq]

/-- The ends of an edge as vertices. -/
theorem Sound.vertices {g : Graph} (hg : g.Sound) {id : EdgeId} {e : Edge} (h : g.Joins id e) :
    ∃ caller callee, e = ⟨caller.map Vertex.id, callee.id⟩ ∧
      (∀ c, caller = some c → g.Has c) ∧ g.Has callee := by
  rcases hg.callee id e h with ⟨k, hk⟩
  rcases e with ⟨_ | c, b⟩
  · exact ⟨none, ⟨b, k⟩, rfl, by simp, hk⟩
  · rcases hg.caller id c b h with ⟨kc, hkc⟩
    refine ⟨some ⟨c, kc⟩, ⟨b, k⟩, rfl, ?_, hk⟩
    intro v hv
    exact Option.some.inj hv ▸ hkc

/-- The calls of the edges that are there stay what they are. -/
theorem Sound.map_callAt {g g' : Graph} (hg : g.Sound) (hext : g.Extends g') :
    g.edges.toList.map g'.callAt = g.edges.toList.map g.callAt := by
  apply List.map_congr_left
  intro e he
  rcases List.getElem?_of_mem he with ⟨i, hi⟩
  have hjoin : g.Joins ⟨g.generation, i⟩ e := ⟨rfl, by simpa using hi⟩
  rcases hg.vertices hjoin with ⟨caller, callee, rfl, hcaller, hcallee⟩
  rw [callAt_eq hcaller hcallee,
    callAt_eq (fun c hc => (hcaller c hc).mono hext) (hcallee.mono hext)]

/-- Edges of one call have the same ends, since a key has one node only. -/
theorem Sound.ends_eq {g : Graph} (hg : g.Sound) {caller caller' : Option Vertex}
    {callee callee' : Vertex} (hcaller : ∀ c, caller = some c → g.Has c) (hcallee : g.Has callee)
    (hcaller' : ∀ c, caller' = some c → g.Has c) (hcallee' : g.Has callee')
    (h : (⟨caller'.map Vertex.key, callee'.key⟩ : CallRecord) =
      ⟨caller.map Vertex.key, callee.key⟩) :
    (⟨caller'.map Vertex.id, callee'.id⟩ : Edge) = ⟨caller.map Vertex.id, callee.id⟩ := by
  rw [CallRecord.mk.injEq] at h
  rcases h with ⟨hkc, hkb⟩
  have hb : callee'.id = callee.id := by
    apply hg.id_unique hcallee'
    rw [hkb]
    exact hcallee
  have hc : caller'.map Vertex.id = caller.map Vertex.id := by
    cases caller with
    | none => simp_all
    | some c =>
      rcases Option.map_eq_some_iff.mp hkc with ⟨c', rfl, hk⟩
      have hid : c'.id = c.id := by
        apply hg.id_unique (hcaller' c' rfl)
        rw [hk]
        exact hcaller c rfl
      simp [hid]
  rw [hb, hc]

/-- A call is recorded exactly if its pair has an edge. -/
theorem Sound.mem_calls_iff {g : Graph} (hg : g.Sound) {caller : Option Vertex} {callee : Vertex}
    (hcaller : ∀ c, caller = some c → g.Has c) (hcallee : g.Has callee) :
    ⟨caller.map Vertex.key, callee.key⟩ ∈ g.ledger.calls ↔
      ∃ id, g.Joins id ⟨caller.map Vertex.id, callee.id⟩ := by
  constructor
  · intro h
    rcases List.getElem?_of_mem h with ⟨i, hi⟩
    rw [getElem?_calls_ledger, Option.map_eq_some_iff] at hi
    rcases hi with ⟨e, he, hcall⟩
    have hjoin : g.Joins ⟨g.generation, i⟩ e := ⟨rfl, he⟩
    rcases hg.vertices hjoin with ⟨caller', callee', rfl, hcaller', hcallee'⟩
    rw [callAt_eq hcaller' hcallee'] at hcall
    have hends := hg.ends_eq hcaller hcallee hcaller' hcallee' hcall
    exact ⟨_, by rw [← hends]; exact hjoin⟩
  · rintro ⟨id, hjoin⟩
    apply List.mem_of_getElem? (i := id.index)
    rw [getElem?_calls_ledger, hjoin.ends, Option.map_some, callAt_eq hcaller hcallee]

/-- What is chained succeeds exactly if both steps do. -/
theorem bind_eq_ok_iff {ε α β : Type} {x : Except ε α} {f : α → Except ε β} {b : β} :
    x >>= f = .ok b ↔ ∃ a, x = .ok a ∧ f a = .ok b := by
  cases x <;> simp [bind, Except.bind]

/-- What is mapped succeeds exactly if it did before. -/
theorem map_eq_ok_iff {ε α β : Type} {x : Except ε α} {f : α → β} {b : β} :
    f <$> x = .ok b ↔ ∃ a, x = .ok a ∧ f a = b := by
  cases x <;> simp [Functor.map, Except.map]

/-- A question that is answered for every entry of a list is answered for the list. -/
theorem mapM_eq_ok {α β ε : Type} {f : α → Except ε β} {h : α → β} {as : List α}
    (hf : ∀ a ∈ as, f a = .ok (h a)) : as.mapM f = .ok (as.map h) := by
  induction as with
  | nil => rfl
  | cons a rest ih =>
    rw [List.mapM_cons, hf a List.mem_cons_self, ih fun b hb => hf b (List.mem_cons_of_mem a hb)]
    rfl

/-- An edge is told by the keys of its ends. -/
theorem Sound.callRecord_of_joins {g : Graph} (hg : g.Sound) {id : EdgeId} {e : Edge}
    (h : g.Joins id e) : g.callRecord id = .ok (g.callAt e) := by
  rcases hg.vertices h with ⟨caller, callee, rfl, hcaller, hcallee⟩
  rcases has_iff_node.mp hcallee with ⟨n, hn, hkey⟩
  rw [callAt_eq hcaller hcallee, callRecord, joins_iff_edge.mp h]
  cases caller with
  | none => simp [hn, hkey, bind, Except.bind, pure, Except.pure]
  | some c =>
    rcases has_iff_node.mp (hcaller c rfl) with ⟨m, hm, hkey'⟩
    simp [hn, hkey, hm, hkey', bind, Except.bind, pure, Except.pure, Functor.map, Except.map]

/-- The edges that can be told by keys are those whose handles are alive. -/
theorem Sound.callRecord_eq_ok_iff {g : Graph} (hg : g.Sound) {id : EdgeId} {c : CallRecord} :
    g.callRecord id = .ok c ↔
      id.generation = g.generation ∧ g.ledger.calls[id.index]? = some c := by
  rw [getElem?_calls_ledger, Option.map_eq_some_iff]
  constructor
  · intro h
    rcases bind_eq_ok_iff.mp h with ⟨e, he, -⟩
    have hjoin := joins_iff_edge.mpr he
    rw [hg.callRecord_of_joins hjoin, Except.ok.injEq] at h
    exact ⟨hjoin.generation, e, hjoin.ends, h⟩
  · rintro ⟨hgen, e, he, rfl⟩
    exact hg.callRecord_of_joins ⟨hgen, he⟩

/-! ## The operations -/

/-- A key has a handle in the registry exactly if its method is recorded. -/
theorem Sound.registry_eq_none_iff {g : Graph} (hg : g.Sound) {k : Key} :
    g.registry.lookup k = none ↔ k ∉ g.keys := by
  constructor
  · intro h hk
    rcases exists_has_of_mem hk with ⟨id, hid⟩
    rw [(hg.registry k id).mpr hid] at h
    simp at h
  · intro h
    cases hid : g.registry.lookup k with
    | none => rfl
    | some id => exact (h ((hg.registry k id).mp hid).mem_keys).elim

/-- A new edge leaves what a node says of its method alone. -/
@[simp] theorem profile_attach (id : EdgeId) (caller : Option Vertex) (callee : Vertex) (i : Nat)
    (n : Node) : (attach id caller callee i n).profile = n.profile := by
  unfold attach Node.profile
  cases caller <;> grind

/-- A node that is added is a method that comes after the others. -/
theorem Sound.ledger_addNode {g : Graph} (hg : g.Sound) (node : Node) :
    (g.addNode node).1.ledger =
      { g.ledger with profiles := g.ledger.profiles ++ [node.profile] } := by
  have hcalls := hg.map_callAt (extends_addNode g node)
  simp only [ledger, Ledger.mk.injEq]
  exact ⟨by simp, hcalls, rfl⟩

namespace Records

variable {g : Graph} {l : Ledger} (h : g.Records l)

include h

/-- A graph and its ledger have the same keys. -/
theorem mem_keys_iff {k : Key} : k ∈ l.keys ↔ k ∈ g.keys := by
  rw [← h.ledger_eq, keys_ledger]

/-- Interning does to the ledger what it does to the graph. -/
theorem intern (k : Key) (source : Option Source) :
    (g.intern k source).1.Records (l.intern k source) := by
  refine ⟨h.sound.intern k source, ?_⟩
  rcases h with ⟨hg, rfl⟩
  cases hid : g.registry.lookup k with
  | some id =>
    have hk := ((hg.registry k id).mp hid).mem_keys
    rw [intern_of_lookup hid]
    simp [Ledger.intern, hk]
  | none =>
    have hk := hg.registry_eq_none_iff.mp hid
    rw [intern_of_lookup_none hid, hg.ledger_addNode]
    simp [Ledger.intern, hk, Node.profile]

/-- A change of a node is a change of what is recorded of its method. -/
theorem adjust {f : Node → Node} (hf : KeepsLinks f) {p : Profile → Profile}
    (hp : ∀ n, (f n).profile = p n.profile) {v : Vertex} (hv : g.Has v) :
    (g.adjust v.id f).Records (l.adjust v.key p) := by
  refine ⟨h.sound.adjust hf v.id, ?_⟩
  rcases h with ⟨hg, rfl⟩
  simp only [ledger, Ledger.adjust, Ledger.mk.injEq]
  refine ⟨?_, hg.map_callAt (extends_adjust hf g v.id), rfl⟩
  apply List.ext_getElem?
  intro i
  simp only [Graph.adjust, Array.toList_modify, List.getElem?_map, List.getElem?_modify,
    Array.getElem?_toList]
  cases hn : g.nodes[i]? with
  | none => rfl
  | some n =>
    -- The keys of a sound graph are distinct, so only the node of the handle has the key.
    have hi : v.id.index = i ↔ n.key = v.key := by
      have hhas : g.Has ⟨⟨g.generation, i⟩, n.key⟩ := ⟨rfl, by simp [getElem?_keys, hn]⟩
      constructor
      · intro hi
        have hkey := hv.key
        rw [hi, getElem?_keys, hn] at hkey
        simpa using hkey
      · intro hk
        rw [hk] at hhas
        rw [hg.id_unique hv hhas]
    have hkey : n.profile.key = n.key := rfl
    by_cases hk : n.key = v.key
    · simp [hi, hk, hp, hkey]
    · simp [hi, hk, hkey]

/-- An edge is found or added where its call is in the ledger. -/
theorem link {caller : Option Vertex} {callee : Vertex}
    (hcaller : ∀ c, caller = some c → g.Has c) (hcallee : g.Has callee) :
    (g.link caller callee).1.Records (l.link ⟨caller.map Vertex.key, callee.key⟩) := by
  refine ⟨h.sound.link hcaller hcallee, ?_⟩
  rcases h with ⟨hg, rfl⟩
  cases hid : g.edgeBetween (caller.map Vertex.key) callee.id with
  | some id =>
    have hmem := (hg.mem_calls_iff hcaller hcallee).mpr
      ⟨id, (hg.edgeBetween_iff hcaller hcallee).mp hid⟩
    rw [link_of_edgeBetween hid]
    simp [Ledger.link, hmem]
  | none =>
    have hmem : (⟨caller.map Vertex.key, callee.key⟩ : CallRecord) ∉ g.ledger.calls := by
      intro hmem
      rcases (hg.mem_calls_iff hcaller hcallee).mp hmem with ⟨id, hjoin⟩
      rw [(hg.edgeBetween_iff hcaller hcallee).mpr hjoin] at hid
      simp at hid
    have hlink : g.link caller callee = g.addEdge caller callee := by simp [Graph.link, hid]
    have hext := extends_addEdge g caller callee
    have hcall := callAt_eq (fun c hc => (hcaller c hc).mono hext) (hcallee.mono hext)
    -- An edge changes the tables of its ends, which are no part of what is recorded of a method.
    have hprofiles : (g.addEdge caller callee).1.ledger.profiles = g.ledger.profiles := by
      apply List.ext_getElem?
      intro i
      rw [getElem?_profiles_ledger, getElem?_profiles_ledger, getElem?_nodes_addEdge,
        Option.map_map]
      congr 1
      funext n
      exact profile_attach _ caller callee i n
    rw [hlink]
    simp only [Ledger.link, hmem, if_false, ← hprofiles]
    simp [ledger, hg.map_callAt hext, hcall]

/-- Frames of open calls are told by their keys. -/
theorem withStack {frames : List Frame} (hframes : g.Path frames) :
    ({ g with stack := frames } : Graph).Records
      { l with stack := frames.map fun f => f.vertex.key } := by
  refine ⟨h.sound.withStack hframes, ?_⟩
  rcases h with ⟨hg, rfl⟩
  rfl

end Records

/-! ## Calls, returns and exclusions -/

/-- Every open call is a vertex. -/
theorem Path.has_of_mem {g : Graph} {frames : List Frame} (h : g.Path frames) {f : Frame}
    (hf : f ∈ frames) : g.Has f.vertex := by
  induction h with
  | nil => simp at hf
  | cons vertex _ _ ih =>
    rcases List.mem_cons.mp hf with rfl | hf
    · exact vertex
    · exact ih hf

/-- The edge of an open call leads to its method. -/
theorem Path.joins_of_mem {g : Graph} {frames : List Frame} (h : g.Path frames) {f : Frame}
    (hf : f ∈ frames) : ∃ caller, g.Joins f.edge ⟨caller, f.vertex.id⟩ := by
  induction h with
  | nil => simp at hf
  | cons _ edge _ ih =>
    rcases List.mem_cons.mp hf with heq | hf
    · subst heq
      exact ⟨_, edge⟩
    · exact ih hf

/-- The innermost open call came by the edge of the call from the method that is open below it. -/
theorem Records.call_of_head {g : Graph} {l : Ledger} (h : g.Records l) {f : Frame}
    {below : List Frame} (hf : g.stack = f :: below) :
    f.edge.generation = g.generation ∧
      ∃ k rest, l.stack = k :: rest ∧ l.calls[f.edge.index]? = some ⟨rest.head?, k⟩ := by
  have hpath := h.sound.path
  rw [hf] at hpath
  cases hpath with
  | cons vertex edge hbelow =>
    have hcaller : ∀ c, below.head?.map Frame.vertex = some c → g.Has c := by
      intro c hc
      rcases Option.map_eq_some_iff.mp hc with ⟨f', hf', rfl⟩
      exact hbelow.has_head hf'
    have hcall := callAt_eq hcaller vertex
    rw [Option.map_map, Option.map_map] at hcall
    refine ⟨edge.generation, f.vertex.key, below.map fun f => f.vertex.key, ?_, ?_⟩
    · rw [← h.ledger_eq, stack_ledger, hf, List.map_cons]
    · rw [← h.ledger_eq, getElem?_calls_ledger, edge.ends, Option.map_some, List.head?_map]
      exact congrArg some hcall

/-- A method is open exactly if its key is among those of the open calls. -/
theorem Sound.isOpen_eq {g : Graph} (hg : g.Sound) {v : Vertex} (hv : g.Has v) :
    g.isOpen v.id = decide (v.key ∈ g.ledger.stack) := by
  rw [Bool.eq_iff_iff]
  simp only [isOpen, List.any_eq_true, decide_eq_true_eq, stack_ledger, List.mem_map]
  constructor
  · rintro ⟨f, hf, hid⟩
    refine ⟨f, hf, ?_⟩
    have hfv := hg.path.has_of_mem hf
    rcases hfv' : f.vertex with ⟨id, k⟩
    rw [hfv'] at hfv hid
    subst hid
    exact hfv.key_unique hv
  · rintro ⟨f, hf, hk⟩
    refine ⟨f, hf, ?_⟩
    have hfv := hg.path.has_of_mem hf
    rcases hfv' : f.vertex with ⟨id, k⟩
    rw [hfv'] at hfv hk
    subst hk
    exact hg.id_unique hfv hv

/-- Marking a node extends the graph. -/
theorem extends_mark (g : Graph) (id : NodeId) : g.Extends (g.mark id) :=
  extends_adjust (keepsLinks_mark g id) g id

/-- Excluding a method finds or makes its node and marks it. -/
theorem exclude_fst (g : Graph) (host : Host) (k : Key) :
    (g.exclude host k).1 =
      let r := g.intern (k.canonical host) none
      r.1.adjust r.2 fun n => { n with excluded := true } := by
  cases h : g.registry.lookup (k.canonical host) with
  | some id => simp [exclude, h, intern_of_lookup h]
  | none =>
    simp only [exclude, h, intern_of_lookup_none h, addNode, adjust, Graph.mk.injEq, true_and,
      and_true]
    apply Array.ext_getElem?
    intro i
    rw [Array.getElem?_modify, Array.getElem?_push, Array.getElem?_push]
    by_cases hi : i = g.nodes.size
    · simp [hi]
    · simp [hi, Ne.symm hi]

/-- Excluding a method gives the handle that interning it gives. -/
theorem exclude_snd (g : Graph) (host : Host) (k : Key) :
    (g.exclude host k).2 = (g.intern (k.canonical host) none).2 := by
  cases h : g.registry.lookup (k.canonical host) with
  | some id => simp [exclude, h, intern_of_lookup h]
  | none => simp [exclude, h, intern_of_lookup_none h]

/-- A graph in which nothing has happened yet records nothing. -/
theorem records_fresh (generation : Nat) : ({ generation := generation } : Graph).Records {} :=
  ⟨sound_fresh generation, rfl⟩

namespace Records

variable {g : Graph} {l : Ledger} (h : g.Records l)

include h

/-- A call marks its method in the ledger as it marks the node. -/
theorem mark {v : Vertex} (hv : g.Has v) : (g.mark v.id).Records (l.mark v.key) := by
  have hopen := h.sound.isOpen_eq hv
  have hempty : g.stack.isEmpty = l.stack.isEmpty := by
    rw [← h.ledger_eq, stack_ledger, List.isEmpty_map]
  rw [h.ledger_eq] at hopen
  unfold Graph.mark Ledger.mark
  apply h.adjust
  · exact keepsLinks_mark g v.id
  · intro n
    simp [Node.profile, Profile.called, hopen, hempty]
  · exact hv

/-- A call of a method that has a node. -/
theorem openCall {v : Vertex} (hv : g.Has v) :
    let s := (g.mark v.id).link (g.stack.head?.map Frame.vertex) v
    ({ s.1 with stack := ⟨v, s.2⟩ :: s.1.stack } : Graph).Records
      { (l.mark v.key).link ⟨l.stack.head?, v.key⟩ with stack := v.key :: l.stack } := by
  intro s
  have hmark := h.mark hv
  have hv' : (g.mark v.id).Has v := hv.mono (extends_mark g v.id)
  have hcaller : ∀ c, g.stack.head?.map Frame.vertex = some c → (g.mark v.id).Has c := by
    intro c hc
    rcases Option.map_eq_some_iff.mp hc with ⟨f, hf, rfl⟩
    exact (h.sound.path.has_head hf).mono (extends_mark g v.id)
  have hlink := hmark.link hcaller hv'
  have hjoin := hmark.sound.joins_link hcaller hv'
  have hext := extends_link (g.mark v.id) (g.stack.head?.map Frame.vertex) v
  have hhead : (g.stack.head?.map Frame.vertex).map Vertex.key = l.stack.head? := by
    rw [← h.ledger_eq, stack_ledger, List.head?_map, Option.map_map]
    rfl
  -- The new frame continues the path: its edge leads from the call that was the innermost one.
  have hpath : s.1.Path (⟨v, s.2⟩ :: s.1.stack) := by
    refine .cons (hv'.mono hext) ?_ hlink.sound.path
    simpa [s, Function.comp_def] using hjoin
  have hstack := hlink.withStack hpath
  rw [hhead] at hstack
  have hkeys : s.1.stack.map (fun f => f.vertex.key) = l.stack := by
    rw [← h.ledger_eq, stack_link, stack_mark, stack_ledger]
  simpa [hkeys] using hstack

/-- A call does to the ledger what it does to the graph. -/
theorem enter (host : Host) (o : Observation) :
    (g.enter host o).1.Records (l.enter host o) := by
  have hintern := h.intern (o.key host) o.source
  have hopen := hintern.openCall (h.sound.has_intern (o.key host) o.source)
  rw [Ledger.stack_intern] at hopen
  rw [Ledger.enter_eq]
  exact hopen

/-- So does a return. -/
theorem leave : g.leave.1.Records l.leave := by
  have hstack := h.ledger_eq
  unfold Graph.leave Ledger.leave
  cases hframes : g.stack with
  | nil =>
    have htail : { l with stack := l.stack.tail } = l := by
      rw [← h.ledger_eq]
      simp [ledger, hframes]
    rw [htail]
    exact h
  | cons f rest =>
    have hpath := h.sound.path
    rw [hframes] at hpath
    cases hpath with
    | cons _ _ hrest =>
      have htail : l.stack.tail = rest.map fun f => f.vertex.key := by
        rw [← h.ledger_eq]
        simp [hframes]
      rw [htail]
      exact h.withStack hrest

/-- So does an exclusion. -/
theorem exclude (host : Host) (k : Key) :
    (g.exclude host k).1.Records (l.exclude host k) := by
  have hv := h.sound.has_intern (k.canonical host) none
  rw [exclude_fst]
  unfold Ledger.exclude
  exact (h.intern (k.canonical host) none).adjust keepsLinks_excluded (fun _ => rfl) hv

/-! ## Loads -/

/-- So does a caller that is read from a record, and the method of the record keeps its node. -/
theorem absorbCaller (host : Host) {v : Vertex} (hv : g.Has v) (c : CallRecord) :
    (Graph.absorbCaller host v g c).Records (Ledger.absorbCaller host v.key l c) ∧
      (Graph.absorbCaller host v g c).Has v := by
  unfold Graph.absorbCaller Ledger.absorbCaller
  cases c.caller with
  | none =>
    have hprofile : ∀ n : Node,
        ({ n with root := true } : Node).profile = n.profile.called true false := by
      intro n
      simp [Node.profile, Profile.called]
    have hadjust := h.adjust (p := fun p => p.called true false) keepsLinks_root hprofile hv
    have hext := extends_adjust keepsLinks_root g v.id
    exact ⟨hadjust.link (by simp) (hv.mono hext), (hv.mono hext).mono (extends_link _ _ _)⟩
  | some peer =>
    have hintern := h.intern (peer.canonical host) none
    have hpeer := h.sound.has_intern (peer.canonical host) none
    have hv' := hv.mono (extends_intern g (peer.canonical host) none)
    refine ⟨hintern.link ?_ hv', hv'.mono (extends_link _ _ _)⟩
    intro c hc
    exact Option.some.inj hc ▸ hpeer

/-- So does a callee that is read from a record, and the method of the record keeps its node. -/
theorem absorbCallee (host : Host) {v : Vertex} (hv : g.Has v) (c : CallRecord) :
    (Graph.absorbCallee host v g c).Records (Ledger.absorbCallee host v.key l c) ∧
      (Graph.absorbCallee host v g c).Has v := by
  unfold Graph.absorbCallee Ledger.absorbCallee
  have hintern := h.intern (c.callee.canonical host) none
  have hpeer := h.sound.has_intern (c.callee.canonical host) none
  have hv' := hv.mono (extends_intern g (c.callee.canonical host) none)
  refine ⟨hintern.link ?_ hpeer, hv'.mono (extends_link _ _ _)⟩
  intro c hc
  exact Option.some.inj hc ▸ hv'

/-- Steps that keep a vertex can be repeated for a list of calls. -/
theorem foldl {v : Vertex} {step : Graph → CallRecord → Graph}
    {entry : Ledger → CallRecord → Ledger}
    (hstep : ∀ {g : Graph} {l : Ledger}, g.Records l → g.Has v → ∀ c,
      (step g c).Records (entry l c) ∧ (step g c).Has v)
    (hv : g.Has v) (calls : List CallRecord) :
    (calls.foldl step g).Records (calls.foldl entry l) ∧ (calls.foldl step g).Has v := by
  induction calls generalizing g l with
  | nil => exact ⟨h, hv⟩
  | cons c rest ih =>
    rcases hstep h hv c with ⟨hnext, hv'⟩
    exact ih hnext hv'

/-- So does a whole record, and the handle that it gives is that of its method. -/
theorem absorb (host : Host) (r : Record) :
    (g.absorb host r).1.Records (l.absorb host r) ∧
      (g.absorb host r).1.Has ⟨(g.absorb host r).2, r.key.canonical host⟩ := by
  have hintern := h.intern (r.key.canonical host) none
  have hv := h.sound.has_intern (r.key.canonical host) none
  have hdescribe := hintern.adjust (p := fun p => p.told r) (keepsLinks_describe r)
    (fun _ => rfl) hv
  have hv' := hv.mono
    (extends_adjust (keepsLinks_describe r) _ (g.intern (r.key.canonical host) none).2)
  rcases hdescribe.foldl (fun h hv c => h.absorbCaller host hv c) hv' r.callers with
    ⟨hcallers, hv''⟩
  exact hcallers.foldl (fun h hv c => h.absorbCallee host hv c) hv'' r.callees

/-- So does a load, whether it is accepted or not. -/
theorem load (host : Host) (r : Record) : (g.apply (.load host r)).Records (l.load host r) := by
  rw [apply_load]
  unfold Ledger.load
  split
  · exact (h.absorb host r).1
  · exact h

/-! ## Histories -/

/-- What a node remembers of its canonical owner is not recorded. -/
theorem resolve (host : Host) (id : NodeId) : (g.apply (.resolve host id)).Records l := by
  have hf := keepsLinks_remember host
  rcases apply_resolve g host id with hsame | hadjust
  · rw [hsame]
    exact h
  · rw [hadjust]
    refine ⟨h.sound.adjust hf id, ?_⟩
    rw [← h.ledger_eq]
    simp only [ledger, Ledger.mk.injEq]
    refine ⟨?_, h.sound.map_callAt (extends_adjust hf g id), rfl⟩
    apply List.ext_getElem?
    intro i
    simp only [Graph.adjust, Array.toList_modify, List.getElem?_map, List.getElem?_modify,
      Array.getElem?_toList]
    cases g.nodes[i]? with
    | none => rfl
    | some n => split <;> rfl

/-- Every action does to a ledger what it does to its graph. -/
theorem apply (a : Action) : (g.apply a).Records (l.apply a) := by
  cases a with
  | enter host o => exact h.enter host o
  | leave => exact h.leave
  | exclude host k => exact h.exclude host k
  | load host r => exact h.load host r
  | loadValue host v =>
    rw [apply_loadValue]
    simp only [Ledger.apply]
    cases recordOfJson v with
    | ok r => exact h.load host r
    | error e => exact h
  | resolve host id => exact h.resolve host id
  | release => exact records_fresh (g.generation + 1)

/-- A history does to a ledger what it does to its graph. -/
theorem applyAll (actions : List Action) : (g.applyAll actions).Records (l.applyAll actions) := by
  induction actions generalizing g l with
  | nil => exact h
  | cons a rest ih => exact ih (h.apply a)

end Records

/-- Every history of a new graph does to the empty ledger what it does to the graph. -/
theorem records_applyAll (actions : List Action) :
    (empty.applyAll actions).Records (Ledger.applyAll {} actions) :=
  (records_fresh 0).applyAll actions

end Graph

end CallGraph
