import CallGraph.Proofs.Remembered
import CallGraph.Proofs.Renewal

/-!
# The host that is asked first

A node is asked for its canonical owner, for the relation that leads to it and for its call-tree
name, each time with a host, and the host may answer otherwise than it did before.  The canonical
owner that counts is the one that the host gave when the node was first asked for any of these; a
report of call-tree names asks every node that it lists.  Nothing else makes a node remember an
owner or changes the one that it remembers.  Names are those of the host of the moment.

Main results:

- Theorem `move_cases` says which moves can change a graph, and `remembered_move` what a move makes
  its nodes remember.
- Theorems `Decided.move` and `Decided.moveAll` carry what is known of a handle over one move and
  over all moves of a session.
- Theorem `answersBy_session` says how nodes answer after any moves, and `remembersFirst` also what
  they remember.
-/

namespace CallGraph

/-! ## What nodes are asked -/

/-- What a node can be asked with a host. -/
inductive NodeQuery where
  /-- The canonical owner with the relation that leads to it. -/
  | resolution
  | owner
  | relation
  | treeName
  | fullName
  | ownerName
  | methodName
  deriving DecidableEq

/-- What a node answers. -/
inductive NodeAnswer where
  | resolution (r : Resolution)
  | owner (o : Option TypeId)
  | relation (r : Relation)
  | name (s : String)
  deriving DecidableEq

/-- Whether the answer rests on the canonical owner. -/
def NodeQuery.resolves : NodeQuery → Bool
  | resolution | owner | relation | treeName => true
  | fullName | ownerName | methodName => false

/-- The answer of a node, from the canonical owner that it remembers if it remembers one. -/
def Node.answer (n : Node) (host : Host) : NodeQuery → NodeAnswer
  | .resolution => .resolution (n.resolve host)
  | .owner => .owner (n.resolve host).owner
  | .relation => .relation (n.resolve host).relation
  | .treeName => .name (Report.treeName host n)
  | .fullName => .name (host.fullName n.key)
  | .ownerName => .name (host.ownerName n.key.owner)
  | .methodName => .name (host.methodLabel n.key.method)

/-- The answer about a method whose owner is resolved already, with the names of a host. -/
def Host.answer (host : Host) (k : Key) (r : Resolution) : NodeQuery → NodeAnswer
  | .resolution => .resolution r
  | .owner => .owner r.owner
  | .relation => .relation r.relation
  | .treeName => .name (host.callTreeName r k.method)
  | .fullName => .name (host.fullName k)
  | .ownerName => .name (host.ownerName k.owner)
  | .methodName => .name (host.methodLabel k.method)

/-- A question to a node is answered with the owner that the node resolves to. -/
theorem Node.answer_eq (n : Node) (host : Host) (q : NodeQuery) :
    n.answer host q = host.answer n.key (n.resolve host) q := by
  cases q <;> rfl

/-- The host that an action comes with. -/
def Action.host? : Action → Option Host
  | enter host _ | exclude host _ | load host _ | loadValue host _ | resolve host _ => some host
  | leave | release => none

/-! ## What makes nodes remember -/

namespace Graph

/-- A node that is asked on a condition remembers what the host gives on that condition. -/
theorem ite_resolvedAt (g : Graph) (host : Host) (i : Nat) (p : Prop) [Decidable p] :
    (if p then g.resolvedAt host i else none) = g.nodes[i]?.bind fun n =>
      (if p then some host else none).map fun host => host.resolve n.key.owner := by
  rw [resolvedAt, getElem?_keys]
  split <;> cases g.nodes[i]? <;> rfl

/-- A report of call-tree names makes the nodes remember that are not excluded. -/
theorem remembered_rememberAll (g : Graph) (host : Host) (i : Nat) :
    (Report.rememberAll g host).remembered i =
      (g.remembered i).or (g.nodes[i]?.bind fun n =>
        (if n.excluded = true then none else some host).map fun host =>
          host.resolve n.key.owner) := by
  have hfold : Report.rememberAll g host =
      (g.methods.map Prod.fst).foldl (fun g id => g.adjust id fun n => n.remember host) g := by
    rw [Report.rememberAll, List.foldl_map]
  have hmem : i ∈ (g.methods.map Prod.fst).map NodeId.index ↔
      ∃ n, g.nodes[i]? = some n ∧ n.excluded = false := by
    simp [methods, List.mem_zipIdx_iff_getElem?]
  rw [hfold, remembered_foldl_remember, ite_resolvedAt]
  simp only [hmem]
  cases g.nodes[i]? with
  | none => rfl
  | some n => cases hn : n.excluded <;> simp [hn]

end Graph

namespace Watched

/-! ## Moves -/

/-- A request to a session, or a question to one of its nodes. -/
inductive Move where
  | request (q : Request)
  | ask (host : Host) (id : NodeId) (q : NodeQuery)

/-- The host that a move comes with. -/
def Move.host? : Move → Option Host
  | request (.act a) => a.host?
  | request (.render host _ _) => some host
  | request _ => none
  | ask host _ _ => some host

/-- Whether a move asks nodes for what rests on their canonical owners. -/
def Move.resolves : Move → Bool
  | ask _ _ q => q.resolves
  | request (.act (.resolve _ _)) => true
  | request (.render _ _ .calltree) => true
  | _ => false

/-- The host with which a move asks the node of a handle for what rests on its canonical owner. -/
def Move.asks (id : NodeId) (n : Node) : Move → Option Host
  | ask host id' q => if id' = id ∧ q.resolves = true then some host else none
  | request (.act (.resolve host id')) => if id' = id then some host else none
  | request (.render host _ .calltree) => if n.excluded = true then none else some host
  | _ => none

/-- What the node of a handle answers. -/
def nodeAnswer (s : Watched) (host : Host) (id : NodeId) (q : NodeQuery) :
    Except GraphError NodeAnswer :=
  (fun n => n.answer host q) <$> s.graph.node id

/-- The session after a move.  A question that rests on the canonical owner asks for this owner. -/
def move (s : Watched) : Move → Watched
  | .request q => s.after q
  | .ask host id q => if q.resolves then s.act (.resolve host id) else s

/-- The session after some moves, from the first to the last. -/
def moveAll (s : Watched) (moves : List Move) : Watched := moves.foldl move s

/-- The host with which a move asks the node of a handle, if the handle is accepted. -/
def asked (s : Watched) (id : NodeId) (m : Move) : Option Host :=
  (s.graph.node id).toOption.bind fun n => m.asks id n

/-- The host with which a node is first asked for what rests on its canonical owner. -/
def firstHost (s : Watched) (id : NodeId) : List Move → Option Host
  | [] => none
  | m :: rest => (s.asked id m).or (firstHost (s.move m) id rest)

/-- A handle that is alive is asked what the move asks of its node. -/
theorem asked_of_node {s : Watched} {id : NodeId} {n : Node} (h : s.graph.node id = .ok n)
    (m : Move) : s.asked id m = m.asks id n := by
  simp [asked, h, Except.toOption]

/-- A handle that is not alive is asked nothing. -/
theorem asked_of_not_ok {s : Watched} {id : NodeId} (h : ∀ n, s.graph.node id ≠ .ok n) (m : Move) :
    s.asked id m = none := by
  unfold asked
  cases hnode : s.graph.node id with
  | ok n => exact (h n hnode).elim
  | error e => rfl

/-- What a move asks a node with is the host that comes with the move. -/
theorem Move.host?_of_asks {m : Move} {id : NodeId} {n : Node} {host : Host}
    (h : m.asks id n = some host) : m.host? = some host := by
  unfold Move.asks at h
  split at h <;> simp_all [Move.host?, Action.host?]

/-- A move that needs no canonical owner asks for none. -/
theorem Move.asks_of_not_resolves {m : Move} (h : m.resolves = false) (id : NodeId) (n : Node) :
    m.asks id n = none := by
  unfold Move.asks
  split <;> simp_all [Move.resolves]

/-- A node keeps the host that it was first asked with, whatever comes later. -/
theorem firstHost_append (s : Watched) (id : NodeId) (moves later : List Move) :
    s.firstHost id (moves ++ later) =
      (s.firstHost id moves).or ((s.moveAll moves).firstHost id later) := by
  induction moves generalizing s with
  | nil => rfl
  | cons m rest ih =>
    rw [List.cons_append, firstHost, firstHost, ih, Option.or_assoc]
    rfl

/-- A first host is one with which some move came. -/
theorem exists_host?_of_firstHost {s : Watched} {id : NodeId} {moves : List Move} {host : Host}
    (h : s.firstHost id moves = some host) : ∃ m ∈ moves, m.host? = some host := by
  induction moves generalizing s with
  | nil => simp [firstHost] at h
  | cons m rest ih =>
    rw [firstHost, Option.or_eq_some_iff] at h
    rcases h with hasked | ⟨-, hrest⟩
    · obtain ⟨n, -, hn⟩ := Option.bind_eq_some_iff.mp hasked
      exact ⟨m, List.mem_cons_self, Move.host?_of_asks hn⟩
    · obtain ⟨m', hm', hhost⟩ := ih hrest
      exact ⟨m', List.mem_cons_of_mem m hm', hhost⟩

/-- The moves that can change a graph are actions, questions that rest on canonical owners, and
reports of call-tree names. -/
theorem move_cases (s : Watched) (m : Move) :
    (m.resolves = false ∧ (s.move m).graph = s.graph) ∨ (∃ a, m = .request (.act a)) ∨
      (∃ host id q, m = .ask host id q ∧ s.move m = s.act (.resolve host id) ∧ q.resolves = true) ∨
      ∃ host label, m = .request (.render host label .calltree) := by
  match m with
  | .ask host id q =>
    cases hq : q.resolves with
    | true => exact Or.inr (Or.inr (Or.inl ⟨host, id, q, rfl, if_pos hq, hq⟩))
    | false => exact Or.inl ⟨hq, by simp [move, hq]⟩
  | .request (.act a) => exact Or.inr (Or.inl ⟨a, rfl⟩)
  | .request (.render host label .calltree) => exact Or.inr (Or.inr (Or.inr ⟨host, label, rfl⟩))
  | .request (.render host label .json) =>
    refine Or.inl ⟨rfl, ?_⟩
    simp only [move, after, Report.render]
    cases s.graph.dumpAll <;> rfl
  | .request (.render host label .names) | .request (.lookup _) | .request (.node _)
  | .request (.edge _) | .request (.callers _) | .request (.callees _) | .request (.findEdge _ _)
  | .request .methods | .request .sizes | .request (.dump _) | .request .dumpAll
  | .request (.counts _) => exact Or.inl ⟨rfl, rfl⟩

/-- A move that is no release extends the graph. -/
theorem extends_move (s : Watched) {m : Move} (hrelease : m ≠ .request (.act .release)) :
    s.graph.Extends (s.move m).graph := by
  rcases s.move_cases m with ⟨-, hsame⟩ | ⟨a, rfl⟩ | ⟨host, id, q, -, hact, -⟩ | ⟨host, label, rfl⟩
  · rw [hsame]
    exact .refl s.graph
  · refine Graph.extends_apply s.graph ?_
    rw [Bool.eq_false_iff, ne_eq, Action.isRelease_iff]
    exact fun ha => hrelease (by rw [ha])
  · rw [hact]
    exact Graph.extends_apply s.graph (a := .resolve host id) rfl
  · exact Graph.extends_foldl (fun g (p : NodeId × Node) =>
      Graph.extends_adjust (Graph.keepsLinks_remember host) g p.1) s.graph s.graph.methods

/-- No move but a question that rests on the canonical owner, or a release, changes what is
remembered. -/
theorem remembered_move_of_not_resolves (s : Watched) {m : Move} (hresolves : m.resolves = false)
    (hrelease : m ≠ .request (.act .release)) :
    (s.move m).graph.remembered = s.graph.remembered := by
  rcases s.move_cases m with ⟨-, hsame⟩ | ⟨a, rfl⟩ | ⟨host, id, q, rfl, -, hq⟩ | ⟨host, label, rfl⟩
  · rw [hsame]
  · refine Graph.remembered_apply s.graph (fun ha => hrelease (by rw [ha])) ?_
    rintro host id rfl
    simp [Move.resolves] at hresolves
  · simp [Move.resolves, hq] at hresolves
  · simp [Move.resolves] at hresolves

/-- What a move makes the nodes of a graph remember: what they are asked with, unless they remember
something already. -/
theorem remembered_move (s : Watched) {m : Move} (hrelease : m ≠ .request (.act .release))
    (i : Nat) :
    (s.move m).graph.remembered i = (s.graph.remembered i).or (s.graph.nodes[i]?.bind fun n =>
      (m.asks ⟨s.graph.generation, i⟩ n).map fun host => host.resolve n.key.owner) := by
  cases hresolves : m.resolves with
  | false =>
    rw [remembered_move_of_not_resolves s hresolves hrelease]
    cases s.graph.nodes[i]? <;> simp [Move.asks_of_not_resolves hresolves]
  | true =>
    rcases s.move_cases m with
      ⟨hnot, -⟩ | ⟨a, rfl⟩ | ⟨host, id, q, rfl, hact, hq⟩ | ⟨host, label, rfl⟩
    · simp [hresolves] at hnot
    · obtain ⟨host, id, rfl⟩ : ∃ host id, a = .resolve host id := by
        cases a <;> simp_all [Move.resolves]
      rw [move, after, act, Graph.remembered_resolve, Graph.ite_resolvedAt]
      rfl
    · rw [hact, act, Graph.remembered_resolve, Graph.ite_resolvedAt]
      simp only [Move.asks, hq, and_true]
    · exact Graph.remembered_rememberAll s.graph host i

section Nodes

variable {s : Watched} {m : Move} (hrelease : m ≠ .request (.act .release)) {id : NodeId}

include hrelease

/-- What a move leaves a node that was there to remember. -/
theorem resolution_move_of_node {n n' : Node} (hn : s.graph.node id = .ok n)
    (hn' : (s.move m).graph.node id = .ok n') :
    n'.resolution =
      n.resolution.or ((m.asks id n).map fun host => host.resolve n.key.owner) := by
  obtain ⟨hgen, hnode⟩ := Graph.node_eq_ok_iff.mp hn
  have hmove := s.remembered_move hrelease id.index
  simpa [Graph.remembered, hnode, (Graph.node_eq_ok_iff.mp hn').2, ← hgen] using hmove

/-- The nodes that come with a move remember nothing yet. -/
theorem resolution_move_of_new {n' : Node} (hnew : ∀ n, s.graph.node id ≠ .ok n)
    (hn' : (s.move m).graph.node id = .ok n') : n'.resolution = none := by
  obtain ⟨hgen, hnode'⟩ := Graph.node_eq_ok_iff.mp hn'
  rw [(s.extends_move hrelease).generation] at hgen
  have hnode : s.graph.nodes[id.index]? = none :=
    Option.eq_none_iff_forall_ne_some.mpr fun n hn => hnew n (Graph.node_eq_ok_iff.mpr ⟨hgen, hn⟩)
  have hmove := s.remembered_move hrelease id.index
  simpa [Graph.remembered, hnode, hnode'] using hmove

end Nodes

/-! ## What a run leaves -/

/-- What is known of a handle when its node was first asked with the given host, or not at all. -/
structure Decided (s : Watched) (id : NodeId) (first : Option Host) : Prop where
  /-- The node remembers what that host gave. -/
  resolution : ∀ n, s.graph.node id = .ok n →
    n.resolution = first.map fun host => host.resolve n.key.owner
  /-- A handle that is yet to be issued was not asked for. -/
  unasked : s.graph.generation ≤ id.generation → (∀ n, s.graph.node id ≠ .ok n) → first = none

/-- Nothing is decided for a handle of a new session. -/
theorem decided_empty (id : NodeId) : Decided {} id none where
  resolution n hn := by simp [Graph.node_eq_ok_iff, Graph.empty] at hn
  unasked _ _ := rfl

namespace Decided

variable {s : Watched} {id : NodeId} {first : Option Host} (h : s.Decided id first)

include h

/-- A release forgets the nodes, and what was decided stays for the handles it killed. -/
theorem release : (s.move (.request (.act .release))).Decided id
    (first.or (s.asked id (.request (.act .release)))) where
  resolution n hn := by
    have hnode := (Graph.node_eq_ok_iff.mp hn).2
    simp [move, after, act, Graph.apply] at hnode
  unasked hle _ := by
    have hgen : s.graph.generation + 1 ≤ id.generation := hle
    have hdead : ∀ n, s.graph.node id ≠ .ok n := by
      intro n hn
      have heq := (Graph.node_eq_ok_iff.mp hn).1
      omega
    rw [h.unasked (by omega) hdead, asked_of_not_ok hdead, Option.or_none]

/-- The first host stays the first one over a move, and a move that asks for a node that was not
asked for before gives its host. -/
theorem move (m : Move) : (s.move m).Decided id (first.or (s.asked id m)) := by
  by_cases hrelease : m = .request (.act .release)
  · rw [hrelease]
    exact h.release
  have hext := s.extends_move hrelease
  -- A node that is there is asked as it stands, and one that is still to come was never asked.
  by_cases hold : ∃ n, s.graph.node id = .ok n
  · obtain ⟨n, hn⟩ := hold
    obtain ⟨n', hn', hkey⟩ := hext.exists_node hn
    constructor
    · intro n'' hn''
      obtain rfl : n' = n'' := Except.ok.inj (hn'.symm.trans hn'')
      rw [resolution_move_of_node hrelease hn hn', h.resolution n hn, asked_of_node hn, hkey,
        ← Option.map_or]
    · exact fun _ hdead => (hdead n' hn').elim
  · have hdead : ∀ n, s.graph.node id ≠ .ok n := not_exists.mp hold
    constructor
    · intro n' hn'
      have hgen : s.graph.generation = id.generation :=
        hext.generation.symm.trans (Graph.node_eq_ok_iff.mp hn').1.symm
      rw [resolution_move_of_new hrelease hdead hn', h.unasked (Nat.le_of_eq hgen) hdead,
        asked_of_not_ok hdead]
      rfl
    · intro hle _
      rw [hext.generation] at hle
      rw [h.unasked hle hdead, asked_of_not_ok hdead, Option.or_none]

/-- The first host stays the first one over any moves. -/
theorem moveAll (moves : List Move) :
    (s.moveAll moves).Decided id (first.or (s.firstHost id moves)) := by
  induction moves generalizing s first with
  | nil =>
    rw [firstHost, Option.or_none]
    exact h
  | cons m rest ih =>
    have hrest := ih (h.move m)
    rwa [Option.or_assoc] at hrest

end Decided

/-! ## What nodes answer -/

/-- A new session after some moves. -/
def session (moves : List Move) : Watched := ({} : Watched).moveAll moves

/-- The host with which the node of a handle was first asked, if it was, in a new session. -/
def askedFirst (moves : List Move) (id : NodeId) : Option Host := ({} : Watched).firstHost id moves

/-- The host that resolves the owner of a node: the one that the node was first asked with, and
without one the host of the moment. -/
def decidingHost (moves : List Move) (id : NodeId) (host : Host) : Host :=
  (askedFirst moves id).getD host

variable {moves : List Move}

/-- What is known of every handle after any moves. -/
theorem decided_session (moves : List Move) (id : NodeId) :
    (session moves).Decided id (askedFirst moves id) := by
  have h := (decided_empty id).moveAll moves
  rwa [Option.none_or] at h

/-- A node resolves its owner by the host that decides for its handle. -/
theorem resolve_session {id : NodeId} {n : Node} (hn : (session moves).graph.node id = .ok n)
    (host : Host) : n.resolve host = (decidingHost moves id host).resolve n.key.owner := by
  rw [Node.resolve, (decided_session moves id).resolution n hn, decidingHost]
  cases askedFirst moves id <;> rfl

/-- A call-tree name is that of the owner which the deciding host gives, with the names of the
moment. -/
theorem treeName_session {p : NodeId × Node} (hp : p ∈ (session moves).graph.methods)
    (host : Host) :
    Report.treeName host p.2 =
      host.callTreeName ((decidingHost moves p.1 host).resolve p.2.key.owner) p.2.key.method := by
  rw [Report.treeName, resolve_session (Graph.node_of_mem_methods hp)]

/-- If every move came with one host, it decides. -/
theorem decidingHost_eq {host : Host}
    (h : ∀ m ∈ moves, ∀ host', m.host? = some host' → host' = host) (id : NodeId) :
    decidingHost moves id host = host := by
  unfold decidingHost
  cases hfirst : askedFirst moves id with
  | none => rfl
  | some first =>
    obtain ⟨m, hm, hhost⟩ := exists_host?_of_firstHost hfirst
    exact h m hm first hhost

/-- A session in which every answer that rests on a canonical owner is given as if the owners of the
nodes were resolved now, each by the host that is given for its node. -/
structure AnswersBy (s : Watched) (host : Host) (resolver : NodeId → Host) : Prop where
  /-- Questions to a node. -/
  node : ∀ id n, s.graph.node id = .ok n → ∀ q,
    s.nodeAnswer host id q = .ok (host.answer n.key ((resolver id).resolve n.key.owner) q)
  /-- The action that asks for a canonical owner. -/
  resolved : ∀ id n, s.graph.node id = .ok n →
    s.answer (.act (.resolve host id)) = .ok (.resolved ((resolver id).resolve n.key.owner))
  /-- The report of call-tree names. -/
  calltree : ∀ label, s.answer (.render host label .calltree) =
    .ok (.text (String.join (s.graph.methods.map fun p =>
      host.callTreeName ((resolver p.1).resolve p.2.key.owner) p.2.key.method ++ "\n")))

/-- Answers are given with the owner from the deciding host and with the names of the moment. -/
theorem answersBy_session (moves : List Move) (host : Host) :
    (session moves).AnswersBy host fun id => decidingHost moves id host where
  node id n hn q := by
    rw [nodeAnswer, hn, ← resolve_session hn, ← Node.answer_eq]
    rfl
  resolved id n hn := by
    rw [← resolve_session hn]
    simp only [answer, reply, Graph.resolve, hn]
    rfl
  calltree label := by
    have hlines : (session moves).graph.methods.map (fun p => Report.treeName host p.2 ++ "\n") =
        (session moves).graph.methods.map fun p => host.callTreeName
          ((decidingHost moves p.1 host).resolve p.2.key.owner) p.2.key.method ++ "\n" := by
      apply List.map_congr_left
      intro p hp
      rw [treeName_session hp]
    rw [← hlines]
    rfl

/-- What the nodes of a session remember after some moves, and how they answer. -/
structure RemembersFirst (moves : List Move) : Prop where
  /-- A node remembers what the host gave that it was first asked with, and nothing if it was not
  asked. -/
  resolution : ∀ id n, (session moves).graph.node id = .ok n →
    n.resolution = (askedFirst moves id).map fun first => first.resolve n.key.owner
  /-- Later moves do not change which host this is. -/
  stable : ∀ id first later, askedFirst moves id = some first →
    askedFirst (moves ++ later) id = some first
  /-- A move that asks for nothing that rests on canonical owners changes nothing remembered. -/
  kept : ∀ m : Move, m.resolves = false → m ≠ .request (.act .release) →
    ((session moves).move m).graph.remembered = (session moves).graph.remembered
  /-- Answers are given with the owner from the deciding host and with the names of the moment. -/
  answers : ∀ host, (session moves).AnswersBy host fun id => decidingHost moves id host
  /-- Under a host that never changes every answer is given as if nothing were remembered. -/
  steady : ∀ host, (∀ m ∈ moves, ∀ host', m.host? = some host' → host' = host) →
    (session moves).AnswersBy host fun _ => host

/-- Whatever is asked and done, in whatever order and with whatever hosts, nodes answer with the
canonical owners that they were first asked for. -/
theorem remembersFirst (moves : List Move) : RemembersFirst moves where
  resolution id := (decided_session moves id).resolution
  stable id first later hfirst := by
    have happend := firstHost_append {} id moves later
    rw [← askedFirst, ← askedFirst, hfirst, Option.some_or] at happend
    exact happend
  kept _ hresolves hrelease := remembered_move_of_not_resolves _ hresolves hrelease
  answers := answersBy_session moves
  steady host hhost := by
    have h := answersBy_session moves host
    simp only [decidingHost_eq hhost] at h
    exact h

/-- A class, and its metaclass. -/
def orderTable : TypeTable :=
  .ofEntries [(⟨1⟩, .cls "Shop::Order" none), (⟨2⟩, .singleton (.cls ⟨1⟩) none)] [(⟨10⟩, "create")]

/-- The same after an edit: the class has another name, and the singleton another class. -/
def editedTable : TypeTable :=
  .ofEntries [(⟨1⟩, .cls "Store::Order" none), (⟨2⟩, .singleton (.cls ⟨3⟩) none),
    (⟨3⟩, .cls "Item" none)] [(⟨10⟩, "create")]

/-- A call of a method of the metaclass, and a question for the relation of its node. -/
def orderMoves : List Move :=
  [.request (.act (.enter orderTable.host { owner := some ⟨2⟩, method := some ⟨10⟩ })),
    .ask orderTable.host ⟨0, 0⟩ .relation]

/-- After the edit the call-tree name is that of the class which was the owner before, under its new
name, and the full name is that of the singleton as it is now. -/
theorem remembersFirst_orderMoves :
    (∃ n, (session orderMoves).graph.node ⟨0, 0⟩ = .ok n ∧
      n.resolution = some (orderTable.host.resolve n.key.owner)) ∧
    (session orderMoves).nodeAnswer editedTable.host ⟨0, 0⟩ .treeName =
      .ok (.name "Store/Order::^create") ∧
    (session orderMoves).nodeAnswer editedTable.host ⟨0, 0⟩ .fullName =
      .ok (.name "<Class::Item>#create") := by
  obtain ⟨n, hn, hkey⟩ : ∃ n, (session orderMoves).graph.node ⟨0, 0⟩ = .ok n ∧
      n.key = ⟨some ⟨2⟩, some ⟨10⟩⟩ := ⟨_, rfl, by decide⟩
  have h := remembersFirst orderMoves
  have hanswers := (h.answers editedTable.host).node ⟨0, 0⟩ n hn
  refine ⟨⟨n, hn, h.resolution ⟨0, 0⟩ n hn⟩, ?_, ?_⟩
  · rw [hanswers, hkey]
    decide +kernel
  · rw [hanswers, hkey]
    decide +kernel

end Watched

end CallGraph
