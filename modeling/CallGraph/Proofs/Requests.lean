import CallGraph.Proofs.Dump
import CallGraph.Proofs.Listening
import CallGraph.Report

/-!
# Requests to a session

A graph with a listener is used by requests, each of which is answered and may change both.  A
request is an action, a question, or a report; a report of call-tree names makes nodes remember
their owners, and every other question leaves the session alone.

Main results:

- Theorem `Report.rememberAll_eq_applyAll` says that call-tree names are asked for by actions.
- Theorem `exists_after` says that every request is a history of actions, and `exists_watch` that
  every use of a new session is one.
-/

namespace CallGraph

namespace Report

variable (g : Graph) (host : Host)

/-- Nodes that are remembered one after the other are asked for their owners. -/
theorem foldl_remember {g : Graph} {ids : List NodeId} (h : ∀ id ∈ ids, ∃ n, g.node id = .ok n) :
    ids.foldl (fun g id => g.adjust id fun n => n.remember host) g =
      g.applyAll (ids.map (Action.resolve host)) := by
  induction ids generalizing g with
  | nil => rfl
  | cons id rest ih =>
    obtain ⟨n, hn⟩ := h id List.mem_cons_self
    have hext := Graph.extends_adjust (Graph.keepsLinks_remember host) g id
    rw [List.foldl_cons, List.map_cons, Graph.applyAll_cons, Graph.apply_resolve_of_node hn]
    apply ih
    intro id' hid'
    obtain ⟨m, hm⟩ := h id' (List.mem_cons_of_mem id hid')
    obtain ⟨m', hm', -⟩ := hext.exists_node hm
    exact ⟨m', hm'⟩

/-- Asking for call-tree names is asking for the owner of every method that is listed. -/
theorem rememberAll_eq_applyAll :
    rememberAll g host = g.applyAll ((g.methods.map Prod.fst).map (Action.resolve host)) := by
  rw [← foldl_remember, List.foldl_map]
  · rfl
  · intro id hid
    obtain ⟨p, hp, rfl⟩ := List.mem_map.mp hid
    exact ⟨p.2, Graph.node_of_mem_methods hp⟩

end Report

namespace Watched

/-! ## Requests and answers -/

/-- What a session asks of its graph and of the listener. -/
inductive Request where
  | act (a : Action)
  | lookup (k : Key)
  | node (id : NodeId)
  | edge (id : EdgeId)
  | callers (id : NodeId)
  | callees (id : NodeId)
  | findEdge (caller : Option NodeId) (callee : NodeId)
  | methods
  /-- The numbers of nodes, of edges and of open calls. -/
  | sizes
  | dump (id : NodeId)
  | dumpAll
  | render (host : Host) (label : String) (format : Report.Format)
  /-- How often an edge was entered and left. -/
  | counts (e : EdgeId)

/-- What a request gets if it does not fail. -/
inductive Answer where
  | done
  | entered (id : NodeId) (notice : Notice)
  | left (out : Option (NodeId × Notice))
  | handle (id : Option NodeId)
  | resolved (r : Resolution)
  | node (n : Node)
  | edge (e : Edge)
  | edges (es : List EdgeId)
  | found (e : Option EdgeId)
  | methods (ms : List (NodeId × Node))
  | sizes (nodes edges depth : Nat)
  | records (rs : List Record)
  | text (s : String)
  | counts (c : Counts)

/-- What an action answers. -/
def reply (g : Graph) : Action → Except GraphError Answer
  | .enter host o => .ok (.entered (g.enter host o).2.1 (g.enter host o).2.2)
  | .leave => .ok (.left g.leave.2)
  | .exclude host k => .ok (.handle (g.exclude host k).2)
  | .load host r => (fun out => .handle out.2) <$> g.load host r
  | .loadValue host v => (fun out => .handle out.2) <$> g.loadValue host v
  | .resolve host id => (fun out => .resolved out.2) <$> g.resolve host id
  | .release => .ok .done

/-- What a request answers. -/
def answer (s : Watched) : Request → Except GraphError Answer
  | .act a => reply s.graph a
  | .lookup k => .ok (.handle (s.graph.lookup k))
  | .node id => .node <$> s.graph.node id
  | .edge id => .edge <$> s.graph.edge id
  | .callers id => .edges <$> s.graph.callers id
  | .callees id => .edges <$> s.graph.callees id
  | .findEdge caller callee => .found <$> s.graph.findEdge caller callee
  | .methods => .ok (.methods s.graph.methods)
  | .sizes => .ok (.sizes s.graph.nodes.size s.graph.edges.size s.graph.depth)
  | .dump id => (fun r => .records [r]) <$> s.graph.dump id
  | .dumpAll => .records <$> s.graph.dumpAll
  | .render host label format =>
    (fun out => .text out.2) <$> Report.render s.graph host label format
  | .counts e => .ok (.counts (s.counter.counts e))

/-- The session after a request.  Apart from actions, only call-tree names change the graph. -/
def after (s : Watched) : Request → Watched
  | .act a => s.act a
  | .render host label format =>
    { s with graph := s.graph.orKeep (Report.render s.graph host label format) }
  | _ => s

/-- The session after some requests, from the first to the last. -/
def afterAll (s : Watched) (requests : List Request) : Watched := requests.foldl after s

/-- What some requests answer, one after the other. -/
def answers (s : Watched) : List Request → List (Except GraphError Answer)
  | [] => []
  | q :: rest => s.answer q :: (s.after q).answers rest

/-! ## Every use is a history -/

/-- A listener does not hear of questions for owners. -/
theorem foldl_act_resolve (s : Watched) (host : Host) (ids : List NodeId) :
    (ids.map (Action.resolve host)).foldl act s =
      { s with graph := s.graph.applyAll (ids.map (Action.resolve host)) } := by
  induction ids generalizing s with
  | nil => rfl
  | cons id rest ih =>
    have hact : s.act (.resolve host id) =
        { s with graph := s.graph.apply (.resolve host id) } := by
      simp [act, Graph.signals, Action.isRelease]
    rw [List.map_cons, List.foldl_cons, ih, hact]
    rfl

/-- A report is a history of questions for owners, which may be empty. -/
theorem after_render (s : Watched) (host : Host) (label : String) (format : Report.Format) :
    ∃ actions : List Action, s.after (.render host label format) = actions.foldl act s := by
  cases format with
  | json =>
    refine ⟨[], ?_⟩
    simp only [after, Report.render]
    cases s.graph.dumpAll <;> rfl
  | names => exact ⟨[], rfl⟩
  | calltree =>
    refine ⟨(s.graph.methods.map Prod.fst).map (Action.resolve host), ?_⟩
    rw [foldl_act_resolve, ← Report.rememberAll_eq_applyAll]
    rfl

/-- Whatever is asked, a history of actions leaves the graph and the listener alike. -/
theorem exists_after (s : Watched) (q : Request) :
    ∃ actions : List Action, s.after q = actions.foldl act s := by
  cases q with
  | act a => exact ⟨[a], rfl⟩
  | render host label format => exact after_render s host label format
  | lookup | node | edge | callers | callees | findEdge | methods | sizes | dump | dumpAll
  | counts => exact ⟨[], rfl⟩

/-- Whatever is asked of a new graph, a history of actions leaves it and the listener alike. -/
theorem exists_watch (requests : List Request) :
    ∃ actions, afterAll {} requests = watch actions := by
  induction requests using List.reverseRecOn with
  | nil => exact ⟨[], rfl⟩
  | append_singleton requests q ih =>
    obtain ⟨actions, hactions⟩ := ih
    obtain ⟨more, hmore⟩ := exists_after (watch actions) q
    refine ⟨actions ++ more, ?_⟩
    rw [afterAll, List.foldl_concat, ← afterAll, hactions, hmore, watch, watch, List.foldl_append]

end Watched

end CallGraph
