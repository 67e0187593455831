import CallGraph.Proofs.Later
import CallGraph.Proofs.Relisting

/-!
# A released graph is as good as new

A graph with a listener is used by requests, each of which is answered and may change both.  After a
release the graph goes on like a new one: it answers every request in the same way, but for the
generation in the handles, and the listener counts what a new one would count.  What was open,
registered, marked, remembered or counted before does not matter.

Main results:

- Theorems `Follows.after` and `Follows.answer` say what one request does to two sessions of which
  one goes on like the other.
- Theorem `alike_released` says what may be answered after a release if tables may be listed in any
  order.
- Theorem `answers_released` says what a session answers after a release.
-/

namespace CallGraph

/-- Tables that are listed in another order are so in a later generation. -/
theorem Node.Reorders.later (d : Nat) {n n' : Node} (h : n.Reorders n') :
    (n.later d).Reorders (n'.later d) where
  profile := h.profile
  resolution := h.resolution
  rootEdge := congrArg (Option.map (EdgeId.later d)) h.rootEdge
  callers := h.callers.map _
  callees := h.callees.map _

namespace Report

variable (d : Nat) (g : Graph) (host : Host)

/-- The report of names does not depend on the generation. -/
theorem names_later (label : String) : names (g.later d) host label = names g host label := by
  unfold names
  rw [Graph.methods_later, List.map_map]
  rfl

/-- Nor does that of call-tree names. -/
theorem calltree_later : calltree (g.later d) host = calltree g host := by
  unfold calltree
  rw [Graph.methods_later, List.map_map]
  rfl

/-- The report of call-tree names makes the same nodes remember, whatever the generation. -/
theorem rememberAll_later : rememberAll (g.later d) host = (rememberAll g host).later d := by
  have hadjust : ∀ (g : Graph) (p : NodeId × Node),
      ((g.later d).adjust (p.1.later d) fun n => n.remember host) =
        (g.adjust p.1 fun n => n.remember host).later d := by
    intro g p
    apply Graph.adjust_later
    intro n
    rfl
  unfold rememberAll
  rw [Graph.methods_later, List.foldl_map]
  exact Graph.foldl_later d g hadjust g.methods

/-- A graph of a later generation is reported in the same way. -/
theorem render_later (label : String) (format : Format) :
    render (g.later d) host label format =
      (fun out => (out.1.later d, out.2)) <$> render g host label format := by
  cases format with
  | json =>
    simp only [render, Graph.dumpAll_later]
    cases g.dumpAll <;> rfl
  | names =>
    simp only [render, names_later]
    rfl
  | calltree =>
    simp only [render, rememberAll_later, calltree_later]
    rfl

end Report

namespace Watched

/-! ## Sessions that go on alike -/

/-- The request with `d` added to the generation of its handles. -/
def Request.later (d : Nat) : Request → Request
  | .act a => .act (a.later d)
  | .node id => .node (id.later d)
  | .edge id => .edge (id.later d)
  | .callers id => .callers (id.later d)
  | .callees id => .callees (id.later d)
  | .findEdge caller callee => .findEdge (caller.map (NodeId.later d)) (callee.later d)
  | .dump id => .dump (id.later d)
  | .counts e => .counts (e.later d)
  | q => q

/-- The answer with `d` added to the generation of its handles. -/
def Answer.later (d : Nat) : Answer → Answer
  | .entered id notice => .entered (id.later d) (notice.later d)
  | .left out => .left (out.map (Prod.map (NodeId.later d) (Notice.later d)))
  | .handle id => .handle (id.map (NodeId.later d))
  | .node n => .node (n.later d)
  | .edge e => .edge (e.later d)
  | .edges es => .edges (es.map (EdgeId.later d))
  | .found e => .found (e.map (EdgeId.later d))
  | .methods ms => .methods (ms.map (Prod.map (NodeId.later d) (Node.later d)))
  | a => a

/-- The signal with `d` added to the generation of its handles. -/
def signalLater (d : Nat) : Signal → Signal
  | .enter notice => .enter (notice.later d)
  | .exit notice => .exit (notice.later d)

/-- A session goes on like another one, `d` generations later: the graphs are alike, and so are the
counts of the edges that there can be from now on. -/
structure Follows (d : Nat) (s t : Watched) : Prop where
  graph : s.graph = t.graph.later d
  counts : ∀ e : EdgeId, s.counter.counts (e.later d) = t.counter.counts e

/-- A listener of a graph of a later generation is told of later handles. -/
theorem signals_later (d : Nat) (g : Graph) (a : Action) :
    (g.later d).signals (a.later d) = (g.signals a).map (signalLater d) := by
  cases a with
  | enter host o => simp [Graph.signals, Action.later, Graph.enter_later, signalLater]
  | leave =>
    simp only [Graph.signals, Action.later, Graph.leave_later]
    cases g.leave.2 <;> rfl
  | exclude | load | loadValue | resolve | release => rfl

/-- A signal of a later generation is counted for the later edge. -/
theorem counts_hear_later {d : Nat} {c c' : Counter}
    (h : ∀ e : EdgeId, c.counts (e.later d) = c'.counts e) (signal : Signal) (e : EdgeId) :
    (c.hear (signalLater d signal)).counts (e.later d) = (c'.hear signal).counts e := by
  cases signal with
  | enter notice =>
    simp only [signalLater, Notice.later, Counter.hear, Counter.counts_entered,
      EdgeId.later_inj, h]
  | exit notice =>
    simp only [signalLater, Notice.later, Counter.hear, Counter.counts_left, EdgeId.later_inj, h]

/-- So are signals that come one after the other. -/
theorem counts_foldl_hear_later {d : Nat} {c c' : Counter}
    (h : ∀ e : EdgeId, c.counts (e.later d) = c'.counts e) (signals : List Signal) (e : EdgeId) :
    ((signals.map (signalLater d)).foldl Counter.hear c).counts (e.later d) =
      (signals.foldl Counter.hear c').counts e := by
  induction signals generalizing c c' with
  | nil => exact h e
  | cons signal rest ih => exact ih (counts_hear_later h signal)

/-- An action of a later generation is answered with later handles. -/
theorem reply_later (d : Nat) (g : Graph) (a : Action) :
    reply (g.later d) (a.later d) = Answer.later d <$> reply g a := by
  cases a with
  | enter host o =>
    simp only [reply, Action.later, Graph.enter_later]
    rfl
  | leave =>
    simp only [reply, Action.later, Graph.leave_later]
    rfl
  | exclude host k =>
    simp only [reply, Action.later, Graph.exclude_later]
    rfl
  | load host r =>
    simp only [reply, Action.later, Graph.load_later]
    cases g.load host r <;> rfl
  | loadValue host v =>
    simp only [reply, Action.later, Graph.loadValue_later]
    cases g.loadValue host v <;> rfl
  | resolve host id =>
    simp only [reply, Action.later, Graph.resolve_later]
    cases g.resolve host id <;> rfl
  | release => rfl

namespace Follows

variable {d : Nat} {s t : Watched} (h : Follows d s t)

include h

/-- An action on both sides keeps the sessions the same but for their generation. -/
theorem act (a : Action) : Follows d (s.act (a.later d)) (t.act a) where
  graph := by
    simp only [Watched.act, h.graph]
    exact Graph.apply_later d t.graph a
  counts := by
    simp only [Watched.act, h.graph, signals_later]
    exact counts_foldl_hear_later h.counts _

/-- Sessions that go on alike do so after every request. -/
theorem after (q : Request) : Follows d (s.after (q.later d)) (t.after q) := by
  cases q with
  | act a => exact h.act a
  | render host label format =>
    refine ⟨?_, h.counts⟩
    simp only [Watched.after, Request.later, h.graph, Report.render_later]
    cases Report.render t.graph host label format <;> rfl
  | lookup | node | edge | callers | callees | findEdge | methods | sizes | dump | dumpAll
  | counts => exact h

/-- Sessions that go on alike answer every request alike. -/
theorem answer (q : Request) : s.answer (q.later d) = Answer.later d <$> t.answer q := by
  cases q with
  | act a =>
    simp only [Watched.answer, Request.later, h.graph]
    exact reply_later d t.graph a
  | lookup k =>
    simp only [Watched.answer, Request.later, h.graph, Graph.lookup_later]
    rfl
  | node id =>
    simp only [Watched.answer, Request.later, h.graph, Graph.node_later]
    cases t.graph.node id <;> rfl
  | edge id =>
    simp only [Watched.answer, Request.later, h.graph, Graph.edge_later]
    cases t.graph.edge id <;> rfl
  | callers id =>
    simp only [Watched.answer, Request.later, h.graph, Graph.callers_later]
    cases t.graph.callers id <;> rfl
  | callees id =>
    simp only [Watched.answer, Request.later, h.graph, Graph.callees_later]
    cases t.graph.callees id <;> rfl
  | findEdge caller callee =>
    simp only [Watched.answer, Request.later, h.graph, Graph.findEdge_later]
    cases t.graph.findEdge caller callee <;> rfl
  | methods =>
    simp only [Watched.answer, Request.later, h.graph, Graph.methods_later]
    rfl
  | sizes =>
    simp only [Watched.answer, Request.later, h.graph, Graph.later, Graph.depth, Array.size_map,
      List.length_map]
    rfl
  | dump id =>
    simp only [Watched.answer, Request.later, h.graph, Graph.dump_later]
    cases t.graph.dump id <;> rfl
  | dumpAll =>
    simp only [Watched.answer, Request.later, h.graph, Graph.dumpAll_later]
    cases t.graph.dumpAll <;> rfl
  | render host label format =>
    simp only [Watched.answer, Request.later, h.graph, Report.render_later]
    cases Report.render t.graph host label format <;> rfl
  | counts e =>
    simp only [Watched.answer, Request.later, h.counts]
    rfl

/-- So do requests that come one after the other. -/
theorem afterAll (requests : List Request) :
    Follows d (s.afterAll (requests.map (Request.later d))) (t.afterAll requests) := by
  induction requests generalizing s t with
  | nil => exact h
  | cons q rest ih => exact ih (h.after q)

/-- They are answered in the same way, with handles of the later generation. -/
theorem answers (requests : List Request) :
    s.answers (requests.map (Request.later d)) =
      (t.answers requests).map fun a => Answer.later d <$> a := by
  induction requests generalizing s t with
  | nil => rfl
  | cons q rest ih =>
    simp only [Watched.answers, List.map_cons, h.answer, ih (h.after q)]

end Follows

/-- A session that has just been released goes on like a new one. -/
theorem follows_release (requests : List Request) :
    let s := afterAll {} (requests ++ [.act .release])
    Follows s.graph.generation s {} := by
  obtain ⟨actions, hactions⟩ := exists_watch requests
  have hrelease : afterAll {} (requests ++ [.act .release]) = (watch actions).act .release := by
    rw [afterAll, List.foldl_concat, ← afterAll, hactions]
    rfl
  simp only [hrelease]
  refine ⟨Graph.release_eq_later _, ?_⟩
  intro e
  -- Edges that come after the release have never been heard of.
  apply (nests_watch actions).unheard
  have hgen : ((watch actions).act .release).graph.generation =
      (watch actions).graph.generation + 1 := rfl
  simp only [EdgeId.later, hgen]
  omega

/-! ## Whatever the order of tables -/

/-- Outcomes that are alike are so in a later generation. -/
theorem Alike.later (d : Nat) {x y : Except GraphError Answer} (h : Alike x y) :
    Alike (Answer.later d <$> x) (Answer.later d <$> y) := by
  cases h with
  | same => exact .same _
  | node tables => exact .node (tables.later d)
  | edges order => exact .edges (order.map _)
  | methods tables =>
    refine .methods ?_
    rw [List.forall₂_map_left_iff, List.forall₂_map_right_iff]
    exact tables.imp fun _ _ h => ⟨congrArg (NodeId.later d) h.1, h.2.later d⟩

/-- Requests may be cut anywhere. -/
theorem answers_append (s : Watched) (requests later : List Request) :
    s.answers (requests ++ later) = s.answers requests ++ (s.afterAll requests).answers later := by
  induction requests generalizing s with
  | nil => rfl
  | cons q rest ih =>
    rw [List.cons_append, Watched.answers, Watched.answers, ih, List.cons_append]
    rfl

/-- Every request is answered. -/
theorem length_answers (s : Watched) (requests : List Request) :
    (s.answers requests).length = requests.length := by
  induction requests generalizing s with
  | nil => rfl
  | cons q rest ih => rw [Watched.answers, List.length_cons, List.length_cons, ih]

/-- Outcomes that are alike to the same ones, a generation apart, are alike themselves. -/
theorem forall₂_later {d : Nat} {xs as bs : List (Except GraphError Answer)}
    (has : List.Forall₂ Alike (xs.map fun x => Answer.later d <$> x) as)
    (hbs : List.Forall₂ Alike xs bs) :
    List.Forall₂ (fun a b => Alike a (Answer.later d <$> b)) as bs := by
  rw [List.forall₂_map_left_iff] at has
  induction hbs generalizing as with
  | nil =>
    cases has
    exact .nil
  | cons hb _ ih =>
    cases has with
    | cons ha hrest => exact .cons (ha.symm.trans (hb.later d)) (ih hrest)

/-- What the first session may answer after its release is alike to what the second one may answer,
whatever the order of the tables of both. -/
theorem alike_released (before later : List Request) {as bs : List (Except GraphError Answer)} :
    let d := (afterAll {} (before ++ [.act .release])).graph.generation
    MayAnswer {} (before ++ .act .release :: later.map (Request.later d)) as →
      MayAnswer {} later bs →
        List.Forall₂ (fun a b => Alike a (Answer.later d <$> b))
          (as.drop (before.length + 1)) bs := by
  intro d has hbs
  have hempty : (afterAll {} []).Relists {} := .refl _
  -- The answers before the release are those that are dropped.
  have hcut : (({} : Watched).answers
      (before ++ .act .release :: later.map (Request.later d))).drop (before.length + 1) =
        (({} : Watched).answers later).map fun a => Answer.later d <$> a := by
    rw [← (follows_release before).answers later, List.append_cons, answers_append]
    exact List.drop_left' (by simp [length_answers])
  have hafter := List.forall₂_drop (before.length + 1) (alike_answers hempty has)
  exact forall₂_later (hcut ▸ hafter) (alike_answers hempty hbs)

/-- After a release a graph answers everything that is asked from then on like a new graph, and its
listener counts like a new listener; only the generation in the handles is that after the release.
This holds in whatever order the tables of both are listed, before the release and after it, but
that the edges of a node and the tables in a node may then come in different orders. -/
theorem answers_released (before later : List Request) :
    let s := afterAll {} (before ++ [.act .release])
    let d := s.graph.generation
    s.answers (later.map (Request.later d)) =
        (({} : Watched).answers later).map (fun a => Answer.later d <$> a) ∧
      (s.afterAll (later.map (Request.later d))).graph = (afterAll {} later).graph.later d ∧
      (∀ e : EdgeId, (s.afterAll (later.map (Request.later d))).counter.counts (e.later d) =
        (afterAll {} later).counter.counts e) ∧
      ∀ as bs, MayAnswer {} (before ++ .act .release :: later.map (Request.later d)) as →
        MayAnswer {} later bs →
          List.Forall₂ (fun a b => Alike a (Answer.later d <$> b)) (as.drop (before.length + 1))
            bs := by
  intro s d
  have h : Follows d s {} := follows_release before
  exact ⟨h.answers later, (h.afterAll later).graph, (h.afterAll later).counts,
    fun _ _ => alike_released before later⟩

end Watched

end CallGraph
