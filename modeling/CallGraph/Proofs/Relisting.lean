import CallGraph.Proofs.Requests
import CallGraph.Proofs.TableOrder

/-!
# Answers up to order

A hash map promises no order, and may list its entries in another one each time that it is asked.
Here every table of a session, of the graph and of its listener, may be listed anew before each
request.  What a session may answer then is told up to order: the edges of a node and the tables in
a node may come in another order, and nothing else may differ.

Main results:

- Theorems `Relists.after` and `Relists.answer` say what one request does to a session and to the
  same session with its tables listed in another order.
- Theorem `alike_answers` says that all that a session may answer is alike.
-/

namespace CallGraph

namespace Counter

/-- A signal counts for the same whatever the order of the counts. -/
theorem perm_hear {c c' : Counter} (h : c.table.entries.Perm c'.table.entries) (signal : Signal) :
    (c.hear signal).table.entries.Perm (c'.hear signal).table.entries := by
  cases signal <;>
    simpa only [hear, entered, left, Table.alter, Table.lookup_eq_of_perm h] using
      Table.perm_insert h _ _

/-- Signals count for the same whatever the order of the counts. -/
theorem perm_foldl_hear {c c' : Counter} (h : c.table.entries.Perm c'.table.entries)
    (signals : List Signal) : (signals.foldl hear c).table.entries.Perm
      (signals.foldl hear c').table.entries := by
  induction signals generalizing c c' with
  | nil => exact h
  | cons signal rest ih => exact ih (perm_hear h signal)

end Counter

namespace Watched

/-! ## Sessions whose tables are listed in another order -/

/-- The session `s'` is `s` with all its tables listed in whatever order. -/
structure Relists (s s' : Watched) : Prop where
  graph : s.graph.Reorders s'.graph
  counter : s.counter.table.entries.Perm s'.counter.table.entries

/-- Two outcomes are alike if they are the same but for the order of edges and of tables. -/
inductive Alike : Except GraphError Answer → Except GraphError Answer → Prop
  | same (x : Except GraphError Answer) : Alike x x
  | node {n n' : Node} (tables : n.Reorders n') : Alike (.ok (.node n)) (.ok (.node n'))
  | edges {es es' : List EdgeId} (order : es.Perm es') :
      Alike (.ok (.edges es)) (.ok (.edges es'))
  | methods {ms ms' : List (NodeId × Node)}
      (tables : List.Forall₂ (fun p p' => p'.1 = p.1 ∧ p.2.Reorders p'.2) ms ms') :
      Alike (.ok (.methods ms)) (.ok (.methods ms'))

/-- What a session may answer if all its tables may be listed anew before each request. -/
inductive MayAnswer : Watched → List Request → List (Except GraphError Answer) → Prop
  | nil (s : Watched) : MayAnswer s [] []
  | cons {s s' : Watched} {q : Request} {rest : List Request}
      {answers : List (Except GraphError Answer)} (relists : s.Relists s')
      (after : MayAnswer (s'.after q) rest answers) :
      MayAnswer s (q :: rest) (s'.answer q :: answers)

/-- Answers that are alike in one direction are so in the other. -/
theorem Alike.symm {x y : Except GraphError Answer} (h : Alike x y) : Alike y x := by
  cases h with
  | same => exact .same x
  | node tables => exact .node tables.symm
  | edges order => exact .edges order.symm
  | methods tables => exact .methods (tables.flip.imp fun _ _ h => ⟨h.1.symm, h.2.symm⟩)

/-- Answers that are alike to the same one are alike. -/
theorem Alike.trans {x y z : Except GraphError Answer} (h : Alike x y) (h' : Alike y z) :
    Alike x z := by
  cases h with
  | same => exact h'
  | node tables =>
    cases h' with
    | same => exact .node tables
    | node tables' => exact .node (tables.trans tables')
  | edges order =>
    cases h' with
    | same => exact .edges order
    | edges order' => exact .edges (order.trans order')
  | methods tables =>
    cases h' with
    | same => exact .methods tables
    | @methods _ ms'' tables' =>
      refine .methods ?_
      induction tables generalizing ms'' with
      | nil => exact tables'
      | cons hp _ ih =>
        cases tables' with
        | cons hp' hrest => exact .cons ⟨hp'.1.trans hp.1, hp.2.trans hp'.2⟩ (ih hrest)

/-- A session lists its tables in an order of its own. -/
theorem Relists.refl (s : Watched) : s.Relists s := ⟨.refl s.graph, .refl _⟩

/-- An order of another order is another order. -/
theorem Relists.trans {s s' s'' : Watched} (h : s.Relists s') (h' : s'.Relists s'') :
    s.Relists s'' := ⟨h.graph.trans h'.graph, h.counter.trans h'.counter⟩

/-- The order in which tables happen to be listed is one in which they may be listed. -/
theorem mayAnswer_answers (s : Watched) (requests : List Request) :
    s.MayAnswer requests (s.answers requests) := by
  induction requests generalizing s with
  | nil => exact .nil s
  | cons q rest ih => exact .cons (.refl s) (ih (s.after q))

/-! ## One request -/

/-- Attempts that give the same, whatever graphs they leave, are told in the same way. -/
theorem map_comp_snd {α : Type} (f : α → Answer) {x y : Except GraphError (Graph × α)}
    (hxy : Prod.snd <$> x = Prod.snd <$> y) :
    (fun out => f out.2) <$> x = (fun out => f out.2) <$> y := by
  have hmap := congrArg (f <$> ·) hxy
  simpa only [Functor.map_map] using hmap

namespace Relists

variable {s s' : Watched} (h : s.Relists s') {l : Ledger} (hl : s.graph.Records l)

include h hl

/-- An action is heard of in the same way whatever the order of the tables. -/
theorem signals_eq (a : Action) : s'.graph.signals a = s.graph.signals a := by
  cases a with
  | enter host o => simp only [Graph.signals, h.graph.enter_snd_eq hl]
  | leave => simp only [Graph.signals, h.graph.leave_snd_eq]
  | exclude | load | loadValue | resolve | release => rfl

/-- An action does the same to the tables in any order. -/
theorem act (a : Action) : (s.act a).Relists (s'.act a) where
  graph := h.graph.apply hl a
  counter := by
    simp only [Watched.act, h.signals_eq hl a]
    exact Counter.perm_foldl_hear h.counter _

/-- Call-tree names are asked of the same nodes whatever the order of the tables. -/
theorem rememberAll (host : Host) :
    (Report.rememberAll s.graph host).Reorders (Report.rememberAll s'.graph host) := by
  have hids : s'.graph.methods.map Prod.fst = s.graph.methods.map Prod.fst :=
    h.graph.map_methods_eq fun _ _ hid _ => hid
  rw [Report.rememberAll_eq_applyAll, Report.rememberAll_eq_applyAll, hids]
  exact h.graph.applyAll hl _

/-- A request does the same to a session whatever the order of its tables. -/
theorem after (q : Request) : (s.after q).Relists (s'.after q) := by
  cases q with
  | act a => exact h.act hl a
  | render host label format =>
    refine ⟨?_, h.counter⟩
    cases format with
    | json =>
      simp only [Watched.after, Report.render]
      cases s.graph.dumpAll <;> cases s'.graph.dumpAll <;> exact h.graph
    | names => exact h.graph
    | calltree => exact h.rememberAll hl host
  | lookup | node | edge | callers | callees | findEdge | methods | sizes | dump | dumpAll
  | counts => exact h

/-- An action gives the same whatever the order of the tables. -/
theorem reply_eq (a : Action) : reply s'.graph a = reply s.graph a := by
  have hload : ∀ host r, (fun out => Answer.handle (some out.2)) <$> s'.graph.load host r =
      (fun out => Answer.handle (some out.2)) <$> s.graph.load host r := fun host r =>
    map_comp_snd (fun id => .handle (some id)) (h.graph.map_snd_load_eq host r)
  cases a with
  | enter host o => simp only [reply, h.graph.enter_snd_eq hl]
  | leave => simp only [reply, h.graph.leave_snd_eq]
  | exclude host k => simp only [reply, h.graph.exclude_snd_eq]
  | load host r => exact hload host r
  | loadValue host v =>
    simp only [reply, Graph.loadValue]
    cases Graph.recordOfJson v with
    | error e => rfl
    | ok r => exact hload host r
  | resolve host id => exact map_comp_snd Answer.resolved (h.graph.map_snd_resolve_eq host id)
  | release => rfl

variable (hc : l.Consistent)

include hc

/-- A report reads the same whatever the order of the tables. -/
theorem map_snd_render_eq (host : Host) (label : String) (format : Report.Format) :
    Prod.snd <$> Report.render s'.graph host label format =
      Prod.snd <$> Report.render s.graph host label format := by
  cases format with
  | json =>
    simp only [Report.render, h.graph.dumpAll_eq hl hc]
    cases s.graph.dumpAll <;> rfl
  | names =>
    refine congrArg (Except.ok ∘ String.join) (h.graph.map_methods_eq ?_)
    intro p p' _ hsame
    have hkey := hsame.key_eq
    have hsource : p'.2.source = p.2.source := congrArg Profile.source hsame.profile
    simp only [Report.nameLine, Node.sourceLabel, Node.line, hkey, hsource]
  | calltree =>
    refine congrArg (Except.ok ∘ String.join) (h.graph.map_methods_eq ?_)
    intro p p' _ hsame
    simp only [Report.treeName, hsame.resolve_eq, hsame.key_eq]

/-- A request is answered alike whatever the order of the tables. -/
theorem answer (q : Request) : Alike (s.answer q) (s'.answer q) := by
  -- Only a list of edges can come in another order; every other answer is the same one.
  have hread : ∀ {f : Node → Answer} (id : NodeId),
      (∀ n n', n.Reorders n' → Alike (.ok (f n)) (.ok (f n'))) →
        Alike (f <$> s.graph.node id) (f <$> s'.graph.node id) := by
    intro f id hf
    rcases h.graph.node id with ⟨e, hn, hn'⟩ | ⟨n, n', hn, hn', hsame⟩
    · rw [hn, hn']
      exact .same _
    · rw [hn, hn']
      exact hf n n' hsame
  have hsame : ∀ {x y : Except GraphError Answer}, y = x → Alike x y := by
    rintro x y rfl
    exact .same y
  cases q with
  | act a => exact hsame (h.reply_eq hl a)
  | lookup k => exact hsame (congrArg (Except.ok ∘ Answer.handle) (h.graph.lookup_eq k))
  | node id => exact hread id fun n n' hn => .node hn
  | edge id => exact hsame (congrArg (Answer.edge <$> ·) (h.graph.edge_eq id))
  | callers id =>
    simp only [Watched.answer, Graph.callers, Functor.map_map]
    exact hread id fun n n' hn => .edges hn.perm_incoming
  | callees id =>
    simp only [Watched.answer, Graph.callees, Functor.map_map]
    exact hread id fun n n' hn => .edges hn.perm_outgoing
  | findEdge caller callee =>
    exact hsame (congrArg (Answer.found <$> ·) (h.graph.findEdge_eq caller callee))
  | methods => exact .methods h.graph.methods
  | sizes =>
    apply hsame
    simp only [Watched.answer, Graph.depth, h.graph.size, h.graph.edges, h.graph.stack]
  | dump id =>
    exact hsame (congrArg ((fun r => Answer.records [r]) <$> ·) (h.graph.dump_eq hl hc id))
  | dumpAll => exact hsame (congrArg (Answer.records <$> ·) (h.graph.dumpAll_eq hl hc))
  | render host label format =>
    exact hsame (map_comp_snd Answer.text (h.map_snd_render_eq hl hc host label format))
  | counts e =>
    apply hsame
    simp only [Watched.answer, Counter.counts, Table.lookup_eq_of_perm h.counter]

end Relists

/-! ## Any sequence of requests -/

/-- What a use of a new session records. -/
theorem exists_records (before : List Request) :
    ∃ l : Ledger, (afterAll {} before).graph.Records l ∧ l.Consistent := by
  obtain ⟨actions, hactions⟩ := exists_watch before
  rw [hactions, graph_watch]
  exact ⟨_, Graph.records_applyAll actions, Ledger.consistent_empty.applyAll actions⟩

/-- All that a session may answer is alike, in whatever order its tables are listed at first and
before each request. -/
theorem alike_answers {before : List Request} {s : Watched} (h : (afterAll {} before).Relists s)
    {requests : List Request} {answers : List (Except GraphError Answer)}
    (hanswers : s.MayAnswer requests answers) :
    List.Forall₂ Alike ((afterAll {} before).answers requests) answers := by
  induction hanswers generalizing before with
  | nil s => exact .nil
  | @cons s s' q rest answers relists after ih =>
    obtain ⟨l, hl, hc⟩ := exists_records before
    have hboth := h.trans relists
    refine .cons (hboth.answer hl hc q) ?_
    have hafter : (afterAll {} (before ++ [q])).Relists (s'.after q) := by
      rw [afterAll, List.foldl_concat]
      exact hboth.after hl q
    have hrest := ih hafter
    rwa [afterAll, List.foldl_concat] at hrest

end Watched

end CallGraph
