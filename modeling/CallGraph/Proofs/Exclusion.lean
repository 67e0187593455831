import CallGraph.Proofs.Agreement
import CallGraph.Proofs.Remembered
import CallGraph.Report

/-!
# What exclusions hide

A session that excludes methods records the same calls as one that does not, and the same of every
method that is not excluded.  Only the excluded methods may be recorded at another place, with
another source, or without having been called.  So exclusions hide the records and the lines of the
methods they name and change nothing else, whenever they are made.

Main results:

- Theorem `Ledger.Veils.records_eq` says that a ledger that hides methods has the records of the
  others.
- Theorem `Replay.Veils.run` says that a session that excludes methods goes on like one that does
  not.
- Theorem `excludeAll_hides` says what exclusions change in the reports, the edges and the counts of
  a session.
-/

namespace CallGraph

namespace Ledger

/-! ## Ledgers that hide methods -/

/-- The methods that are not in a list, in order of first appearance. -/
def besides (l : Ledger) (hidden : List Key) : List Profile :=
  l.profiles.filter fun p => p.key ∉ hidden

/-- The second ledger hides some methods, and otherwise is like the first one, which hides none. -/
structure Veils (hidden : List Key) (l l' : Ledger) : Prop where
  calls : l'.calls = l.calls
  stack : l'.stack = l.stack
  besides : l'.besides hidden = l.besides hidden
  hides : ∀ k, l'.hides k = decide (k ∈ hidden)
  shown : ∀ k, l.hides k = false

/-- The methods besides the hidden ones are those that the ledger knows and that are not hidden. -/
theorem mem_map_besides {l : Ledger} {hidden : List Key} {k : Key} :
    k ∈ (l.besides hidden).map Profile.key ↔ k ∈ l.keys ∧ k ∉ hidden := by
  simp only [besides, keys, List.mem_map, List.mem_filter, decide_eq_true_eq]
  constructor
  · rintro ⟨p, ⟨hp, hhidden⟩, rfl⟩
    exact ⟨⟨p, hp, rfl⟩, hhidden⟩
  · rintro ⟨⟨p, hp, rfl⟩, hhidden⟩
    exact ⟨p, ⟨hp, hhidden⟩, rfl⟩

/-- Interning adds a method to those besides the hidden ones if it is new and not hidden. -/
theorem besides_intern (l : Ledger) (hidden : List Key) (k : Key) (source : Option Source) :
    (l.intern k source).besides hidden =
      if k ∈ l.keys ∨ k ∈ hidden then l.besides hidden
      else l.besides hidden ++ [{ key := k, source := source }] := by
  unfold intern besides
  by_cases hk : k ∈ l.keys
  · simp [hk]
  · by_cases hhidden : k ∈ hidden <;> simp [hk, hhidden]

/-- A change of a method is a change of it among those that are not hidden. -/
theorem besides_adjust {f : Profile → Profile} (hf : ∀ p, (f p).key = p.key) (l : Ledger)
    (hidden : List Key) (k : Key) :
    (l.adjust k f).besides hidden =
      (l.besides hidden).map fun p => if p.key = k then f p else p := by
  have hkey : ∀ p : Profile, (if p.key = k then f p else p).key = p.key := by
    intro p
    split
    · exact hf p
    · rfl
  simp only [besides, adjust, List.filter_map]
  congr 2
  funext p
  simp [hkey]

/-- A call adds its method to those besides the hidden ones if it is new, and marks it as called. -/
theorem besides_enter (l : Ledger) (hidden : List Key) (host : Host) (o : Observation) :
    (l.enter host o).besides hidden =
      (if o.key host ∈ l.keys ∨ o.key host ∈ hidden then l.besides hidden
        else l.besides hidden ++ [{ key := o.key host, source := o.source }]).map fun p =>
          if p.key = o.key host then
            p.called l.stack.isEmpty (decide (o.key host ∈ l.stack)) else p := by
  have hprofiles : (l.enter host o).profiles =
      ((l.intern (o.key host) o.source).mark (o.key host)).profiles := by
    rw [enter_eq]
    exact profiles_link _ _
  have hbesides : (l.enter host o).besides hidden =
      ((l.intern (o.key host) o.source).mark (o.key host)).besides hidden := by
    rw [besides, besides, hprofiles]
  rw [hbesides, mark, besides_adjust fun p => p.key_called _ _, besides_intern, stack_intern]

namespace Veils

variable {hidden : List Key} {l l' : Ledger} (h : Veils hidden l l')

include h

/-- Both ledgers record the same methods, up to hidden ones. -/
theorem mem_keys_or_hidden (k : Key) : k ∈ l'.keys ∨ k ∈ hidden ↔ k ∈ l.keys ∨ k ∈ hidden := by
  by_cases hhidden : k ∈ hidden
  · simp [hhidden]
  · have hmem : k ∈ (l.besides hidden).map Profile.key ↔ k ∈ l.keys ∧ k ∉ hidden :=
      mem_map_besides
    rw [← h.besides, mem_map_besides] at hmem
    simpa [hhidden] using hmem

/-- A call on both sides keeps them alike but for the hidden methods. -/
theorem enter (host : Host) (o : Observation) :
    Veils hidden (l.enter host o) (l'.enter host o) where
  calls := by
    rw [enter_eq, enter_eq, calls_link, calls_link, calls_mark, calls_mark, calls_intern,
      calls_intern, h.calls, h.stack]
  stack := by
    rw [stack_enter, stack_enter, h.stack]
  besides := by
    rw [besides_enter, besides_enter, h.besides, h.stack]
    simp only [h.mem_keys_or_hidden]
  hides k := by
    rw [hides_enter]
    exact h.hides k
  shown k := by
    rw [hides_enter]
    exact h.shown k

/-- So does a return. -/
theorem leave : Veils hidden l.leave l'.leave :=
  ⟨h.calls, congrArg List.tail h.stack, h.besides, h.hides, h.shown⟩

/-- So does what any event of a trace does. -/
theorem apply_action (host : Host) (e : Event) :
    Veils hidden (l.apply (Replay.action host e)) (l'.apply (Replay.action host e)) := by
  cases e with
  | call o => exact h.enter host o
  | leave => exact h.leave

/-- The methods that are listed are those that are not hidden. -/
theorem visible_eq (hl : l.Consistent) (hl' : l'.Consistent) :
    l'.visible = l.visible.filter fun p => p.key ∉ hidden := by
  have hexcluded : ∀ {l : Ledger}, l.Consistent → ∀ p ∈ l.profiles, p.excluded = l.hides p.key := by
    intro l hl p hp
    rw [Ledger.hides, ((mem_profiles_iff hl.keys_nodup).mp hp).2]
  have hvisible : l.visible = l.profiles := by
    rw [visible, List.filter_eq_self]
    intro p hp
    rw [hexcluded hl p hp, h.shown]
    rfl
  have hvisible' : l'.visible = l'.besides hidden := by
    apply List.filter_congr
    intro p hp
    rw [hexcluded hl' p hp, h.hides]
    simp
  rw [hvisible, hvisible', h.besides, Ledger.besides]

/-- A ledger that hides methods has the records of the others. -/
theorem records_eq (hl : l.Consistent) (hl' : l'.Consistent) :
    l'.records = l.records.filter fun r => r.key ∉ hidden := by
  have hrecord : l'.record = l.record := by
    funext p
    simp only [record, callersOf, calleesOf, h.calls]
  rw [records, records, h.visible_eq hl hl', hrecord, List.filter_map]
  rfl

end Veils

/-- The exclusion of a hidden method changes nothing among the others. -/
theorem besides_exclude (l : Ledger) {hidden : List Key} {host : Host} {k : Key}
    (hk : k.canonical host ∈ hidden) : (l.exclude host k).besides hidden = l.besides hidden := by
  have hne : ∀ p ∈ l.besides hidden, p.key ≠ k.canonical host := by
    intro p hp heq
    have hshown := (mem_map_besides.mp (List.mem_map_of_mem hp)).2
    rw [heq] at hshown
    exact hshown hk
  rw [exclude, besides_adjust Profile.key_hidden, besides_intern, if_pos (Or.inr hk)]
  calc (l.besides hidden).map (fun p => if p.key = k.canonical host then p.hidden else p)
      = (l.besides hidden).map id := List.map_congr_left fun p hp => if_neg (hne p hp)
    _ = l.besides hidden := List.map_id _

/-- Exclusions of hidden methods leave the other methods as they are. -/
theorem besides_excludeAll (l : Ledger) {hidden : List Key} {host : Host} {keys : List Key}
    (hkeys : ∀ k ∈ keys, k.canonical host ∈ hidden) :
    (l.excludeAll host keys).besides hidden = l.besides hidden := by
  induction keys generalizing l with
  | nil => rfl
  | cons k rest ih =>
    rw [excludeAll_cons, ih _ fun k' hk' => hkeys k' (List.mem_cons_of_mem k hk'),
      besides_exclude l (hkeys k List.mem_cons_self)]

/-- Exclusions hide the methods that they name. -/
theorem veils_excludeAll {l : Ledger} (hl : ∀ k, l.hides k = false) (host : Host)
    (keys : List Key) : Veils (keys.map (Key.canonical host)) l (l.excludeAll host keys) where
  calls := calls_excludeAll l host keys
  stack := stack_excludeAll l host keys
  besides := besides_excludeAll l fun _ hk => List.mem_map_of_mem hk
  hides k := by
    rw [hides_excludeAll, hl, Bool.or_false]
  shown := hl

end Ledger

namespace Replay

/-! ## Sessions that hide methods -/

/-- The innermost open calls of graphs that record the same calls came by the same edge. -/
theorem edge_eq_of_head {g g' : Graph} {l l' : Ledger} (h : g.Records l) (h' : g'.Records l')
    (hl : l.Consistent) (hgen : g'.generation = g.generation) (hcalls : l'.calls = l.calls)
    (hstack : l'.stack = l.stack) {f f' : Frame} {below below' : List Frame}
    (hf : g.stack = f :: below) (hf' : g'.stack = f' :: below') : f'.edge = f.edge := by
  rcases h.call_of_head hf with ⟨hedge, k, rest, hk, hcall⟩
  rcases h'.call_of_head hf' with ⟨hedge', k', rest', hk', hcall'⟩
  rw [hstack, hk, List.cons.injEq] at hk'
  rcases hk' with ⟨rfl, rfl⟩
  rw [hcalls] at hcall'
  have hlt := (List.getElem?_eq_some_iff.mp hcall').1
  have hindex : f'.edge.index = f.edge.index :=
    (List.getElem?_inj hlt hl.calls_nodup).mp (hcall'.trans hcall.symm)
  calc f'.edge = ⟨f'.edge.generation, f'.edge.index⟩ := rfl
    _ = ⟨f.edge.generation, f.edge.index⟩ := by rw [hedge', hgen, ← hedge, hindex]
    _ = f.edge := rfl

/-- The second session hides some methods, and otherwise is like the first one. -/
structure Veils (hidden : List Key) (s s' : State) : Prop where
  sound : s.graph.Sound
  sound' : s'.graph.Sound
  consistent : s.graph.ledger.Consistent
  consistent' : s'.graph.ledger.Consistent
  ledger : Ledger.Veils hidden s.graph.ledger s'.graph.ledger
  generation : s'.graph.generation = s.graph.generation
  counter : s'.counter = s.counter

namespace Veils

variable {hidden : List Key} {s s' : State} (h : Veils hidden s s') (host : Host)

include h

/-- The graph of the session that hides nothing records its own ledger. -/
theorem records : s.graph.Records s.graph.ledger := ⟨h.sound, rfl⟩

/-- So does the graph of the session that hides methods. -/
theorem records' : s'.graph.Records s'.graph.ledger := ⟨h.sound', rfl⟩

/-- One event does to the ledgers what it does to the graphs, and counts for one edge. -/
theorem step_of_counter {e : Event}
    (hcounter : (step host s' e).counter = (step host s e).counter) :
    Veils hidden (step host s e) (step host s' e) := by
  have hrec := h.records.apply (action host e)
  have hrec' := h.records'.apply (action host e)
  rw [← graph_step] at hrec hrec'
  refine ⟨hrec.sound, hrec'.sound, ?_, ?_, ?_, ?_, hcounter⟩
  · rw [hrec.ledger_eq]
    exact h.consistent.apply _
  · rw [hrec'.ledger_eq]
    exact h.consistent'.apply _
  · rw [hrec.ledger_eq, hrec'.ledger_eq]
    exact h.ledger.apply_action host e
  · rw [graph_step, graph_step, Graph.generation_apply, Graph.generation_apply, h.generation]

/-- An event on both sides keeps the sessions alike but for the hidden methods. -/
theorem step (e : Event) : Veils hidden (step host s e) (step host s' e) := by
  apply h.step_of_counter host
  cases e with
  | call o =>
    -- The edge is that of the call that has just been opened.
    have hrec := h.records.enter host o
    have hrec' := h.records'.enter host o
    have hveils := h.ledger.enter host o
    rcases Graph.stack_enter s.graph host o with ⟨f, hf, -, hedge⟩
    rcases Graph.stack_enter s'.graph host o with ⟨f', hf', -, hedge'⟩
    have hgen : (s'.graph.enter host o).1.generation = (s.graph.enter host o).1.generation := by
      rw [(Graph.extends_enter s'.graph host o).generation, h.generation,
        (Graph.extends_enter s.graph host o).generation]
    have heq := edge_eq_of_head hrec hrec' (h.consistent.enter host o) hgen hveils.calls
      hveils.stack hf hf'
    calc (Replay.step host s' (.call o)).counter = s'.counter.entered f'.edge := by rw [hedge']; rfl
      _ = s.counter.entered f.edge := by rw [heq, h.counter]
      _ = (Replay.step host s (.call o)).counter := by rw [hedge]; rfl
  | leave =>
    have hkeys := h.ledger.stack
    rw [Graph.stack_ledger, Graph.stack_ledger] at hkeys
    cases hf : s.graph.stack with
    | nil =>
      have hf' : s'.graph.stack = [] := by simpa [hf] using hkeys
      simp [Replay.step, Graph.leave, hf, hf', h.counter]
    | cons f below =>
      cases hf' : s'.graph.stack with
      | nil => simp [hf, hf'] at hkeys
      | cons f' below' =>
        have heq := edge_eq_of_head h.records h.records' h.consistent h.generation h.ledger.calls
          h.ledger.stack hf hf'
        simp [Replay.step, Graph.leave, hf, hf', h.counter, heq]

/-- A session that excludes methods goes on like one that does not. -/
theorem run (events : List Event) : Veils hidden (run host s events) (run host s' events) := by
  induction events generalizing s s' with
  | nil => exact h
  | cons e rest ih => exact ih (h.step host e)

end Veils

/-! ## Reports -/

/-- Exclusions change nothing that is remembered. -/
theorem remembered_excludeAll (host : Host) (g : Graph) (keys : List Key) :
    (excludeAll host g keys).remembered = g.remembered :=
  foldl_leaves Graph.remembered (fun g k => Graph.remembered_exclude g host k) g keys

/-- A replay asks for no canonical owner, so nothing is remembered. -/
theorem remembered_run (host : Host) (s : State) (events : List Event) :
    (run host s events).graph.remembered = s.graph.remembered := by
  induction events generalizing s with
  | nil => rfl
  | cons e rest ih =>
    rw [run_cons, ih, graph_step]
    apply Graph.remembered_apply
    · cases e <;> simp [action]
    · cases e <;> simp [action]

/-- The node of a method that knows nothing but the profile of the method. -/
def nodeOf (p : Profile) : Node :=
  { key := p.key, source := p.source, root := p.root, recursive := p.recursive,
    excluded := p.excluded }

/-- No method of a graph that remembers nothing has an owner remembered. -/
theorem resolution_of_mem_methods {g : Graph} (hg : g.remembered = fun _ => none)
    {p : NodeId × Node} (hp : p ∈ g.methods) : p.2.resolution = none := by
  have hnode := (Graph.node_eq_ok_iff.mp (Graph.node_of_mem_methods hp)).2
  have hnone := congrFun hg p.1.index
  simpa [Graph.remembered, hnode] using hnone

/-- What is printed of a node that remembers nothing is printed of its profile. -/
theorem map_eq_map_profile {α : Type} {F : Node → α}
    (hF : ∀ n, n.resolution = none → F n = F (nodeOf n.profile)) {methods : List (NodeId × Node)}
    (h : ∀ p ∈ methods, p.2.resolution = none) :
    methods.map (fun p => F p.2) =
      (methods.map fun p => p.2.profile).map fun p => F (nodeOf p) := by
  rw [List.map_map]
  exact List.map_congr_left fun p hp => hF p.2 (h p hp)

/-- A session that hides methods prints of the others what the first one prints. -/
theorem Veils.map_methods {hidden : List Key} {s s' : State} (h : Veils hidden s s')
    (hs : s.graph.remembered = fun _ => none) (hs' : s'.graph.remembered = fun _ => none)
    {α : Type} {F : Node → α} (hF : ∀ n, n.resolution = none → F n = F (nodeOf n.profile)) :
    s'.graph.methods.map (fun p => F p.2) =
      (s.graph.methods.filter fun p => p.2.key ∉ hidden).map fun p => F p.2 := by
  have hprofiles : (s'.graph.methods.map fun p => p.2.profile) =
      (s.graph.methods.filter fun p => p.2.key ∉ hidden).map fun p => p.2.profile := by
    rw [Graph.map_profile_methods, h.ledger.visible_eq h.consistent h.consistent',
      ← Graph.map_profile_methods, List.filter_map]
    rfl
  have hlisted : ∀ p ∈ s.graph.methods.filter (fun p => p.2.key ∉ hidden),
      p.2.resolution = none :=
    fun p hp => resolution_of_mem_methods hs (List.mem_filter.mp hp).1
  rw [map_eq_map_profile hF fun p hp => resolution_of_mem_methods hs' hp, hprofiles,
    map_eq_map_profile hF hlisted]

/-! ## Sessions that are cut -/

/-- Exclusions are made in a session that hides nothing yet. -/
theorem veils_excludeAll {s : State} (hsound : s.graph.Sound) (hl : s.graph.ledger.Consistent)
    (hshown : ∀ k, s.graph.ledger.hides k = false) (host : Host) (keys : List Key) :
    Veils (keys.map (Key.canonical host)) s
      { s with graph := excludeAll host s.graph keys } := by
  have hrec : (excludeAll host s.graph keys).Records (s.graph.ledger.excludeAll host keys) :=
    Graph.Records.excludeAll ⟨hsound, rfl⟩ host keys
  refine ⟨hsound, hrec.sound, hl, ?_, ?_, ?_, rfl⟩
  · rw [hrec.ledger_eq]
    exact hl.excludeAll host keys
  · rw [hrec.ledger_eq]
    exact Ledger.veils_excludeAll hshown host keys
  · exact (Graph.extends_foldl (fun g k => Graph.extends_exclude g host k) s.graph keys).generation

/-- Exclusions hide the records and the lines of the methods that they name and change neither the
other ones nor any edge or count, wherever in a session they are made. -/
theorem excludeAll_hides (host : Host) (first second : List Event) (keys : List Key)
    (label : String) :
    let cut := run host {} first
    let whole := run host {} (first ++ second)
    let veiled := run host { cut with graph := excludeAll host cut.graph keys } second
    let hidden := keys.map (Key.canonical host)
    let listed := whole.graph.methods.filter fun p => p.2.key ∉ hidden
    (∃ rs, whole.graph.dumpAll = .ok rs ∧
        veiled.graph.dumpAll = .ok (rs.filter fun r => r.key ∉ hidden)) ∧
      Report.names veiled.graph host label =
        String.join (listed.map fun p => Report.nameLine host label p.2) ∧
      Report.calltree veiled.graph host =
        String.join (listed.map fun p => Report.treeName host p.2 ++ "\n") ∧
      veiled.graph.edges.size = whole.graph.edges.size ∧
      (∀ id c, veiled.graph.callRecord id = .ok c ↔ whole.graph.callRecord id = .ok c) ∧
      ∀ id, veiled.counter.counts id = whole.counter.counts id := by
  intro cut whole veiled hidden listed
  have hcut : cut.graph.Records ((({} : Ledger)).applyAll (first.map (action host))) :=
    Graph.Records.run (s := {}) (Graph.records_fresh 0) host first
  have hshown : ∀ k, cut.graph.ledger.hides k = false := by
    intro k
    rw [hcut.ledger_eq, Ledger.hides_replay]
    rfl
  have hl : cut.graph.ledger.Consistent := by
    rw [hcut.ledger_eq]
    exact Ledger.consistent_empty.applyAll _
  -- Up to the cut the two sessions are one, and from there on the same events reach both.
  have hwhole : whole = run host cut second := run_append host {} first second
  have h : Veils hidden whole veiled := by
    rw [hwhole]
    exact (veils_excludeAll hcut.sound hl hshown host keys).run host second
  have hforget : whole.graph.remembered = fun _ => none := remembered_run host {} (first ++ second)
  have hforget' : veiled.graph.remembered = fun _ => none := by
    rw [remembered_run, remembered_excludeAll, remembered_run]
    rfl
  have hnames := h.map_methods hforget hforget' (F := Report.nameLine host label) fun _ _ => rfl
  have htrees := h.map_methods hforget hforget' (F := fun n => Report.treeName host n ++ "\n")
    fun n hn => by simp [Report.treeName, Node.resolve, nodeOf, hn, Node.profile]
  refine ⟨⟨_, h.records.dumpAll h.consistent, ?_⟩, congrArg String.join hnames,
    congrArg String.join htrees, ?_, ?_, ?_⟩
  · rw [h.records'.dumpAll h.consistent', h.ledger.records_eq h.consistent h.consistent']
  · rw [h.records.size_edges, h.records'.size_edges, h.ledger.calls]
  · intro id c
    rw [h.sound.callRecord_eq_ok_iff, h.sound'.callRecord_eq_ok_iff, h.generation, h.ledger.calls]
  · intro id
    rw [h.counter]

end Replay

end CallGraph
