import CallGraph.Counter
import CallGraph.Proofs.Growth
import Mathlib.Algebra.GroupWithZero.Nat
import Mathlib.Data.List.Induction

/-!
# What a listener hears

A listener is told of every call and of every return that closes one.  Since the last release it has
heard a word of brackets: an enter opens one, the exit that closes it names the same edge with the
same ends, and the brackets that are still to be closed are those of the open calls.  A release
drops the open calls without a word, so the word starts again with it.

Main results:

- Theorems `Nested.enter` and `Nested.exit` say what one more signal does to a word.
- Theorem `Watched.Nests.act` says that every action keeps the word nested and the counts in
  balance.
- Theorem `measured_watch` says what a listener has heard and counted after any history.
-/

namespace CallGraph

/-- What a listener is told: that an edge is entered, or that it is left. -/
inductive Signal where
  | enter (notice : Notice)
  | exit (notice : Notice)
  deriving DecidableEq, Repr

/-- The edge that a signal is about, with its ends. -/
def Signal.notice : Signal → Notice
  | enter notice => notice
  | exit notice => notice

/-- Whether an action is a call. -/
def Action.isEnter : Action → Bool
  | enter _ _ => true
  | _ => false

/-! ## Words of signals -/

/-- A word in which every enter is closed by an exit with the same notice. -/
inductive Balanced : List Signal → Prop
  | nil : Balanced []
  | bracket {notice : Notice} {inner rest : List Signal} (hinner : Balanced inner)
      (hrest : Balanced rest) : Balanced (.enter notice :: inner ++ .exit notice :: rest)

/-- A word that is balanced but for some enters that wait for their exits, the latest first. -/
inductive Nested : List Notice → List Signal → Prop
  | closed {word : List Signal} (h : Balanced word) : Nested [] word
  | waiting {notice : Notice} {pending : List Notice} {outer inner : List Signal}
      (houter : Nested pending outer) (hinner : Balanced inner) :
      Nested (notice :: pending) (outer ++ .enter notice :: inner)

/-- A balanced word after another one is balanced. -/
theorem Balanced.append {v w : List Signal} (hv : Balanced v) (hw : Balanced w) :
    Balanced (v ++ w) := by
  induction hv with
  | nil => exact hw
  | bracket hinner _ _ ih =>
    rw [List.append_assoc, List.cons_append]
    exact .bracket hinner ih

namespace Nested

variable {notice : Notice} {pending : List Notice} {word : List Signal}

/-- A balanced word may follow any nested one. -/
theorem append (h : Nested pending word) {w : List Signal} (hw : Balanced w) :
    Nested pending (word ++ w) := by
  cases h with
  | closed hword => exact .closed (hword.append hw)
  | waiting houter hinner =>
    rw [List.append_assoc, List.cons_append]
    exact .waiting houter (hinner.append hw)

/-- An enter waits for its exit. -/
theorem enter (h : Nested pending word) : Nested (notice :: pending) (word ++ [.enter notice]) :=
  .waiting h .nil

/-- An exit closes the latest enter that waits for one. -/
theorem exit (h : Nested (notice :: pending) word) : Nested pending (word ++ [.exit notice]) := by
  cases h with
  | waiting houter hinner =>
    rw [List.append_assoc]
    exact houter.append (.bracket hinner .nil)

/-- A nested word is closed by the exits that are missing. -/
theorem balanced_exits (h : Nested pending word) : Balanced (word ++ pending.map Signal.exit) := by
  induction pending generalizing word with
  | nil =>
    cases h with
    | closed hword => simpa using hword
  | cons notice pending ih =>
    have hclosed := ih h.exit
    rwa [List.append_assoc] at hclosed

end Nested

/-! ## What is counted -/

namespace Table

variable {κ α : Type} [DecidableEq κ]

/-- Writing under a key changes a sum over all entries by the new value less the one it replaces. -/
theorem sum_put (measure : α → Nat) (k : κ) (v : α) (entries : List (κ × α)) :
    ((put k v entries).map fun e => measure e.2).sum + ((find k entries).map measure).getD 0 =
      (entries.map fun e => measure e.2).sum + measure v := by
  induction entries with
  | nil => simp [put, find]
  | cons e rest ih =>
    by_cases h : e.1 = k
    · simp only [put, find, h, if_true, List.map_cons, List.sum_cons, Option.map_some,
        Option.getD_some]
      omega
    · simp only [put, find, h, if_false, List.map_cons, List.sum_cons]
      omega

end Table

namespace Counter

/-- Count a signal. -/
def hear (c : Counter) : Signal → Counter
  | .enter notice => c.entered notice.edge
  | .exit notice => c.left notice.edge

/-- The total is the sum over the entries of the table. -/
theorem totalCalls_eq_sum (c : Counter) :
    c.totalCalls = (c.table.entries.map fun e => e.2.calls).sum := by
  simp [totalCalls, Table.values, List.sum_eq_foldl, List.foldl_map]

/-- An edge that is not in the table was not called. -/
theorem getD_calls (c : Counter) (e : EdgeId) :
    ((c.table.lookup e).map Counts.calls).getD 0 = (c.counts e).calls := by
  unfold counts
  cases c.table.lookup e <;> rfl

/-- A call that begins adds one to the total. -/
theorem totalCalls_entered (c : Counter) (e : EdgeId) :
    (c.entered e).totalCalls = c.totalCalls + 1 := by
  have hsum := Table.sum_put Counts.calls e
    { c.counts e with calls := (c.counts e).calls + 1 } c.table.entries
  have hold := c.getD_calls e
  rw [totalCalls_eq_sum, totalCalls_eq_sum]
  simp only [entered, Table.alter, Table.insert, Table.lookup, counts] at hsum hold ⊢
  omega

/-- A call that ends adds nothing to the total. -/
theorem totalCalls_left (c : Counter) (e : EdgeId) : (c.left e).totalCalls = c.totalCalls := by
  have hsum := Table.sum_put Counts.calls e
    { c.counts e with returns := (c.counts e).returns + 1 } c.table.entries
  have hold := c.getD_calls e
  rw [totalCalls_eq_sum, totalCalls_eq_sum]
  simp only [left, Table.alter, Table.insert, Table.lookup, counts] at hsum hold ⊢
  omega

end Counter

/-! ## A graph that is listened to -/

namespace Graph

/-- What a listener is told when an open call is entered, and again when it is left. -/
def noticeOf (g : Graph) (f : Frame) : Notice := ⟨f.edge, g.edges[f.edge.index]?⟩

/-- What an action tells a listener. -/
def signals (g : Graph) : Action → List Signal
  | .enter host o => [.enter (g.enter host o).2.2]
  | .leave => (g.leave.2.map fun left => Signal.exit left.2).toList
  | _ => []

/-- The notice of an open call has the ends of its edge. -/
theorem noticeOf_eq {g : Graph} {f : Frame} {e : Edge} (h : g.Joins f.edge e) :
    g.noticeOf f = ⟨f.edge, some e⟩ := by
  rw [noticeOf, h.ends]

/-- A live edge is none of those that come after a release. -/
theorem Joins.ne_of_lt {g : Graph} {id later : EdgeId} {e : Edge} (h : g.Joins id e)
    (hlater : g.generation < later.generation) : id ≠ later := by
  intro heq
  have hgen := h.generation
  rw [heq] at hgen
  omega

/-- What was told of the open calls stays true while the graph grows. -/
theorem Sound.map_noticeOf {g g' : Graph} (hg : g.Sound) (hext : g.Extends g') :
    g.stack.map g'.noticeOf = g.stack.map g.noticeOf := by
  apply List.map_congr_left
  intro f hf
  obtain ⟨caller, hjoin⟩ := hg.path.joins_of_mem hf
  rw [noticeOf_eq hjoin, noticeOf_eq (hjoin.mono hext)]

/-- A call tells of its own frame. -/
theorem notice_enter (g : Graph) (host : Host) (o : Observation) :
    ∃ f, (g.enter host o).1.stack = f :: g.stack ∧
      (g.enter host o).2.2 = (g.enter host o).1.noticeOf f := by
  obtain ⟨f, hstack, -, hedge⟩ := stack_enter g host o
  refine ⟨f, hstack, ?_⟩
  rw [noticeOf, hedge]
  rfl

end Graph

/-- A graph with one listener, which writes down what it hears and counts it. -/
structure Watched where
  graph : Graph := .empty
  /-- What was heard since the last release. -/
  word : List Signal := []
  /-- The counts of everything that was heard. -/
  counter : Counter := .empty

namespace Watched

/-- An action on the graph, of which the listener hears. -/
def act (s : Watched) (a : Action) : Watched where
  graph := s.graph.apply a
  word := if a.isRelease then [] else s.word ++ s.graph.signals a
  counter := (s.graph.signals a).foldl Counter.hear s.counter

/-- A new graph that is listened to from its first action on. -/
def watch (actions : List Action) : Watched := actions.foldl act {}

/-- The last action acts on the session that the others left. -/
@[simp] theorem watch_concat (actions : List Action) (a : Action) :
    watch (actions ++ [a]) = (watch actions).act a := by
  simp [watch]

/-- A listener changes nothing. -/
theorem graph_watch (actions : List Action) :
    (watch actions).graph = Graph.empty.applyAll actions := by
  induction actions using List.reverseRecOn with
  | nil => rfl
  | append_singleton actions a ih =>
    rw [watch_concat, Graph.applyAll_append, ← ih]
    rfl

/-- The graph of a session is sound after every history. -/
theorem sound_watch (actions : List Action) : (watch actions).graph.Sound := by
  rw [graph_watch]
  exact (Graph.records_applyAll actions).sound

/-- A return with no call open is not heard of and changes nothing. -/
theorem act_leave_of_stack_nil {s : Watched} (hstack : s.graph.stack = []) : s.act .leave = s := by
  simp [act, Graph.apply, Graph.signals, Graph.leave_of_stack_nil hstack, Action.isRelease]

/-! ## The invariant -/

/-- What was heard is nested with the open calls pending, and the counts are in balance. -/
structure Nests (s : Watched) : Prop where
  nested : Nested (s.graph.stack.map s.graph.noticeOf) s.word
  told : ∀ signal ∈ s.word, ∃ e, s.graph.Joins signal.notice.edge e ∧ signal.notice.ends = some e
  balance : ∀ e : EdgeId, e.generation = s.graph.generation →
    (s.counter.counts e).calls =
      (s.counter.counts e).returns + s.graph.stack.countP fun f => f.edge = e
  /-- Nothing was heard yet of edges that come after a release. -/
  unheard : ∀ e : EdgeId, s.graph.generation < e.generation → s.counter.counts e = {}

/-- A new session has told nothing and has no open call. -/
theorem nests_empty : Nests {} where
  nested := .closed .nil
  told signal hsignal := by simp at hsignal
  balance e _ := rfl
  unheard e _ := rfl

namespace Nests

variable {s : Watched} (hs : s.Nests)

include hs

/-- One more signal about a live edge. -/
theorem told_concat {g' : Graph} (hext : s.graph.Extends g') {signal : Signal}
    (hsignal : ∃ e, g'.Joins signal.notice.edge e ∧ signal.notice.ends = some e) :
    ∀ heard ∈ s.word ++ [signal], ∃ e, g'.Joins heard.notice.edge e ∧
      heard.notice.ends = some e := by
  intro heard hheard
  rcases List.mem_append.mp hheard with hold | hnew
  · obtain ⟨e, hjoin, hends⟩ := hs.told heard hold
    exact ⟨e, hjoin.mono hext, hends⟩
  · rw [List.mem_singleton] at hnew
    rw [hnew]
    exact hsignal

/-- A release drops the open calls, and nothing was heard yet of the edges that come after it. -/
theorem release : (s.act .release).Nests where
  nested := .closed .nil
  told signal hsignal := by simp [act, Action.isRelease] at hsignal
  balance e he := by
    have hlt : s.graph.generation < e.generation := by
      have hgen : e.generation = s.graph.generation + 1 := he
      omega
    have hcounts : (s.act .release).counter.counts e = {} := hs.unheard e hlt
    rw [hcounts]
    rfl
  unheard e he := by
    have hlt : s.graph.generation + 1 < e.generation := he
    exact hs.unheard e (by omega)

variable (hg : s.graph.Sound)

include hg

/-- An action of which nothing is heard and that leaves the open calls alone. -/
theorem quiet {g' : Graph} (hext : s.graph.Extends g') (hstack : g'.stack = s.graph.stack) :
    ({ s with graph := g' } : Watched).Nests where
  nested := by
    simp only [hstack]
    rw [hg.map_noticeOf hext]
    exact hs.nested
  told signal hsignal := by
    obtain ⟨e, hjoin, hends⟩ := hs.told signal hsignal
    exact ⟨e, hjoin.mono hext, hends⟩
  balance e he := by
    rw [hstack]
    exact hs.balance e (he.trans hext.generation)
  unheard e he := hs.unheard e (hext.generation ▸ he)

/-- The notice of a call opens it in the word that was told. -/
theorem enter (host : Host) (o : Observation) : (s.act (.enter host o)).Nests := by
  obtain ⟨f, hstack, hnotice⟩ := Graph.notice_enter s.graph host o
  have hext := Graph.extends_enter s.graph host o
  have hsound : (s.graph.enter host o).1.Sound := (hg.records.enter host o).sound
  have hmem : f ∈ (s.graph.enter host o).1.stack := by simp [hstack]
  obtain ⟨caller, hjoin⟩ := hsound.path.joins_of_mem hmem
  have hedge : (s.graph.enter host o).2.2.edge = f.edge := by
    rw [hnotice]
    rfl
  refine ⟨?_, ?_, ?_, ?_⟩
  · have hnested : Nested (_ :: s.graph.stack.map s.graph.noticeOf)
        (s.word ++ [.enter ((s.graph.enter host o).1.noticeOf f)]) := hs.nested.enter
    rw [← hg.map_noticeOf hext, ← hnotice] at hnested
    simp only [act, Graph.apply, Graph.signals, hstack, List.map_cons, ← hnotice]
    exact hnested
  · apply hs.told_concat hext
    simp only [Signal.notice, hnotice, Graph.noticeOf_eq hjoin]
    exact ⟨_, hjoin, rfl⟩
  · intro e he
    have hold := hs.balance e (he.trans hext.generation)
    simp only [act, Graph.apply, Graph.signals, hstack, List.foldl_cons, List.foldl_nil,
      Counter.hear, Counter.counts_entered, hedge, List.countP_cons]
    by_cases hfe : f.edge = e
    · simp only [hfe, if_true, decide_true, hold]
      omega
    · simp [hfe, hold]
  · intro e he
    have hne : f.edge ≠ e := hjoin.ne_of_lt he
    simp only [act, Graph.signals, List.foldl_cons, List.foldl_nil, Counter.hear,
      Counter.counts_entered, hedge, if_neg hne]
    exact hs.unheard e (hext.generation ▸ he)

/-- The notice of a return closes the innermost call, and an empty return tells nothing. -/
theorem leave : (s.act .leave).Nests := by
  cases hstack : s.graph.stack with
  | nil =>
    rw [act_leave_of_stack_nil hstack]
    exact hs
  | cons f rest =>
    have hmem : f ∈ s.graph.stack := by simp [hstack]
    obtain ⟨caller, hjoin⟩ := hg.path.joins_of_mem hmem
    have hact : s.act .leave = ⟨{ s.graph with stack := rest },
        s.word ++ [.exit (s.graph.noticeOf f)], s.counter.left f.edge⟩ := by
      simp [act, Graph.apply, Graph.signals, Graph.leave_of_stack_cons hstack, Action.isRelease,
        Counter.hear, Graph.noticeOf]
    have hext := Graph.extends_stack s.graph rest
    rw [hact]
    refine ⟨?_, ?_, ?_, ?_⟩
    · have hnested := hs.nested
      rw [hstack, List.map_cons] at hnested
      exact hnested.exit
    · apply hs.told_concat hext
      simp only [Signal.notice, Graph.noticeOf_eq hjoin]
      exact ⟨_, hjoin.mono hext, rfl⟩
    · intro e he
      have hold := hs.balance e he
      simp only [hstack, List.countP_cons] at hold
      simp only [Counter.counts_left]
      by_cases hfe : f.edge = e
      · simp only [hfe, if_true, decide_true] at hold ⊢
        omega
      · simpa [hfe] using hold
    · intro e he
      have hne : f.edge ≠ e := hjoin.ne_of_lt he
      simp only [Counter.counts_left, if_neg hne]
      exact hs.unheard e he

/-- Every action keeps the word nested and the counts in balance. -/
theorem act (a : Action) : (s.act a).Nests := by
  -- Of the actions that are no release only calls and returns are heard.
  have hquiet : a.isRelease = false → s.graph.signals a = [] →
      (s.graph.apply a).stack = s.graph.stack → (s.act a).Nests := by
    intro hrelease hsignals hstack
    have hact : s.act a = { s with graph := s.graph.apply a } := by
      simp [Watched.act, hrelease, hsignals]
    rw [hact]
    exact hs.quiet hg (Graph.extends_apply s.graph hrelease) hstack
  cases a with
  | enter host o => exact hs.enter hg host o
  | leave => exact hs.leave hg
  | exclude host k => exact hquiet rfl rfl (Graph.stack_exclude s.graph host k)
  | load host r => exact hquiet rfl rfl (Graph.stack_load s.graph host r)
  | loadValue host v =>
    apply hquiet rfl rfl
    rw [Graph.apply_loadValue]
    cases Graph.recordOfJson v with
    | ok r => exact Graph.stack_load s.graph host r
    | error e => rfl
  | resolve host id =>
    apply hquiet rfl rfl
    rcases Graph.apply_resolve s.graph host id with hsame | hadjust
    · rw [hsame]
    · rw [hadjust, Graph.stack_adjust]
  | release => exact hs.release

end Nests

/-- Whatever has happened to a new graph, its listener has heard nested calls. -/
theorem nests_watch (actions : List Action) : (watch actions).Nests := by
  induction actions using List.reverseRecOn with
  | nil => exact nests_empty
  | append_singleton actions a ih =>
    rw [watch_concat]
    exact ih.act (sound_watch actions) a

/-! ## The number of calls -/

/-- The total counts the calls and nothing else. -/
theorem totalCalls_act (s : Watched) (a : Action) :
    (s.act a).counter.totalCalls = s.counter.totalCalls + a.isEnter.toNat := by
  cases a with
  | enter host o => exact Counter.totalCalls_entered _ _
  | leave =>
    cases hstack : s.graph.stack with
    | nil =>
      rw [act_leave_of_stack_nil hstack]
      rfl
    | cons f rest =>
      simp only [act, Graph.signals, Graph.leave_of_stack_cons hstack, Option.map_some,
        Option.toList_some, List.foldl_cons, List.foldl_nil, Counter.hear]
      exact Counter.totalCalls_left _ _
  | exclude | load | loadValue | resolve | release => rfl

/-- The counts add up to the number of calls of the whole history, releases included. -/
theorem totalCalls_watch (actions : List Action) :
    (watch actions).counter.totalCalls = actions.countP Action.isEnter := by
  induction actions using List.reverseRecOn with
  | nil => rfl
  | append_singleton actions a ih =>
    rw [watch_concat, totalCalls_act, ih, List.countP_append]
    cases a <;> rfl

/-! ## What is heard and counted -/

/-- What a listener has heard and counted of a graph with a history. -/
structure Measured (s : Watched) (actions : List Action) : Prop where
  /-- The enters without an exit are those of the open calls, innermost first, and every other enter
  is closed by an exit with the same edge and the same ends. -/
  nested : Nested (s.graph.stack.map s.graph.noticeOf) s.word
  /-- What was heard since the last release can be continued to a balanced word. -/
  closes : ∃ whole, Balanced whole ∧ s.word <+: whole
  /-- Every signal is about a live edge and tells of the ends that it has. -/
  told : ∀ signal ∈ s.word, ∃ e, s.graph.edge signal.notice.edge = .ok e ∧
    signal.notice.ends = some e
  /-- An open call came by an edge to its method. -/
  frames : ∀ f ∈ s.graph.stack, ∃ caller, s.graph.edge f.edge = .ok ⟨caller, f.vertex.id⟩
  /-- A return with no call open tells nothing and changes nothing. -/
  silent : s.graph.stack = [] → s.graph.leave = (s.graph, none) ∧ s.act .leave = s
  /-- An edge was left as often as it was entered, but for the open calls. -/
  balance : ∀ e : EdgeId, e.generation = s.graph.generation →
    (s.counter.counts e).calls =
      (s.counter.counts e).returns + s.graph.stack.countP fun f => f.edge = e
  /-- The counts of all generations add up to the number of calls. -/
  total : s.counter.totalCalls = actions.countP Action.isEnter

/-- What is heard of a graph since its last release is nested calls, of which those that are open
are still to be closed; every edge was left as often as it was entered but for its open calls; and
all calls are counted. -/
theorem measured_watch (actions : List Action) : Measured (watch actions) actions := by
  have hs := nests_watch actions
  have hg := sound_watch actions
  refine ⟨hs.nested, ⟨_, hs.nested.balanced_exits, List.prefix_append _ _⟩, ?_, ?_, ?_, hs.balance,
    totalCalls_watch actions⟩
  · intro signal hsignal
    obtain ⟨e, hjoin, hends⟩ := hs.told signal hsignal
    exact ⟨e, Graph.joins_iff_edge.mp hjoin, hends⟩
  · intro f hf
    obtain ⟨caller, hjoin⟩ := hg.path.joins_of_mem hf
    exact ⟨caller, Graph.joins_iff_edge.mp hjoin⟩
  · intro hstack
    exact ⟨Graph.leave_of_stack_nil hstack, act_leave_of_stack_nil hstack⟩

end Watched

end CallGraph
