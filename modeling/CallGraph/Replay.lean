import CallGraph.Counter
import CallGraph.Naming
import CallGraph.Trace

/-!
# Replaying events

Replaying a list of events drives a graph and its counter through the calls and returns in order
and sums up what was seen: a return with no call open counts as unbalanced, and the calls that are
still open at the end are counted last.

Main results:

- Theorem `run_append` says that a replay can be cut anywhere.
- Theorem `run_calls` says how many calls a replay counts.
-/

namespace CallGraph.Replay

/-- What a replay has counted so far. -/
structure Tally where
  calls : Nat := 0
  returns : Nat := 0
  /-- Returns with no call open. -/
  unbalanced : Nat := 0
  deriving DecidableEq, Repr, Inhabited

/-- A graph with the counter that listens to it, and the tally. -/
structure State where
  graph : Graph := {}
  counter : Counter := {}
  tally : Tally := {}
  deriving DecidableEq, Inhabited

/-- What a replay sums up: its counts, and the calls that it leaves open. -/
structure Summary extends Tally where
  /-- Frames still open when the events ended. -/
  openFrames : Nat := 0
  deriving DecidableEq, Repr, Inhabited

/-- The summary of a replay that ends here. -/
def State.summary (s : State) : Summary := { s.tally with openFrames := s.graph.depth }

/-- The counts of a summary are those of the replay. -/
@[simp] theorem State.summary_toTally (s : State) : s.summary.toTally = s.tally := rfl

/-- The frames that a summary tells of are those on the stack. -/
@[simp] theorem State.summary_openFrames (s : State) : s.summary.openFrames = s.graph.depth := rfl

/-- One event. -/
def step (host : Host) (s : State) : Event → State
  | .call o =>
    let (g, _, notice) := s.graph.enter host o
    { graph := g, counter := s.counter.entered notice.edge,
      tally := { s.tally with calls := s.tally.calls + 1 } }
  | .leave =>
    match s.graph.leave with
    | (g, some (_, notice)) =>
      { graph := g, counter := s.counter.left notice.edge,
        tally := { s.tally with returns := s.tally.returns + 1 } }
    -- A return that finds no call open is counted and changes nothing else.
    | (g, none) =>
      { s with graph := g, tally := { s.tally with unbalanced := s.tally.unbalanced + 1 } }

/-- A list of events, from first to last. -/
def run (host : Host) (s : State) (events : List Event) : State :=
  events.foldl (step host) s

/-- Exclude methods before any event is seen. -/
def excludeAll (host : Host) (g : Graph) (keys : List Key) : Graph :=
  keys.foldl (fun g k => (g.exclude host k).1) g

/-- Replay a trace on a fresh graph, with the methods of some full names excluded. -/
def ofTrace (t : Trace) (exclude : List String) : State :=
  let host := t.table.host
  let start := excludeAll host .empty (t.table.parseFullNames exclude)
  run host { graph := start } t.events

@[simp] theorem run_nil (host : Host) (s : State) : run host s [] = s := rfl

@[simp] theorem run_cons (host : Host) (s : State) (e : Event) (events : List Event) :
    run host s (e :: events) = run host (step host s e) events := rfl

/-- A replay can be cut anywhere. -/
theorem run_append (host : Host) (s : State) (xs ys : List Event) :
    run host s (xs ++ ys) = run host (run host s xs) ys := by
  simp [run]

/-- A replay counts each call. -/
theorem run_calls (host : Host) (s : State) (events : List Event) :
    (run host s events).tally.calls =
      s.tally.calls + (events.filter fun e => e.observation.isSome).length := by
  induction events generalizing s with
  | nil => simp
  | cons e rest ih =>
    rw [run_cons, ih]
    cases e with
    | call o => simp [step, Event.observation]; omega
    | leave =>
      simp only [step, Event.observation]
      split <;> simp

end CallGraph.Replay
