import CallGraph.Graph.Calls
import CallGraph.Graph.Load

/-!
# Histories of a call graph

A session changes its graph by a few actions: calls, returns, exclusions, loads of records,
questions for a canonical owner, and releases.  A load that fails leaves the graph as it was.  A
history is a list of actions, and every action may come with a host of its own.

Main results:

- Theorems `apply_load` and `apply_loadValue` say what is left of the graph after a load.
- Theorem `apply_resolve` says that a question for an owner changes what one node remembers.
- Theorem `foldl_leaves` carries what each step leaves alone over to a list of steps.
-/

namespace CallGraph

/-- Steps that leave a part of a state alone leave it alone when they are repeated. -/
theorem foldl_leaves {σ α β : Type} (part : σ → β) {step : σ → α → σ}
    (h : ∀ s a, part (step s a) = part s) (s : σ) (as : List α) :
    part (as.foldl step s) = part s := by
  induction as generalizing s with
  | nil => rfl
  | cons a rest ih => rw [List.foldl_cons, ih, h]

/-- What a session can do to its graph. -/
inductive Action where
  | enter (host : Host) (o : Observation)
  | leave
  | exclude (host : Host) (k : Key)
  | load (host : Host) (r : Record)
  | loadValue (host : Host) (v : Json)
  /-- Ask for the canonical owner of a method, which its node remembers. -/
  | resolve (host : Host) (id : NodeId)
  | release

namespace Graph

/-- The graph after an attempt to change it, which leaves it alone if it fails. -/
def orKeep {α : Type} (g : Graph) : Except GraphError (Graph × α) → Graph
  | .ok (g', _) => g'
  | .error _ => g

/-- The graph after an action. -/
def apply (g : Graph) : Action → Graph
  | .enter host o => (g.enter host o).1
  | .leave => g.leave.1
  | .exclude host k => (g.exclude host k).1
  | .load host r => g.orKeep (g.load host r)
  | .loadValue host v => g.orKeep (g.loadValue host v)
  | .resolve host id => g.orKeep (g.resolve host id)
  | .release => g.release

/-- The graph after a history, from the first action to the last. -/
def applyAll (g : Graph) (actions : List Action) : Graph := actions.foldl apply g

@[simp] theorem applyAll_nil (g : Graph) : g.applyAll [] = g := rfl

@[simp] theorem applyAll_cons (g : Graph) (a : Action) (actions : List Action) :
    g.applyAll (a :: actions) = (g.apply a).applyAll actions := rfl

/-- Loading takes in a record that has no problem and ignores any other. -/
theorem apply_load (g : Graph) (host : Host) (r : Record) :
    g.apply (.load host r) = if recordProblem host r = none then (g.absorb host r).1 else g := by
  cases h : recordProblem host r <;> simp [apply, orKeep, load, h]

/-- Loading a loose value is loading its record, if it has one. -/
theorem apply_loadValue (g : Graph) (host : Host) (v : Json) :
    g.apply (.loadValue host v) =
      match recordOfJson v with
      | .ok r => g.apply (.load host r)
      | .error _ => g := by
  simp only [apply, loadValue]
  cases recordOfJson v <;> rfl

/-- A node that is asked for its canonical owner remembers it. -/
theorem apply_resolve_of_node {g : Graph} {id : NodeId} {n : Node} (h : g.node id = .ok n)
    (host : Host) : g.apply (.resolve host id) = g.adjust id fun n => n.remember host := by
  simp only [apply, resolve, h]
  rfl

/-- A question for an owner with a handle that is refused changes nothing. -/
theorem apply_resolve_of_error {g : Graph} {id : NodeId} {e : GraphError} (h : g.node id = .error e)
    (host : Host) : g.apply (.resolve host id) = g := by
  simp only [apply, resolve, h]
  rfl

/-- Asking for a canonical owner changes at most what one node remembers. -/
theorem apply_resolve (g : Graph) (host : Host) (id : NodeId) :
    g.apply (.resolve host id) = g ∨
      g.apply (.resolve host id) = g.adjust id fun n => n.remember host := by
  cases h : g.node id with
  | error e => exact Or.inl (apply_resolve_of_error h host)
  | ok n => exact Or.inr (apply_resolve_of_node h host)

end Graph

end CallGraph
