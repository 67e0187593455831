import CallGraph.Proofs.Growth
import CallGraph.Sessions
import Mathlib.Data.List.Induction

/-!
# The turns of contexts

The registry serves contexts in turns: in each turn the graph of one context is used, or one context
is discarded.  What a use is may be anything that acts on a graph, a function as well as a list of
actions.  Contexts share nothing, so the graph of each is what its own uses since it was last
discarded make of a new graph.

Main results:

- Theorem `graph_serveAll` says that the graph of a context depends on its own uses alone.
- Theorem `graph_applyAll` says the same of contexts that are visited by actions.
-/

namespace CallGraph

namespace Sessions

/-- One turn of the registry: some use of the graph of a context, or the end of a context. -/
inductive Turn (Use : Type) where
  | use (context : UInt64) (u : Use)
  | discard (context : UInt64)

/-! ## Any uses -/

section Serve

variable {Use : Type} (act : Graph → Use → Graph)

/-- The registry after a turn. -/
def serve (s : Sessions) : Turn Use → Sessions
  | .use context u => (s.withSession context fun g => (act g u, ())).1
  | .discard context => (s.discard context).1

/-- The registry after some turns, from the first to the last. -/
def serveAll (s : Sessions) (turns : List (Turn Use)) : Sessions := turns.foldl (serve act) s

/-- The uses of a context since it was last discarded, after one more turn. -/
def ownAfter (context : UInt64) (uses : List Use) : Turn Use → List Use
  | .use context' u => if context' = context then uses ++ [u] else uses
  | .discard context' => if context' = context then [] else uses

/-- The uses of a context since it was last discarded. -/
def own (context : UInt64) (turns : List (Turn Use)) : List Use :=
  turns.foldl (ownAfter context) []

/-- The last turn is served last. -/
@[simp] theorem serveAll_concat (s : Sessions) (turns : List (Turn Use)) (turn : Turn Use) :
    s.serveAll act (turns ++ [turn]) = (s.serveAll act turns).serve act turn := by
  simp [serveAll]

/-- The last turn is the last to add to the uses of a context. -/
@[simp] theorem own_concat (context : UInt64) (turns : List (Turn Use)) (turn : Turn Use) :
    own context (turns ++ [turn]) = ownAfter context (own context turns) turn := by
  simp [own]

/-- A turn does to the graph of its context what it adds to the uses of the context, and nothing to
any other. -/
theorem graph_serve {s : Sessions} {context : UInt64} {uses : List Use}
    (h : s.graph context = uses.foldl act .empty) (turn : Turn Use) :
    (s.serve act turn).graph context = (ownAfter context uses turn).foldl act .empty := by
  cases turn with
  | use context' u =>
    simp only [serve, withSession, graph_update, ownAfter]
    by_cases hc : context' = context
    · rw [if_pos hc, if_pos hc, List.foldl_concat, ← h, hc]
    · rw [if_neg hc, if_neg hc, h]
  | discard context' =>
    simp only [serve, graph_discard, ownAfter]
    by_cases hc : context' = context
    · rw [if_pos hc, if_pos hc, List.foldl_nil]
    · rw [if_neg hc, if_neg hc, h]

/-- The graph of a context is what its own uses make of a new graph. -/
theorem graph_serveAll (turns : List (Turn Use)) (context : UInt64) :
    (empty.serveAll act turns).graph context = (own context turns).foldl act .empty := by
  induction turns using List.reverseRecOn with
  | nil => rfl
  | append_singleton turns turn ih =>
    rw [serveAll_concat, own_concat]
    exact graph_serve act ih turn

end Serve

/-! ## Visits by actions -/

/-- A turn in which a context is used by some actions. -/
abbrev Visit := Turn (List Action)

/-- The registry after some visits, from the first to the last. -/
def applyAll (s : Sessions) (visits : List Visit) : Sessions := s.serveAll Graph.applyAll visits

/-- What has happened in a context since it was last discarded. -/
def history (context : UInt64) (visits : List Visit) : List Action := (own context visits).flatten

/-- The graph of a context is made by the history of the context alone. -/
theorem graph_applyAll (visits : List Visit) (context : UInt64) :
    (empty.applyAll visits).graph context = Graph.empty.applyAll (history context visits) := by
  rw [applyAll, graph_serveAll, history]
  exact List.foldl_flatten.symm

end Sessions

end CallGraph
