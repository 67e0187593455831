import CallGraph.Proofs.Contexts
import CallGraph.Proofs.Dump
import CallGraph.Proofs.RoundTrip

/-!
# Contexts do not interfere

The registry takes turns: in each turn one context is discarded, or its graph is used in whatever
way.  The graph of a context is what its own uses make of a new graph, and the turns of other
contexts are nowhere to be seen in it.

Main results:

- Theorem `graph_takeAll` says that a context has the graph that it would have if it were alone.
- Theorem `mem_keys_takeAll` says which contexts have a graph.
- Theorem `isolated_takeAll` says what the registry holds and answers after any turns.
-/

namespace CallGraph

namespace Graph

/-- A graph that a history makes of the empty one. -/
def Reachable (g : Graph) : Prop := ∃ actions, g = empty.applyAll actions

/-- The empty graph can be reached. -/
theorem reachable_empty : empty.Reachable := ⟨[], rfl⟩

/-- What can be reached from a graph that can be reached can be reached. -/
theorem Reachable.applyAll {g : Graph} (h : g.Reachable) (actions : List Action) :
    (g.applyAll actions).Reachable := by
  obtain ⟨before, rfl⟩ := h
  exact ⟨before ++ actions, (applyAll_append empty before actions).symm⟩

/-- A graph with a history can be dumped. -/
theorem Reachable.exists_dumpAll {g : Graph} (h : g.Reachable) :
    ∃ records, g.dumpAll = .ok records := by
  obtain ⟨actions, rfl⟩ := h
  exact ⟨_, (records_applyAll actions).dumpAll (Ledger.consistent_empty.applyAll actions)⟩

end Graph

namespace Sessions

/-! ## Turns -/

/-- A turn in which the graph of a context is used in whatever way. -/
abbrev FreeTurn := Turn (Graph → Graph)

/-- The registry after some turns, from the first to the last. -/
def takeAll (s : Sessions) (turns : List FreeTurn) : Sessions :=
  s.serveAll (fun g f => f g) turns

/-- The graph of a context that is alone: its own uses, one after the other, of a new graph. -/
def alone (context : UInt64) (turns : List FreeTurn) : Graph :=
  (own context turns).foldl (fun g f => f g) .empty

/-- A context was used and has not been discarded since. -/
def InUse (context : UInt64) (turns : List FreeTurn) : Prop :=
  ∃ before f after, turns = before ++ .use context f :: after ∧ .discard context ∉ after

/-! ## The graph of a context -/

/-- A context has the graph that it would have if it were alone. -/
theorem graph_takeAll (turns : List FreeTurn) (context : UInt64) :
    (empty.takeAll turns).graph context = alone context turns :=
  graph_serveAll _ turns context

/-- A use that a context owns was made in one of the turns. -/
theorem mem_of_mem_own {context : UInt64} {turns : List FreeTurn} {f : Graph → Graph}
    (h : f ∈ own context turns) : .use context f ∈ turns := by
  induction turns using List.reverseRecOn with
  | nil => simp [own] at h
  | append_singleton turns turn ih =>
    rw [own_concat] at h
    rw [List.mem_append]
    cases turn with
    | use context' f' =>
      simp only [ownAfter] at h
      by_cases hc : context' = context
      · rw [if_pos hc, List.mem_append, List.mem_singleton] at h
        rcases h with hold | rfl
        · exact Or.inl (ih hold)
        · rw [hc]
          exact Or.inr List.mem_cons_self
      · rw [if_neg hc] at h
        exact Or.inl (ih h)
    | discard context' =>
      simp only [ownAfter] at h
      by_cases hc : context' = context
      · simp [hc] at h
      · rw [if_neg hc] at h
        exact Or.inl (ih h)

/-- Uses that keep to what a history can do leave a context with a graph that has a history. -/
theorem reachable_alone {context : UInt64} {turns : List FreeTurn}
    (h : ∀ f, .use context f ∈ turns → ∀ g : Graph, g.Reachable → (f g).Reachable) :
    (alone context turns).Reachable := by
  have hown : ∀ f ∈ own context turns, ∀ g : Graph, g.Reachable → (f g).Reachable :=
    fun f hf => h f (mem_of_mem_own hf)
  unfold alone
  generalize own context turns = uses at hown
  induction uses using List.reverseRecOn with
  | nil => exact Graph.reachable_empty
  | append_singleton uses f ih =>
    rw [List.foldl_concat]
    apply hown f (by simp)
    exact ih fun f' hf' => hown f' (List.mem_append_left [f] hf')

/-! ## The contexts that are in use -/

/-- A context is in use after a turn if the turn used it, or if it was in use and was not
discarded. -/
theorem inUse_concat_iff {context : UInt64} {turns : List FreeTurn} {turn : FreeTurn} :
    InUse context (turns ++ [turn]) ↔
      (∃ f, turn = .use context f) ∨ (turn ≠ .discard context ∧ InUse context turns) := by
  constructor
  · intro h
    obtain ⟨before, f, after, hturns, hafter⟩ := h
    rcases List.eq_nil_or_concat after with rfl | ⟨rest, last, rfl⟩
    · exact Or.inl ⟨f, List.singleton_inj.mp (List.append_inj' hturns rfl).2⟩
    · rw [List.concat_eq_append] at hturns hafter
      rw [← List.cons_append, ← List.append_assoc] at hturns
      obtain ⟨hinit, hlast⟩ := List.append_inj' hturns rfl
      rw [List.singleton_inj] at hlast
      rw [List.mem_append, List.mem_singleton, not_or, ← hlast] at hafter
      exact Or.inr ⟨fun heq => hafter.2 heq.symm, before, f, rest, hinit, hafter.1⟩
  · intro h
    rcases h with ⟨f, rfl⟩ | ⟨hturn, before, f, after, rfl, hafter⟩
    · exact ⟨turns, f, [], rfl, List.not_mem_nil⟩
    · refine ⟨before, f, after ++ [turn], by simp, ?_⟩
      rw [List.mem_append, List.mem_singleton, not_or]
      exact ⟨hafter, fun heq => hturn heq.symm⟩

/-- After a turn a context has a graph if the turn used it, or if it had one and was not
discarded. -/
theorem mem_keys_serve {s : Sessions} {context : UInt64} {turn : FreeTurn} :
    context ∈ (s.serve (fun g f => f g) turn).graphs.keys ↔
      (∃ f, turn = .use context f) ∨ (turn ≠ .discard context ∧ context ∈ s.graphs.keys) := by
  cases turn with
  | use context' f =>
    simp only [serve, withSession, update, Table.mem_keys_insert]
    simp [eq_comm]
  | discard context' =>
    simp only [serve, Sessions.discard, Table.mem_keys_erase]
    simp [eq_comm]

/-- The contexts that have a graph are those that are in use. -/
theorem mem_keys_takeAll {turns : List FreeTurn} {context : UInt64} :
    context ∈ (empty.takeAll turns).graphs.keys ↔ InUse context turns := by
  induction turns using List.reverseRecOn with
  | nil =>
    have hnot : ¬ InUse context [] := by
      intro h
      obtain ⟨before, f, after, hturns, -⟩ := h
      simp at hturns
    exact ⟨fun h => absurd h List.not_mem_nil, fun h => absurd h hnot⟩
  | append_singleton turns turn ih =>
    rw [takeAll, serveAll_concat, mem_keys_serve, inUse_concat_iff]
    exact or_congr_right (and_congr_right fun _ => ih)

/-- The contexts that sessions list are those that have a graph. -/
theorem mem_contexts {s : Sessions} {context : UInt64} :
    context ∈ s.contexts ↔ context ∈ s.graphs.keys :=
  (List.mergeSort_perm s.graphs.keys _).mem_iff

/-- Contexts are listed in strictly ascending order. -/
theorem pairwise_contexts (s : Sessions) : s.contexts.Pairwise (· < ·) := by
  have hsorted : s.contexts.Pairwise fun a b => compare a b = .lt :=
    pairwise_lt_mergeSort (f := id) (by simpa using s.graphs.keys_nodup)
  exact hsorted.imp Std.compare_eq_lt.mp

/-! ## What the registry holds and answers -/

/-- What the registry holds and answers after some turns. -/
structure Isolated (s : Sessions) (turns : List FreeTurn) : Prop where
  /-- A context has the graph that it would have if it were alone. -/
  graph : ∀ context, s.graph context = alone context turns
  /-- Using a context gives what using that graph gives. -/
  session : ∀ (α : Type) (context : UInt64) (use : Graph → Graph × α),
    (s.withSession context use).2 = (use (alone context turns)).2
  ascending : s.contexts.Pairwise (· < ·)
  contexts : ∀ context, context ∈ s.contexts ↔ InUse context turns
  discard : ∀ context, (s.discard context).2 = true ↔ context ∈ s.contexts
  /-- The registry dumps the graphs of the contexts that it lists, and fails if one of them does. -/
  dumpAll : s.dumpAll = s.contexts.mapM fun context =>
    Prod.mk context <$> (alone context turns).dumpAll
  /-- None of them fails if every use keeps to what a history can do. -/
  records : (∀ context f, .use context f ∈ turns → ∀ g : Graph, g.Reachable → (f g).Reachable) →
    ∃ records : UInt64 → List Record,
      (∀ context, (alone context turns).dumpAll = .ok (records context)) ∧
      s.dumpAll = .ok (s.contexts.map fun context => (context, records context))

/-- Whatever turns the registry takes, no context has an influence on another one. -/
theorem isolated_takeAll (turns : List FreeTurn) : Isolated (empty.takeAll turns) turns := by
  have hdump : (empty.takeAll turns).dumpAll = (empty.takeAll turns).contexts.mapM fun context =>
      Prod.mk context <$> (alone context turns).dumpAll := by
    simp only [← graph_takeAll]
    rfl
  refine ⟨graph_takeAll turns, ?_, pairwise_contexts _, ?_, ?_, hdump, ?_⟩
  · intro α context use
    rw [← graph_takeAll]
    rfl
  · intro context
    rw [mem_contexts, mem_keys_takeAll]
  · intro context
    rw [mem_contexts, discard_eq_true_iff]
  · intro huses
    have halone : ∀ context, ∃ records, (alone context turns).dumpAll = .ok records :=
      fun context => (reachable_alone (huses context)).exists_dumpAll
    choose records hrecords using halone
    refine ⟨records, hrecords, ?_⟩
    rw [hdump]
    apply Graph.mapM_eq_ok
    intro context _
    rw [hrecords]
    rfl

/-- Two contexts that are used in turns, one of them discarded and used again. -/
def kernelTurns : List FreeTurn :=
  [.use 8 fun g => g.applyAll Graph.kernelActions, .use 3 fun g => g.applyAll Graph.kernelActions,
    .discard 8, .use 3 fun g => g.applyAll [.leave], .use 8 fun g => g.applyAll [.release]]

/-- The discarded context starts again with a new graph; the other one keeps its own. -/
theorem isolated_takeAll_kernelTurns :
    Isolated (empty.takeAll kernelTurns) kernelTurns ∧
      alone 3 kernelTurns = Graph.empty.applyAll (Graph.kernelActions ++ [.leave]) ∧
      alone 8 kernelTurns = Graph.empty.release ∧
      ∃ records : UInt64 → List Record,
        (∀ context, (alone context kernelTurns).dumpAll = .ok (records context)) ∧
        (empty.takeAll kernelTurns).dumpAll = .ok [(3, records 3), (8, records 8)] := by
  have hisolated := isolated_takeAll kernelTurns
  have huses : ∀ context f, Turn.use context f ∈ kernelTurns →
      ∀ g : Graph, g.Reachable → (f g).Reachable := by
    intro context f hf g hg
    simp only [kernelTurns, List.mem_cons, Turn.use.injEq, List.not_mem_nil, or_false,
      reduceCtorEq, false_or] at hf
    rcases hf with ⟨-, rfl⟩ | ⟨-, rfl⟩ | ⟨-, rfl⟩ | ⟨-, rfl⟩ <;> exact hg.applyAll _
  obtain ⟨records, hrecords, hdump⟩ := hisolated.records huses
  refine ⟨hisolated, ?_, rfl, records, hrecords, ?_⟩
  · rw [Graph.applyAll_append]
    rfl
  · have hkeys : (empty.takeAll kernelTurns).graphs.keys = [3, 8] := rfl
    have hcontexts : (empty.takeAll kernelTurns).contexts = [3, 8] := by
      rw [Sessions.contexts, hkeys]
      exact List.mergeSort_of_pairwise (by decide)
    rw [hdump, hcontexts]
    rfl

end Sessions

end CallGraph
