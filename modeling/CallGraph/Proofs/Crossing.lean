import CallGraph.Proofs.Contexts
import CallGraph.Proofs.Handles

/-!
# Handles of other sessions

Contexts share nothing, but a handle does not say which context gave it out.  A graph refuses one
of another session only if the two sessions have seen different numbers of releases or the index of
the handle is out of range; otherwise it answers with a node or an edge of its own.

Main results:

- Theorem `crossing_of_issued` says exactly when a handle is refused by another session and when it
  is taken for one of its own.
-/

namespace CallGraph

namespace Graph

/-! ## Any handle -/

/-- The size of the arena into which a handle points. -/
def arenaSize (g : Graph) : Handle → Nat
  | .node _ => g.nodes.size
  | .edge _ => g.edges.size

/-- A handle is alive if its generation is right and its index in range. -/
theorem alive_iff {g : Graph} {h : Handle} :
    g.Alive h ↔ h.generation = g.generation ∧ h.index < g.arenaSize h := by
  have hrange : ∀ {α : Type} (xs : Array α) (i : Nat), (∃ x, xs[i]? = some x) ↔ i < xs.size := by
    intro α xs i
    rw [← Option.isSome_iff_exists, isSome_getElem?]
  cases h with
  | node id =>
    simp only [alive_node_iff, node_eq_ok_iff, exists_and_left, hrange]
    rfl
  | edge id =>
    simp only [alive_edge_iff, edge_eq_ok_iff, exists_and_left, hrange]
    rfl

/-- A handle of the right generation whose index is out of range is refused as unknown. -/
theorem refuses_of_outside {g : Graph} {h : Handle} (hgen : h.generation = g.generation)
    (hindex : g.arenaSize h ≤ h.index) : g.Refuses h (.unknownHandle h.index) := by
  cases h with
  | node id =>
    have hnone : g.nodes[id.index]? = none := Array.getElem?_eq_none hindex
    apply refusesNode_of_node
    simp_all [Graph.node, Handle.generation, Handle.index]
  | edge id =>
    have hnone : g.edges[id.index]? = none := Array.getElem?_eq_none hindex
    simp_all [Refuses, Graph.edge, Handle.generation, Handle.index]

end Graph

namespace Sessions

/-! ## Handles on their way -/

/-- The fate of a handle in the session of any context, whichever session gave it out: it is refused
as released if the numbers of releases differ, else accepted if its index is in range, and else
refused as unknown.  Discarding a context starts its number of releases again from zero. -/
theorem crossing_of_issued {visits : List Visit} {context : UInt64} {h : Handle}
    (hissued : Graph.Issued (history context visits) h) (later : List Visit) (other : UInt64) :
    let g := (empty.applyAll (visits ++ later)).graph other
    let issuer := Action.releases (history context visits)
    let asked := Action.releases (history other (visits ++ later))
    (issuer ≠ asked → g.Refuses h h.released) ∧
      (issuer = asked → h.index < g.arenaSize h → g.Accepts h) ∧
      (issuer = asked → g.arenaSize h ≤ h.index → g.Refuses h (.unknownHandle h.index)) := by
  intro g issuer asked
  have hg : g = Graph.empty.applyAll (history other (visits ++ later)) := graph_applyAll _ _
  have hissuer : h.generation = issuer := by
    rw [(Graph.alive_of_issued hissued).generation_eq, Graph.generation_applyAll]
    exact Nat.zero_add _
  have hasked : g.generation = asked := by
    rw [hg, Graph.generation_applyAll]
    exact Nat.zero_add _
  refine ⟨?_, ?_, ?_⟩
  · intro hne
    apply Graph.refuses_of_stale
    rw [hissuer, hasked]
    exact hne
  · intro heq hindex
    have halive : g.Alive h := Graph.alive_iff.mpr ⟨by rw [hissuer, hasked, heq], hindex⟩
    rw [hg] at halive ⊢
    exact (Graph.records_applyAll _).accepts_of_alive (Ledger.consistent_empty.applyAll _) halive
  · intro heq hindex
    apply Graph.refuses_of_outside _ hindex
    rw [hissuer, hasked, heq]

/-- A host with one class. -/
def fooHost : Host := (TypeTable.ofEntries [(⟨1⟩, .cls "Foo" none)] []).host

/-- A call of a method of that class. -/
def callOf (method : MethodId) : Action := .enter fooHost ⟨some ⟨1⟩, some method, none, 0, false⟩

/-- A handle of a context that was released is refused by a context that was not, and a handle of
the second context is accepted by a third one. -/
theorem crossing_of_issued_callOf :
    Graph.Issued (history 1 [.use 1 [.release, callOf ⟨2⟩]]) (.node ⟨1, 0⟩) ∧
      ((empty.applyAll [.use 1 [.release, callOf ⟨2⟩], .use 2 [callOf ⟨3⟩]]).graph 2).Refuses
        (.node ⟨1, 0⟩) (.nodeReleased 0) ∧
      Graph.Issued (history 2 [.use 2 [callOf ⟨2⟩]]) (.edge ⟨0, 0⟩) ∧
      ((empty.applyAll [.use 2 [callOf ⟨2⟩], .use 3 [callOf ⟨3⟩]]).graph 3).Accepts
        (.edge ⟨0, 0⟩) ∧
      ((empty.applyAll [.use 2 [callOf ⟨2⟩], .discard 2, .use 2 []]).graph 2).Refuses
        (.edge ⟨0, 0⟩) (.unknownHandle 0) := by
  have hlookup : (Graph.empty.applyAll (history 1 [.use 1 [.release, callOf ⟨2⟩]])).lookup
      ⟨some ⟨1⟩, some ⟨2⟩⟩ = some ⟨1, 0⟩ := by decide
  have hfound : (Graph.empty.applyAll (history 2 [.use 2 [callOf ⟨2⟩]])).findEdge none ⟨0, 0⟩ =
      .ok (some ⟨0, 0⟩) := by decide
  have hnode : Graph.Issued (history 1 [.use 1 [.release, callOf ⟨2⟩]]) (.node ⟨1, 0⟩) :=
    .asked (.lookup hlookup)
  have hedge : Graph.Issued (history 2 [.use 2 [callOf ⟨2⟩]]) (.edge ⟨0, 0⟩) :=
    .asked (.findEdge hfound)
  refine ⟨hnode, ?_, hedge, ?_, ?_⟩
  · exact (crossing_of_issued hnode [.use 2 [callOf ⟨3⟩]] 2).1 (by decide)
  · exact (crossing_of_issued hedge [.use 3 [callOf ⟨3⟩]] 3).2.1 (by decide) (by decide)
  · exact (crossing_of_issued hedge [.discard 2, .use 2 []] 2).2.2 (by decide) (by decide)

/-- A handle is taken for a node of another context, and of a later session of its own context. -/
theorem node_of_foreign_handle :
    Graph.Issued (history 1 [.use 1 [callOf ⟨2⟩]]) (.node ⟨0, 0⟩) ∧
      Node.key <$> ((empty.applyAll [.use 1 [callOf ⟨2⟩], .use 2 [callOf ⟨3⟩]]).graph 2).node
        ⟨0, 0⟩ = .ok ⟨some ⟨1⟩, some ⟨3⟩⟩ ∧
      Node.key <$> ((empty.applyAll
        [.use 1 [callOf ⟨2⟩], .discard 1, .use 1 [callOf ⟨3⟩]]).graph 1).node ⟨0, 0⟩ =
          .ok ⟨some ⟨1⟩, some ⟨3⟩⟩ := by
  have hlookup : (Graph.empty.applyAll (history 1 [.use 1 [callOf ⟨2⟩]])).lookup
      ⟨some ⟨1⟩, some ⟨2⟩⟩ = some ⟨0, 0⟩ := by decide
  exact ⟨.asked (.lookup hlookup), by decide, by decide⟩

end Sessions

end CallGraph
