import CallGraph.Proofs.Retention
import Mathlib.Data.List.Induction

/-!
# The source that a method is first seen with

The source that a call tells is kept if the call makes the node of its method, and is forgotten if
the method has a node already.  A node is made by a call, but also by a record that is loaded, for
its own method and for every peer of its calls, and by an exclusion.  A method that was met as a
peer before it was called therefore stays without a source, although its first call told one.

Main results:

- Theorem `Ledger.mem_keys_applyAll_iff` says which methods have a node after a history.
- Theorem `source_firstCall` says which source is left of the first call of a method.
- Theorem `source_peer_of_load` is a method whose first call tells a source that is not kept.
-/

namespace CallGraph

namespace Ledger

/-- The last action of a history acts on what the others left. -/
theorem applyAll_concat (l : Ledger) (actions : List Action) (a : Action) :
    l.applyAll (actions ++ [a]) = (l.applyAll actions).apply a := List.foldl_concat _ _ _ _

/-- The methods that have a node are those that some action has called, told of or reserved. -/
theorem mem_keys_applyAll_iff {actions : List Action} (h : .release ∉ actions) {k : Key} :
    k ∈ (applyAll {} actions).keys ↔
      ∃ a ∈ actions, a.Calls k ∨ (a.tells k).isSome ∨ a.Reserves k := by
  induction actions using List.reverseRecOn with
  | nil => simp [applyAll, keys]
  | append_singleton before a ih =>
    have hbefore : .release ∉ before := fun hmem => h (List.mem_append_left _ hmem)
    have ha : a.isRelease = false :=
      Action.isRelease_of_not_mem h (List.mem_append_right _ List.mem_cons_self)
    rw [applyAll_concat, mem_keys_apply_iff ha, ih hbefore]
    simp only [List.mem_append, List.mem_singleton, or_and_right, exists_or, exists_eq_left]

/-- A method has no source before it is called or told of. -/
theorem source_applyAll_eq_none {actions : List Action} {k : Key} (h : .release ∉ actions)
    (hcalls : ∀ a ∈ actions, ¬ a.Calls k) (htells : ∀ a ∈ actions, a.tells k = none) :
    ((applyAll {} actions).profile k).source = none := by
  induction actions using List.reverseRecOn with
  | nil => rfl
  | append_singleton before a ih =>
    have hmem : a ∈ before ++ [a] := List.mem_append_right _ List.mem_cons_self
    rw [applyAll_concat, source_apply (Action.isRelease_of_not_mem h hmem)
      (Or.inr (hcalls a hmem)), htells a hmem, Option.getD_none]
    exact ih (fun hr => h (List.mem_append_left _ hr))
      (fun b hb => hcalls b (List.mem_append_left _ hb))
      (fun b hb => htells b (List.mem_append_left _ hb))

/-- The first call of a method that is never told of leaves its source if the method was not
recorded before, and none if it was. -/
theorem source_applyAll_enter {before after : List Action} {host : Host} {o : Observation}
    (hrelease : .release ∉ before ++ .enter host o :: after)
    (hfirst : ∀ a ∈ before, ¬ a.Calls (o.key host))
    (htells : ∀ a ∈ before ++ .enter host o :: after, a.tells (o.key host) = none) :
    ((applyAll {} (before ++ .enter host o :: after)).profile (o.key host)).source =
      if o.key host ∈ (applyAll {} before).keys then none else o.source := by
  have hrun : applyAll {} (before ++ .enter host o :: after) =
      ((applyAll {} before).enter host o).applyAll after := List.foldl_append
  have hbefore : ((applyAll {} before).profile (o.key host)).source = none :=
    source_applyAll_eq_none (fun hmem => hrelease (List.mem_append_left _ hmem)) hfirst
      fun a ha => htells a (List.mem_append_left _ ha)
  have hcalled : (((applyAll {} before).enter host o).profile (o.key host)).source =
      if o.key host ∈ (applyAll {} before).keys then none else o.source := by
    rw [profile_enter, if_pos rfl]
    split
    · exact hbefore
    · rfl
  have hlast : Action.lastTold (o.key host) after = none := by
    rw [Action.lastTold, List.getLast?_eq_none_iff, List.filterMap_eq_nil_iff]
    exact fun a ha => htells a (List.mem_append_right _ (List.mem_cons_of_mem _ ha))
  have hafter : .release ∉ after :=
    fun hmem => hrelease (List.mem_append_right _ (List.mem_cons_of_mem _ hmem))
  rw [hrun, (keeps_applyAll (mem_keys_enter.mpr (Or.inr rfl)) hafter).2, hlast, Option.getD_none,
    hcalled]

end Ledger

namespace Graph

/-! ## The first call of a method -/

/-- The first call of a method that is never told of leaves its source if it made the node of the
method, and none if an earlier action had reserved one. -/
theorem source_firstCall {before after : List Action} {host : Host} {o : Observation}
    (hrelease : .release ∉ before ++ .enter host o :: after)
    (hfirst : ∀ a ∈ before, ¬ a.Calls (o.key host))
    (htells : ∀ a ∈ before ++ .enter host o :: after, a.tells (o.key host) = none) :
    ∃ id n, (empty.applyAll (before ++ .enter host o :: after)).lookup (o.key host) = some id ∧
      (empty.applyAll (before ++ .enter host o :: after)).node id = .ok n ∧
      ((∃ a ∈ before, a.Reserves (o.key host)) → n.source = none) ∧
      ((∀ a ∈ before, ¬ a.Reserves (o.key host)) → n.source = o.source) := by
  have hrec := records_applyAll (before ++ .enter host o :: after)
  have hl := Ledger.consistent_empty.applyAll (before ++ .enter host o :: after)
  have hmem : o.key host ∈ (Ledger.applyAll {} (before ++ .enter host o :: after)).keys :=
    (Ledger.mem_keys_applyAll_iff hrelease).mpr
      ⟨.enter host o, List.mem_append_right _ List.mem_cons_self, Or.inl rfl⟩
  obtain ⟨id, n, hn, hkey⟩ := hrec.mem_keys_iff_node.mp hmem
  have hlookup := hrec.sound.lookup_eq_some_iff.mpr (has_of_node hn)
  have hsource : n.source = if o.key host ∈ (Ledger.applyAll {} before).keys then none
      else o.source := by
    rw [← Ledger.source_applyAll_enter hrelease hfirst htells, ← hkey, hrec.profile_eq hl hn]
    rfl
  -- Nothing before has called the method or told of it, so only a reservation can have recorded it.
  have hreserved : o.key host ∈ (Ledger.applyAll {} before).keys ↔
      ∃ a ∈ before, a.Reserves (o.key host) := by
    rw [Ledger.mem_keys_applyAll_iff fun hr => hrelease (List.mem_append_left _ hr)]
    refine exists_congr fun a => and_congr_right fun ha => ?_
    simp [hfirst a ha, htells a (List.mem_append_left _ ha)]
  rw [hkey] at hlookup
  refine ⟨id, n, hlookup, hn, ?_, ?_⟩
  · intro h
    rw [hsource, if_pos (hreserved.mpr h)]
  · intro h
    rw [hsource, if_neg fun hmem => ?_]
    obtain ⟨a, ha, hreserves⟩ := hreserved.mp hmem
    exact h a ha hreserves

/-- A load of a record that has a method as a peer. -/
def peerLoads : List Action :=
  [.load kernelHost ⟨⟨some ⟨1⟩, some ⟨10⟩⟩, false, some "main.rb", 1, [],
    [⟨some ⟨some ⟨1⟩, some ⟨10⟩⟩, ⟨some ⟨1⟩, some ⟨11⟩⟩⟩]⟩]

/-- The first call of this method, which tells its place. -/
def peerCall : Observation := ⟨some ⟨1⟩, some ⟨11⟩, some "app.rb", 3, false⟩

/-- The load has reserved a node for the method, so its call leaves no source. -/
theorem source_firstCall_peerCall :
    .release ∉ peerLoads ++ .enter kernelHost peerCall :: [.leave] ∧
      (∀ a ∈ peerLoads, ¬ a.Calls (peerCall.key kernelHost)) ∧
      (∀ a ∈ peerLoads ++ .enter kernelHost peerCall :: [.leave],
        a.tells (peerCall.key kernelHost) = none) ∧
      ∃ id n,
        (empty.applyAll (peerLoads ++ .enter kernelHost peerCall :: [.leave])).lookup
          (peerCall.key kernelHost) = some id ∧
        (empty.applyAll (peerLoads ++ .enter kernelHost peerCall :: [.leave])).node id = .ok n ∧
        n.source = none := by
  have hrelease : .release ∉ peerLoads ++ .enter kernelHost peerCall :: [.leave] := by
    simp [peerLoads]
  have hfirst : ∀ a ∈ peerLoads, ¬ a.Calls (peerCall.key kernelHost) := by
    simp [peerLoads, Action.Calls]
  have htells : ∀ a ∈ peerLoads ++ .enter kernelHost peerCall :: [.leave],
      a.tells (peerCall.key kernelHost) = none := by decide
  have hpeer : ∃ a ∈ peerLoads, a.Reserves (peerCall.key kernelHost) :=
    ⟨_, List.mem_cons_self, by decide, Or.inr ⟨_, List.mem_cons_self, by decide⟩⟩
  obtain ⟨id, n, hid, hn, hreserved, -⟩ := source_firstCall hrelease hfirst htells
  exact ⟨hrelease, hfirst, htells, id, n, hid, hn, hreserved hpeer⟩

/-- The first call of a method that is never told of tells a source that is not kept. -/
theorem source_peer_of_load :
    (∀ a ∈ peerLoads ++ [.enter kernelHost peerCall], a.tells (peerCall.key kernelHost) = none) ∧
      peerCall.source = some ⟨"app.rb", 3⟩ ∧
      (empty.applyAll (peerLoads ++ [.enter kernelHost peerCall])).lookup
        (peerCall.key kernelHost) = some ⟨0, 1⟩ ∧
      ((empty.applyAll (peerLoads ++ [.enter kernelHost peerCall])).node ⟨0, 1⟩).map
        (fun n => (n.source, n.line)) = .ok (none, 0) := by
  decide

end Graph

end CallGraph
