import CallGraph.Proofs.Proxies
import CallGraph.Proofs.Resolving

/-!
# The canonical owner behind a key

A key is made with one step from an inclusion proxy to its module, and the node of a method resolves
the owner of its key, not the owner under which the method was observed.  The step that the key has
taken is the first one of the search, so both searches end at the same owner; all that the key can
lose is that a proxy was left on the way.

Main results:

- Theorem `exists_route_target` says that the owner of a key goes on along the route of a proxy.
- Theorem `keepsOwner_make` says that keys keep the canonical owner, and when they lose the mark of
  a proxy.
-/

namespace CallGraph

namespace Host

/-- The owner is an inclusion proxy, and no later step of its route leaves another one. -/
def LoneProxy (host : Host) (owner : Option TypeId) : Prop :=
  ∃ ty first later last, owner = some ty ∧ host.isProxy ty = true ∧
    host.Route owner (first :: later) last ∧ host.Settled last ∧ .includee ∉ later.map Prod.snd

/-- A proxy is all that its route has of proxies exactly if no later step is one. -/
theorem loneProxy_iff {host : Host} {ty : TypeId} {first : TypeId × Kind}
    {later : List (TypeId × Kind)} {last : Option TypeId} (hproxy : host.isProxy ty = true)
    (h : host.Route (some ty) (first :: later) last) (hsettled : host.Settled last) :
    host.LoneProxy (some ty) ↔ .includee ∉ later.map Prod.snd := by
  constructor
  · rintro ⟨_, _, _, _, _, _, hroute, hlast, hnone⟩
    obtain ⟨heq, -⟩ := hroute.unique hlast h hsettled
    obtain ⟨-, rfl⟩ := List.cons.inj heq
    exact hnone
  · intro hnone
    exact ⟨ty, first, later, last, rfl, hproxy, h, hsettled, hnone⟩

end Host

namespace TypeTable

open Host

variable {t : TypeTable} {owner : Option TypeId}

/-- No type of a table is both a proxy and a singleton. -/
theorem isSingleton_of_isProxy {ty : TypeId} (h : t.host.isProxy ty = true) :
    t.host.isSingleton ty = false := by
  simp only [host] at h ⊢
  split at h <;> simp_all

/-- A route from a proxy that settles starts with the step to its module. -/
theorem exists_route_target {ty : TypeId} (hproxy : t.host.isProxy ty = true)
    {steps : List (TypeId × Kind)} {last : Option TypeId}
    (h : t.host.Route (some ty) steps last) (hsettled : t.host.Settled last) :
    ∃ later, steps = (ty, .includee) :: later ∧
      t.host.Route (some (t.host.target ty)) later last := by
  cases h with
  | stay _ =>
    rw [settled_some_iff, hproxy] at hsettled
    simp at hsettled
  | step hgoes rest =>
    obtain ⟨rfl, rfl⟩ := hgoes.unique (.proxy (isSingleton_of_isProxy hproxy) hproxy)
    exact ⟨_, rfl, rest⟩

/-- What a key keeps of the owner from which it was made. -/
structure KeepsOwner (t : TypeTable) (owner : Option TypeId) (key : Key) : Prop where
  /-- Resolving the owner of the key ends too. -/
  ends : t.host.Ends key.owner
  /-- Both have one canonical owner. -/
  canonical : (t.host.resolve key.owner).owner = (t.host.resolve owner).owner
  /-- The relation of the key lacks the mark of a proxy, and nothing else, where the owner is the
  only proxy on its route. -/
  lost : t.host.LoneProxy owner → (t.host.resolve key.owner).relation.includee = false ∧
    (t.host.resolve owner).relation =
      { (t.host.resolve key.owner).relation with includee := true }
  /-- Otherwise the relations are equal. -/
  kept : ¬ t.host.LoneProxy owner →
    (t.host.resolve key.owner).relation = (t.host.resolve owner).relation

/-- Wherever a table resolves an owner, the keys made from it lead to the same canonical owner.
They lose that a proxy was left exactly where the owner is a proxy and no later one is left. -/
theorem keepsOwner_make (h : t.host.Ends owner) (method : Option MethodId) :
    t.KeepsOwner owner (Key.make t.host owner method) := by
  -- A key changes only an owner that is a proxy, and then skips the first step of its route.
  by_cases hproxy : ∃ ty, owner = some ty ∧ t.host.isProxy ty = true
  · obtain ⟨ty, rfl, hproxy⟩ := hproxy
    obtain ⟨steps, last, hroute, hsettled⟩ := h
    obtain ⟨later, rfl, hlater⟩ := exists_route_target hproxy hroute hsettled
    have hkey : (Key.make t.host (some ty) method).owner = some (t.host.target ty) := by
      rw [Key.make_owner, Option.map_some, Key.canonicalOwner_of_proxy hproxy]
    have htarget := resolve_eq_of_route hlater hsettled
    have howner := resolve_eq_of_route hroute hsettled
    have hlone := loneProxy_iff hproxy hroute hsettled
    refine ⟨?_, ?_, ?_, ?_⟩ <;> rw [hkey]
    · exact ⟨later, last, hlater, hsettled⟩
    · rw [htarget, howner]
    · intro h
      rw [htarget, howner]
      simp [Relation.ofKinds, hlone.mp h]
    · intro h
      have hmem : .includee ∈ later.map Prod.snd := by
        rw [hlone, not_not] at h
        exact h
      rw [htarget, howner]
      simp [Relation.ofKinds, hmem]
  · have hkey : (Key.make t.host owner method).owner = owner := by
      cases owner with
      | none => rfl
      | some ty =>
        have hnot : t.host.isProxy ty = false := by simpa using hproxy
        rw [Key.make_owner, Option.map_some, Key.canonicalOwner_of_not_proxy hnot]
    have hlone : ¬ t.host.LoneProxy owner := by
      rintro ⟨ty, _, _, _, howner, hty, -⟩
      exact hproxy ⟨ty, howner, hty⟩
    exact ⟨by rwa [hkey], by rw [hkey], fun h => absurd h hlone, fun _ => by rw [hkey]⟩

/-- The key of a method of the proxy in the winding table leads to the same module, and no longer
tells of the proxy. -/
theorem keepsOwner_make_windingTable :
    windingTable.host.Ends (some ⟨2⟩) ∧
      windingTable.KeepsOwner (some ⟨2⟩) (Key.make windingTable.host (some ⟨2⟩) (some ⟨10⟩)) ∧
      windingTable.host.resolve (some ⟨2⟩) = ⟨some ⟨9⟩, ⟨true, true, false⟩⟩ ∧
      windingTable.host.resolve (Key.make windingTable.host (some ⟨2⟩) (some ⟨10⟩)).owner =
        ⟨some ⟨9⟩, ⟨false, true, false⟩⟩ := by
  have hends : windingTable.host.Ends (some ⟨2⟩) :=
    ⟨_, some ⟨9⟩, .step (.proxy (by decide) (by decide))
      (.step (.mdl (by decide) (by decide)) (.stay _)), settled_some_iff.mpr (by decide)⟩
  exact ⟨hends, keepsOwner_make hends _, by decide, by decide⟩

end TypeTable

end CallGraph
