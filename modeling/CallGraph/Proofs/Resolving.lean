import CallGraph.Resolution
import CallGraph.TypeTable
import Mathlib.Computability.StateTransition
import Mathlib.Data.List.Perm.Subperm
import Mathlib.Tactic.ByContra

/-!
# Where resolving ends

Resolving an owner leaves one artefact of the host after the other: the singleton of a class or a
module for what it wraps, any other singleton for its supertype, an inclusion proxy for its module.
Nothing keeps a host from running in a circle.  If a type table does not, the owners that it does
not know end the search, so no type is left that the table does not hold, and the search ends.

Main results:

- Theorem `mem_pursue_iff` says that the search without a bound has a result exactly where a
  route from the owner settles, and which one.
- Theorem `ends_iff_neverRevisits` says that a table resolves the owners from which no type is come
  to twice.
- Theorem `resolves_of_neverRevisits` says in how many steps, where the search ends, and which kinds
  of steps the relation tells of.
-/

namespace CallGraph

/-! ## Steps and routes -/

/-- The kinds of steps from an artefact of the host. -/
inductive Kind where
  /-- From an inclusion proxy. -/
  | includee
  /-- From the singleton of a class or a module. -/
  | moduleSingleton
  /-- From the singleton of anything else. -/
  | objectSingleton
  deriving DecidableEq, Repr

/-- The relation that tells of exactly the given kinds. -/
def Relation.ofKinds (kinds : List Kind) : Relation where
  includee := decide (.includee ∈ kinds)
  moduleSingleton := decide (.moduleSingleton ∈ kinds)
  objectSingleton := decide (.objectSingleton ∈ kinds)

@[simp] theorem Relation.ofKinds_nil : ofKinds [] = .empty := rfl

/-- The relation of several kinds is that of the first one with that of the others. -/
theorem Relation.ofKinds_cons (kind : Kind) (kinds : List Kind) :
    ofKinds (kind :: kinds) = union (ofKinds [kind]) (ofKinds kinds) := by
  cases kind <;> simp [ofKinds, union]

namespace Host

/-- One step from an artefact to what it stands for. -/
inductive Goes (host : Host) : TypeId → Kind → Option TypeId → Prop
  | cls {ty id : TypeId} (hsingleton : host.isSingleton ty = true)
      (hwrapped : host.wrapped ty = .cls id) : Goes host ty .moduleSingleton (some id)
  | mdl {ty id : TypeId} (hsingleton : host.isSingleton ty = true)
      (hwrapped : host.wrapped ty = .mdl id) : Goes host ty .moduleSingleton (some id)
  | object {ty : TypeId} (hsingleton : host.isSingleton ty = true)
      (hwrapped : host.wrapped ty = .object) : Goes host ty .objectSingleton (host.supertype ty)
  | other {ty : TypeId} (hsingleton : host.isSingleton ty = true)
      (hwrapped : host.wrapped ty = .other) : Goes host ty .objectSingleton (host.supertype ty)
  | proxy {ty : TypeId} (hsingleton : host.isSingleton ty = false)
      (hproxy : host.isProxy ty = true) : Goes host ty .includee (some (host.target ty))

/-- The steps from one owner to another, each with the type that it leaves. -/
inductive Route (host : Host) : Option TypeId → List (TypeId × Kind) → Option TypeId → Prop
  | stay (owner : Option TypeId) : Route host owner [] owner
  | step {ty : TypeId} {kind : Kind} {next last : Option TypeId} {steps : List (TypeId × Kind)}
      (hgoes : host.Goes ty kind next) (rest : Route host next steps last) :
      Route host (some ty) ((ty, kind) :: steps) last

/-- An owner from which no step leads on: it is absent, or neither a singleton nor a proxy. -/
def Settled (host : Host) (owner : Option TypeId) : Prop :=
  ∀ ty, owner = some ty → host.isSingleton ty = false ∧ host.isProxy ty = false

/-- Resolving an owner ends. -/
def Ends (host : Host) (owner : Option TypeId) : Prop :=
  ∃ steps last, host.Route owner steps last ∧ host.Settled last

/-- No route from an owner comes to a type twice. -/
def NeverRevisits (host : Host) (owner : Option TypeId) : Prop :=
  ∀ steps last, host.Route owner steps last → (steps.map Prod.fst ++ last.toList).Nodup

/-- One turn of the search for the canonical owner, from the owner at which it is and the relation
so far. -/
def turn (host : Host) (r : Resolution) : Option Resolution :=
  r.owner.bind fun ty => (host.step ty).map fun s => ⟨s.1, r.relation.union s.2⟩

/-- The search for the canonical owner without a bound on its turns; it has no result if it does not
end. -/
def pursue (host : Host) (owner : Option TypeId) : Part Resolution :=
  StateTransition.eval host.turn ⟨owner, .empty⟩

variable {host : Host}

/-- An absent owner is settled. -/
theorem settled_none : host.Settled none := by
  simp [Settled]

/-- A type is settled if it is neither a singleton nor a proxy. -/
theorem settled_some_iff {ty : TypeId} :
    host.Settled (some ty) ↔ host.isSingleton ty = false ∧ host.isProxy ty = false := by
  simp [Settled]

/-- A type from which a step leads on is not settled. -/
theorem Goes.not_settled {ty : TypeId} {kind : Kind} {next : Option TypeId}
    (h : host.Goes ty kind next) : ¬ host.Settled (some ty) := by
  rw [settled_some_iff]
  cases h <;> simp_all

/-- The steps of the search are those from artefacts, with the relation of their kind. -/
theorem step_eq_some_iff {ty : TypeId} {next : Option TypeId} {relation : Relation} :
    host.step ty = some (next, relation) ↔
      ∃ kind, host.Goes ty kind next ∧ relation = .ofKinds [kind] := by
  constructor
  · intro h
    unfold step at h
    split at h
    · rename_i hsingleton
      split at h <;> rename_i hwrapped <;> simp only [Option.some.injEq, Prod.mk.injEq] at h <;>
        obtain ⟨rfl, rfl⟩ := h
      · exact ⟨.moduleSingleton, .cls hsingleton hwrapped, rfl⟩
      · exact ⟨.moduleSingleton, .mdl hsingleton hwrapped, rfl⟩
      · exact ⟨.objectSingleton, .object hsingleton hwrapped, rfl⟩
      · exact ⟨.objectSingleton, .other hsingleton hwrapped, rfl⟩
    · rename_i hsingleton
      split at h
      · rename_i hproxy
        simp only [Option.some.injEq, Prod.mk.injEq] at h
        obtain ⟨rfl, rfl⟩ := h
        exact ⟨.includee, .proxy (Bool.eq_false_iff.mpr hsingleton) hproxy, rfl⟩
      · simp at h
  · rintro ⟨kind, hgoes, rfl⟩
    cases hgoes <;> simp_all [step, Relation.ofKinds]

/-- The search stops where no step leads on. -/
theorem step_eq_none_iff {ty : TypeId} : host.step ty = none ↔ host.Settled (some ty) := by
  rw [settled_some_iff]
  unfold step
  split
  · split <;> simp_all
  · split <;> simp_all

/-- What an artefact stands for is computed as its step says. -/
theorem Goes.step_eq {ty : TypeId} {kind : Kind} {next : Option TypeId}
    (h : host.Goes ty kind next) : host.step ty = some (next, .ofKinds [kind]) :=
  step_eq_some_iff.mpr ⟨kind, h, rfl⟩

/-- From an owner that is not settled a step leads on. -/
theorem exists_goes_of_not_settled {owner : Option TypeId} (h : ¬ host.Settled owner) :
    ∃ ty kind next, owner = some ty ∧ host.Goes ty kind next := by
  cases owner with
  | none => exact absurd settled_none h
  | some ty =>
    rw [← step_eq_none_iff, ← ne_eq, Option.ne_none_iff_exists'] at h
    obtain ⟨⟨next, relation⟩, hstep⟩ := h
    obtain ⟨kind, hgoes, -⟩ := step_eq_some_iff.mp hstep
    exact ⟨ty, kind, next, rfl, hgoes⟩

/-- From a type there is one step at most. -/
theorem Goes.unique {ty : TypeId} {kind kind' : Kind} {next next' : Option TypeId}
    (h : host.Goes ty kind next) (h' : host.Goes ty kind' next') : kind = kind' ∧ next = next' := by
  cases h <;> cases h' <;> simp_all

namespace Route

variable {owner last : Option TypeId} {steps : List (TypeId × Kind)}

/-- One more step at the end of a route. -/
theorem concat {ty : TypeId} {kind : Kind} {next : Option TypeId}
    (h : host.Route owner steps (some ty)) (hgoes : host.Goes ty kind next) :
    host.Route owner (steps ++ [(ty, kind)]) next := by
  generalize hmid : some ty = mid at h
  induction h with
  | stay owner =>
    rw [← hmid]
    exact .step hgoes (.stay next)
  | step hfirst _ ih => exact .step hfirst (ih hmid)

/-- A route that settles goes on from the end of every other route of its owner. -/
theorem exists_rest (h : host.Route owner steps last) (hsettled : host.Settled last)
    {steps' : List (TypeId × Kind)} {mid : Option TypeId} (h' : host.Route owner steps' mid) :
    ∃ rest, steps = steps' ++ rest ∧ host.Route mid rest last := by
  induction h' generalizing steps with
  | stay owner => exact ⟨steps, rfl, h⟩
  | step hgoes' _ ih =>
    cases h with
    | stay _ => exact absurd hsettled hgoes'.not_settled
    | step hgoes hrest =>
      obtain ⟨rfl, rfl⟩ := hgoes.unique hgoes'
      obtain ⟨rest, rfl, hroute⟩ := ih hrest
      exact ⟨rest, rfl, hroute⟩

/-- A route that settles is the only one of its owner that does. -/
theorem unique (h : host.Route owner steps last) (hsettled : host.Settled last)
    {steps' : List (TypeId × Kind)} {last' : Option TypeId} (h' : host.Route owner steps' last')
    (hsettled' : host.Settled last') : steps = steps' ∧ last = last' := by
  obtain ⟨rest, rfl, hrest⟩ := h.exists_rest hsettled h'
  cases hrest with
  | stay _ => exact ⟨List.append_nil _, rfl⟩
  | step hgoes _ => exact absurd hsettled' hgoes.not_settled

/-- From each type that a route leaves, no more steps lead to its end than the route has. -/
theorem exists_of_mem (h : host.Route owner steps last) {ty : TypeId}
    (hmem : ty ∈ steps.map Prod.fst) :
    ∃ steps', host.Route (some ty) steps' last ∧ steps'.length ≤ steps.length := by
  induction h with
  | stay owner => simp at hmem
  | step hgoes rest ih =>
    rw [List.map_cons, List.mem_cons] at hmem
    rcases hmem with rfl | hrest
    · exact ⟨_, .step hgoes rest, Nat.le_refl _⟩
    · obtain ⟨steps', hroute, hle⟩ := ih hrest
      exact ⟨steps', hroute, Nat.le_succ_of_le hle⟩

/-- A route that settles leaves no type twice. -/
theorem nodup (h : host.Route owner steps last) (hsettled : host.Settled last) :
    (steps.map Prod.fst).Nodup := by
  induction h with
  | stay owner => exact List.nodup_nil
  | step hgoes rest ih =>
    rw [List.map_cons, List.nodup_cons]
    refine ⟨?_, ih hsettled⟩
    -- A second way from the first type would be shorter than the only one.
    intro hmem
    obtain ⟨steps', hroute, hle⟩ := rest.exists_of_mem hmem
    obtain ⟨rfl, -⟩ := hroute.unique hsettled (.step hgoes rest) hsettled
    exact Nat.not_succ_le_self _ hle

/-- Every type that a route leaves is an artefact. -/
theorem not_settled_of_mem (h : host.Route owner steps last) {ty : TypeId}
    (hmem : ty ∈ steps.map Prod.fst) : ¬ host.Settled (some ty) := by
  induction h with
  | stay owner => simp at hmem
  | step hgoes rest ih =>
    rw [List.map_cons, List.mem_cons] at hmem
    rcases hmem with rfl | hrest
    · exact hgoes.not_settled
    · exact ih hrest

/-- A walk that may be as long as the route comes to its end. -/
theorem walk_eq (h : host.Route owner steps last) (hsettled : host.Settled last) {n : Nat}
    (hn : steps.length ≤ n) : host.walk n owner = ⟨last, .ofKinds (steps.map Prod.snd)⟩ := by
  induction h generalizing n with
  | stay owner =>
    cases owner with
    | none => exact walk_none host n
    | some ty => exact walk_of_step_eq_none (step_eq_none_iff.mpr hsettled) n
  | step hgoes rest ih =>
    obtain ⟨m, rfl⟩ := Nat.exists_eq_add_of_le' (Nat.one_le_of_lt hn)
    rw [walk_succ_of_step hgoes.step_eq, ih hsettled (Nat.le_of_succ_le_succ hn), List.map_cons,
      ← Relation.ofKinds_cons]

end Route

/-! ## The search without a bound -/

/-- One turn of the loop takes a step and adds its kind to the relation. -/
theorem turn_eq_some_iff {r r' : Resolution} : host.turn r = some r' ↔
    ∃ ty kind, r.owner = some ty ∧ host.Goes ty kind r'.owner ∧
      r'.relation = r.relation.union (.ofKinds [kind]) := by
  simp only [turn, Option.bind_eq_some_iff, Option.map_eq_some_iff]
  constructor
  · rintro ⟨ty, howner, ⟨next, told⟩, hstep, rfl⟩
    obtain ⟨kind, hgoes, rfl⟩ := step_eq_some_iff.mp hstep
    exact ⟨ty, kind, howner, hgoes, rfl⟩
  · rintro ⟨ty, kind, howner, hgoes, hrelation⟩
    exact ⟨ty, howner, _, hgoes.step_eq, by rw [← hrelation]⟩

/-- The search stops where the owner is settled. -/
theorem turn_eq_none_iff {r : Resolution} : host.turn r = none ↔ host.Settled r.owner := by
  cases howner : r.owner with
  | none => simp [turn, howner, settled_none]
  | some ty => simp [turn, howner, step_eq_none_iff]

/-- The turns of the search are the steps of a route, whose kinds are added to those told before. -/
theorem reaches_turn_iff {r r' : Resolution} : StateTransition.Reaches host.turn r r' ↔
    ∃ steps, host.Route r.owner steps r'.owner ∧
      r'.relation = r.relation.union (.ofKinds (steps.map Prod.snd)) := by
  constructor
  · intro h
    induction h using Relation.ReflTransGen.head_induction_on with
    | refl => exact ⟨[], .stay r'.owner, by simp⟩
    | head hturn _ ih =>
      obtain ⟨ty, kind, howner, hgoes, hrelation⟩ := turn_eq_some_iff.mp hturn
      obtain ⟨steps, hroute, hrest⟩ := ih
      refine ⟨(ty, kind) :: steps, howner ▸ .step hgoes hroute, ?_⟩
      rw [hrest, hrelation, Relation.union_assoc, List.map_cons, ← Relation.ofKinds_cons]
  · rintro ⟨steps, hroute, hrelation⟩
    obtain ⟨owner, relation⟩ := r
    obtain ⟨last, relation'⟩ := r'
    simp only at hroute hrelation
    subst hrelation
    induction hroute generalizing relation with
    | stay owner =>
      rw [List.map_nil, Relation.ofKinds_nil, Relation.union_empty]
      exact .refl
    | step hgoes _ ih =>
      rw [List.map_cons, Relation.ofKinds_cons, ← Relation.union_assoc]
      exact .head (turn_eq_some_iff.mpr ⟨_, _, rfl, hgoes, rfl⟩) (ih _)

/-- The search without a bound has a result exactly where a route from the owner settles: its end,
and the kinds of its steps. -/
theorem mem_pursue_iff {owner : Option TypeId} {r : Resolution} : r ∈ host.pursue owner ↔
    ∃ steps, host.Route owner steps r.owner ∧ host.Settled r.owner ∧
      r.relation = .ofKinds (steps.map Prod.snd) := by
  rw [pursue, StateTransition.mem_eval, reaches_turn_iff, turn_eq_none_iff]
  simp only [Relation.empty_union]
  constructor
  · rintro ⟨⟨steps, hroute, hrelation⟩, hsettled⟩
    exact ⟨steps, hroute, hsettled, hrelation⟩
  · rintro ⟨steps, hroute, hsettled, hrelation⟩
    exact ⟨⟨steps, hroute, hrelation⟩, hsettled⟩

/-! ## Whether routes end -/

/-- An owner from which resolving does not end has routes of any length. -/
theorem exists_route_of_not_ends {owner : Option TypeId} (h : ¬ host.Ends owner) (n : Nat) :
    ∃ steps last, host.Route owner steps last ∧ steps.length = n := by
  induction n with
  | zero => exact ⟨[], owner, .stay owner, rfl⟩
  | succ n ih =>
    obtain ⟨steps, last, hroute, hlength⟩ := ih
    have hnot : ¬ host.Settled last := fun hsettled => h ⟨steps, last, hroute, hsettled⟩
    obtain ⟨ty, kind, next, rfl, hgoes⟩ := exists_goes_of_not_settled hnot
    exact ⟨steps ++ [(ty, kind)], next, hroute.concat hgoes, by simp [hlength]⟩

/-- If resolving an owner ends, it comes to no type twice. -/
theorem Ends.neverRevisits {owner : Option TypeId} (h : host.Ends owner) :
    host.NeverRevisits owner := by
  intro steps' mid hroute'
  obtain ⟨steps, last, hroute, hsettled⟩ := h
  obtain ⟨rest, rfl, hrest⟩ := hroute.exists_rest hsettled hroute'
  have hnodup := hroute.nodup hsettled
  rw [List.map_append] at hnodup
  cases hrest with
  | stay _ =>
    rw [List.map_nil, List.append_nil] at hnodup
    refine List.nodup_append.mpr ⟨hnodup, by cases mid <;> simp, ?_⟩
    rintro a ha b hb rfl
    rw [Option.mem_toList] at hb
    exact hroute'.not_settled_of_mem ha (hb ▸ hsettled)
  | step hgoes _ =>
    rw [List.map_cons, ← List.singleton_append, ← List.append_assoc] at hnodup
    exact (List.nodup_append.mp hnodup).1

end Host

namespace TypeTable

open Host

/-! ## The routes of a type table -/

variable {t : TypeTable} {owner last : Option TypeId} {steps : List (TypeId × Kind)}

/-- The artefacts of a table are registered in it. -/
theorem mem_keys_of_not_settled {ty : TypeId} (h : ¬ t.host.Settled (some ty)) :
    ty ∈ t.types.keys := by
  by_contra hmem
  rw [← Table.lookup_eq_none_iff] at hmem
  exact h (settled_some_iff.mpr (by simp [host, hmem]))

/-- A route that leaves no type twice has as many steps as the table has types at most. -/
theorem length_le_size (h : t.host.Route owner steps last)
    (hnodup : (steps.map Prod.fst).Nodup) : steps.length ≤ t.types.size := by
  have hsubset : steps.map Prod.fst ⊆ t.types.keys :=
    fun _ hmem => mem_keys_of_not_settled (h.not_settled_of_mem hmem)
  have hle := (hnodup.subperm hsubset).length_le
  rwa [List.length_map, Table.length_keys] at hle

/-- A table resolves exactly the owners from which it comes to no type twice. -/
theorem ends_iff_neverRevisits : t.host.Ends owner ↔ t.host.NeverRevisits owner := by
  refine ⟨Ends.neverRevisits, ?_⟩
  intro hnew
  by_contra hends
  obtain ⟨steps, last, hroute, hlength⟩ := exists_route_of_not_ends hends (t.types.size + 1)
  have hle := length_le_size hroute (List.nodup_append.mp (hnew steps last hroute)).1
  omega

/-- The canonical owner is the end of the route that settles; the relation tells of its steps. -/
theorem resolve_eq_of_route (h : t.host.Route owner steps last) (hsettled : t.host.Settled last) :
    t.host.resolve owner = ⟨last, .ofKinds (steps.map Prod.snd)⟩ :=
  h.walk_eq hsettled (length_le_size h (h.nodup hsettled))

/-- How a table resolves an owner: along which steps, and to which end. -/
structure Resolves (t : TypeTable) (owner : Option TypeId) (steps : List (TypeId × Kind))
    (last : Option TypeId) : Prop where
  /-- The steps lead from the owner to the end. -/
  route : t.host.Route owner steps last
  /-- There are at most as many of them as the table has types. -/
  length_le : steps.length ≤ t.types.size
  /-- The end is absent, or neither a singleton nor a proxy. -/
  settled : t.host.Settled last
  /-- The search needs no bound to come to its result. -/
  pursue : t.host.resolve owner ∈ t.host.pursue owner
  /-- The end is the canonical owner. -/
  canonical : (t.host.resolve owner).owner = last
  includee : (t.host.resolve owner).relation.includee = true ↔ .includee ∈ steps.map Prod.snd
  moduleSingleton : (t.host.resolve owner).relation.moduleSingleton = true ↔
    .moduleSingleton ∈ steps.map Prod.snd
  objectSingleton : (t.host.resolve owner).relation.objectSingleton = true ↔
    .objectSingleton ∈ steps.map Prod.snd
  /-- The canonical owner is its own, without a step. -/
  again : t.host.resolve last = ⟨last, .empty⟩

/-- An owner from which a table comes to no type twice is resolved in at most as many steps as there
are types, to an owner that is its own, with a relation that tells of exactly the kinds of the
steps. -/
theorem resolves_of_neverRevisits (h : t.host.NeverRevisits owner) :
    ∃ steps last, t.Resolves owner steps last := by
  obtain ⟨steps, last, hroute, hsettled⟩ := ends_iff_neverRevisits.mpr h
  have hresolve := resolve_eq_of_route hroute hsettled
  refine ⟨steps, last, hroute, length_le_size hroute (hroute.nodup hsettled), hsettled, ?_, ?_, ?_,
    ?_, ?_, ?_⟩
  · rw [hresolve]
    exact mem_pursue_iff.mpr ⟨steps, hroute, hsettled, rfl⟩
  · rw [hresolve]
  · simp [hresolve, Relation.ofKinds]
  · simp [hresolve, Relation.ofKinds]
  · simp [hresolve, Relation.ofKinds]
  · exact resolve_eq_of_route (.stay last) hsettled

/-- The singleton of a module that is not registered, a proxy of this singleton, and the singleton
of an object whose supertype is the proxy. -/
def windingTable : TypeTable :=
  ofEntries [(⟨1⟩, .singleton (.mdl ⟨9⟩) none), (⟨2⟩, .proxy ⟨1⟩ none),
    (⟨3⟩, .singleton .object (some ⟨2⟩))] []

/-- The singleton of the object is resolved by one step of each kind. -/
theorem resolves_of_neverRevisits_windingTable :
    windingTable.host.NeverRevisits (some ⟨3⟩) ∧
      (∃ steps last, windingTable.Resolves (some ⟨3⟩) steps last) ∧
      windingTable.host.resolve (some ⟨3⟩) = ⟨some ⟨9⟩, ⟨true, true, true⟩⟩ := by
  have hroute : windingTable.host.Route (some ⟨3⟩)
      [(⟨3⟩, .objectSingleton), (⟨2⟩, .includee), (⟨1⟩, .moduleSingleton)] (some ⟨9⟩) :=
    .step (.object (by decide) (by decide)) (.step (.proxy (by decide) (by decide))
      (.step (.mdl (by decide) (by decide)) (.stay _)))
  have hnew : windingTable.host.NeverRevisits (some ⟨3⟩) :=
    Ends.neverRevisits ⟨_, _, hroute, settled_some_iff.mpr (by decide)⟩
  exact ⟨hnew, resolves_of_neverRevisits hnew, by decide⟩

end TypeTable

end CallGraph
