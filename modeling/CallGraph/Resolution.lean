import CallGraph.Host

/-!
# The canonical owner of a method

Singletons and inclusion proxies are artefacts of the host.  Resolving an owner walks from them to
the type on which the method was written and records which kinds of steps were taken: a proxy
stands for its module, the singleton of a class or a module for what it wraps, and the singleton of
anything else for the supertype of the singleton itself.

Main results:

- Theorem `resolve_of_canonical` says that a type that is neither artefact is its own owner.
- Theorem `walk_succ_of_step` gives the walk one step at a time.
- Theorem `ofBits_bits` says that a relation is recovered from its three bits.
-/

namespace CallGraph

/-- The kinds of steps taken while resolving an owner. -/
structure Relation where
  /-- Some step went through an inclusion proxy. -/
  includee : Bool := false
  /-- Some step went through the singleton of a class or a module. -/
  moduleSingleton : Bool := false
  /-- Some step went through the singleton of anything else. -/
  objectSingleton : Bool := false
  deriving DecidableEq, Repr, Inhabited

namespace Relation

/-- No step was taken. -/
def empty : Relation := {}

/-- The steps of either relation. -/
def union (a b : Relation) : Relation :=
  ⟨a.includee || b.includee, a.moduleSingleton || b.moduleSingleton,
    a.objectSingleton || b.objectSingleton⟩

@[simp] theorem empty_union (a : Relation) : union empty a = a := by
  simp [union, empty]

@[simp] theorem union_empty (a : Relation) : union a empty = a := by
  simp [union, empty]

/-- Steps may be put together in any grouping. -/
theorem union_assoc (a b c : Relation) : union (union a b) c = union a (union b c) := by
  simp [union, Bool.or_assoc]

/-- The bits 1, 2 and 4 of the three kinds of steps. -/
def bits (r : Relation) : Nat :=
  r.includee.toNat + 2 * r.moduleSingleton.toNat + 4 * r.objectSingleton.toNat

/-- The relation of a number, from its three lowest bits. -/
def ofBits (n : Nat) : Relation := ⟨n.testBit 0, n.testBit 1, n.testBit 2⟩

/-- A relation is recovered from its bits. -/
@[simp] theorem ofBits_bits (r : Relation) : ofBits r.bits = r := by
  rcases r with ⟨a, b, c⟩
  cases a <;> cases b <;> cases c <;> rfl

/-- The names of the kinds of steps taken, in the order of their bits. -/
def names (r : Relation) : List String :=
  (if r.includee then ["MODULE_INCLUDEE"] else []) ++
    (if r.moduleSingleton then ["MODULE_SINGLETON"] else []) ++
    (if r.objectSingleton then ["OBJECT_SINGLETON"] else [])

end Relation

/-- Where resolving an owner ends, and the kinds of steps on the way. -/
structure Resolution where
  owner : Option TypeId
  relation : Relation
  deriving DecidableEq, Repr, Inhabited

namespace Host

/-- One step from an artefact of the host, with its kind; `none` for any other type. -/
def step (host : Host) (ty : TypeId) : Option (Option TypeId × Relation) :=
  if host.isSingleton ty then
    match host.wrapped ty with
    | .cls id | .mdl id => some (some id, { moduleSingleton := true })
    | .object | .other => some (host.supertype ty, { objectSingleton := true })
  else if host.isProxy ty then
    some (some (host.target ty), { includee := true })
  else
    none

/-- Walk from an owner, taking at most `n` steps. -/
def walk (host : Host) : Nat → Option TypeId → Resolution
  | _, none => ⟨none, .empty⟩
  | 0, some ty => ⟨some ty, .empty⟩
  | n + 1, some ty =>
    match host.step ty with
    | none => ⟨some ty, .empty⟩
    | some (next, kind) =>
      let rest := walk host n next
      ⟨rest.owner, kind.union rest.relation⟩

/-- The canonical owner of a method, and the kinds of steps that lead to it.  A walk that repeats
no type leaves each registered type at most once, so the number of types bounds it.

A chain of artefacts that does not end, such as a singleton of an object that is its own supertype,
has no canonical owner: the search without a bound, `Host.pursue`, never comes back from it.  Here
the walk is cut off after `typeCount` steps, and what it gives is the type on which it then stands;
where the search ends within that many steps the two agree. -/
def resolve (host : Host) (owner : Option TypeId) : Resolution :=
  host.walk host.typeCount owner

@[simp] theorem walk_none (host : Host) (n : Nat) : host.walk n none = ⟨none, .empty⟩ := by
  cases n <;> rfl

/-- A walk stays where no step is to be taken. -/
theorem walk_of_step_eq_none {host : Host} {ty : TypeId} (h : host.step ty = none) (n : Nat) :
    host.walk n (some ty) = ⟨some ty, .empty⟩ := by
  cases n <;> simp [walk, h]

/-- A walk takes a step, and its kind is added to those of the rest of the way. -/
theorem walk_succ_of_step {host : Host} {ty : TypeId} {next : Option TypeId} {kind : Relation}
    (h : host.step ty = some (next, kind)) (n : Nat) :
    host.walk (n + 1) (some ty) =
      ⟨(host.walk n next).owner, kind.union (host.walk n next).relation⟩ := by
  simp [walk, h]

/-- A method without an owner has no canonical owner either. -/
@[simp] theorem resolve_none (host : Host) : host.resolve none = ⟨none, .empty⟩ := by
  simp [resolve]

/-- A type that is neither a singleton nor a proxy is its own canonical owner. -/
theorem resolve_of_canonical {host : Host} {ty : TypeId} (h : host.step ty = none) :
    host.resolve (some ty) = ⟨some ty, .empty⟩ :=
  walk_of_step_eq_none h _

end Host

end CallGraph
