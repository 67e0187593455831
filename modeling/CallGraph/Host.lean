/-!
# The host's types

The methods of a call graph live on the types of a host program.  A host names its types and its
methods by opaque 64-bit identities and answers a fixed set of questions about them.  Two kinds of
types are artefacts of the host: a *singleton* holds the methods of one entity only (a class, a
module, one object), and an *inclusion proxy* stands for a module inside the ancestry of a class
that includes it.

The structure `Host` is the list of those questions, with one number added that no program asks for:
the bound of a walk from type to type.  Nothing is assumed of the answers, so a statement about
every `Host` holds of every program.
-/

namespace CallGraph

/-- The identity of a type of the host. -/
structure TypeId where
  val : UInt64
  deriving DecidableEq, Repr, Inhabited

/-- The identity of an interned method name of the host. -/
structure MethodId where
  val : UInt64
  deriving DecidableEq, Repr, Inhabited

/-- Types are ordered by their identities. -/
instance : Ord TypeId := ⟨compareOn TypeId.val⟩

instance : Std.TransOrd TypeId := inferInstanceAs (Std.TransCmp (compareOn TypeId.val))

instance : Std.LawfulEqOrd TypeId where
  compare_self {a} := (Std.ReflCmp.compare_self : compareOn TypeId.val a a = .eq)
  eq_of_compare {a b} h := by
    cases a; cases b
    exact congrArg TypeId.mk (Std.LawfulEqOrd.eq_of_compare h)

/-- Methods are ordered by their identities. -/
instance : Ord MethodId := ⟨compareOn MethodId.val⟩

instance : Std.TransOrd MethodId := inferInstanceAs (Std.TransCmp (compareOn MethodId.val))

instance : Std.LawfulEqOrd MethodId where
  compare_self {a} := (Std.ReflCmp.compare_self : compareOn MethodId.val a a = .eq)
  eq_of_compare {a b} h := by
    cases a; cases b
    exact congrArg MethodId.mk (Std.LawfulEqOrd.eq_of_compare h)

/-- What a singleton holds the methods of. -/
inductive Wrapped where
  /-- A class: the singleton is its metaclass. -/
  | cls (id : TypeId)
  /-- A module: the singleton holds its module-level methods. -/
  | mdl (id : TypeId)
  /-- A plain object. -/
  | object
  /-- Anything else. -/
  | other
  deriving DecidableEq, Repr, Inhabited

/-- The questions a host answers about its types and methods, and a bound for walks among them. -/
structure Host where
  /-- Whether the type is a singleton. -/
  isSingleton : TypeId → Bool
  /-- What a singleton holds the methods of. -/
  wrapped : TypeId → Wrapped
  /-- Whether the type is an inclusion proxy. -/
  isProxy : TypeId → Bool
  /-- The module that a proxy stands for. -/
  target : TypeId → TypeId
  /-- The supertype, if there is one. -/
  supertype : TypeId → Option TypeId
  /-- The name with its namespaces, such as `Outer::Inner`. -/
  namespacedName : TypeId → String
  /-- Whether the type is a module. -/
  isModule : TypeId → Bool
  /-- Whether the type is a class. -/
  isClass : TypeId → Bool
  /-- The text shown for a type that has no better name. -/
  inspect : TypeId → String
  /-- The name of a method. -/
  methodName : MethodId → String
  /-- How many types the host has registered.  This is no question of a program: it only bounds a
  walk from type to type, since a chain of registered types that repeats none is not longer. -/
  typeCount : Nat

end CallGraph
