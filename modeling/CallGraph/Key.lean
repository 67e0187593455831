import CallGraph.Host

/-!
# Method keys

A method is identified by the type that owns it and by its name; either may be absent.  Keys are
compared by identity, never by printed names.  A key built through a host takes one step from an
inclusion proxy to its module, so that a method observed through a proxy of a module and the same
method observed on the module itself are one method.

The same two halves, in the same order, are also the portable form of a key, which stands in records
and in stores; turning a key into it changes nothing, and both forms are compared alike, by owner
and then by method, an absent half first.  The type `Key` therefore serves for both.  The way back
from the portable form goes through a host and is the function `canonical`.

Main results:

- Theorem `make_eq_self` says which keys the host leaves alone.
- Theorem `compare_eq_iff` says that the order of keys separates different keys.
-/

namespace CallGraph

/-- The identity of a method, its owner and its name: as a graph uses it, and in its portable
form. -/
structure Key where
  owner : Option TypeId
  method : Option MethodId
  deriving DecidableEq, Repr, Inhabited

namespace Key

/-- The key of the method with neither owner nor name. -/
def blank : Key := ⟨none, none⟩

/-- Whether a key is the blank one. -/
def isBlank (k : Key) : Bool := decide (k = blank)

@[simp] theorem isBlank_iff (k : Key) : k.isBlank = true ↔ k = blank := by simp [isBlank]

/-- The owner that keys use for a type: the module of a proxy, and the type itself otherwise. -/
def canonicalOwner (host : Host) (ty : TypeId) : TypeId :=
  if host.isProxy ty then host.target ty else ty

/-- The key of a method as a host observes it. -/
def make (host : Host) (owner : Option TypeId) (method : Option MethodId) : Key :=
  ⟨owner.map (canonicalOwner host), method⟩

/-- The key that a host gives to the owner and the name of a key, such as one in portable form. -/
def canonical (host : Host) (k : Key) : Key := make host k.owner k.method

@[simp] theorem make_method (host : Host) (owner : Option TypeId) (method : Option MethodId) :
    (make host owner method).method = method := rfl

@[simp] theorem make_owner (host : Host) (owner : Option TypeId) (method : Option MethodId) :
    (make host owner method).owner = owner.map (canonicalOwner host) := rfl

/-- A host leaves a key alone exactly when its owner is no proxy of another type. -/
theorem make_eq_self (host : Host) (k : Key) :
    canonical host k = k ↔ ∀ ty, k.owner = some ty → canonicalOwner host ty = ty := by
  cases k with
  | mk owner method =>
    cases owner <;> simp [canonical, make]

/-! ## Hash and order -/

/-- The number that identifies a key in a hash table: the owner shifted by four bits plus the
method shifted by two, in 64-bit arithmetic, with zero for an absent half. -/
def hash (k : Key) : UInt64 :=
  ((k.owner.map TypeId.val).getD 0 <<< 4) + ((k.method.map MethodId.val).getD 0 <<< 2)

@[simp] theorem hash_blank : hash blank = 0 := rfl

/-- Keys are ordered by owner and then by method, an absent one before any other; so are their
portable forms. -/
instance : Ord Key := ⟨compareLex (compareOn Key.owner) (compareOn Key.method)⟩

instance : Std.TransOrd Key :=
  inferInstanceAs (Std.TransCmp (compareLex (compareOn Key.owner) (compareOn Key.method)))

/-- Keys are compared by their owners first and by their methods then. -/
theorem compare_def (a b : Key) :
    compare a b = (compare a.owner b.owner).then (compare a.method b.method) := rfl

/-- The order of keys separates different keys. -/
theorem compare_eq_iff (a b : Key) : compare a b = .eq ↔ a = b := by
  cases a; cases b
  simp [compare_def, Ordering.then_eq_eq, Std.LawfulEqCmp.compare_eq_iff_eq]

instance : Std.LawfulEqOrd Key where
  compare_self := (compare_eq_iff _ _).2 rfl
  eq_of_compare := (compare_eq_iff _ _).1

/-- The order of keys as a test, for sorting. -/
def le (a b : Key) : Bool := (compare a b).isLE

end Key

/-- The keys of a list in ascending order, equal ones in the order in which they came. -/
def sortKeys (keys : List Key) : List Key := keys.mergeSort Key.le

end CallGraph
