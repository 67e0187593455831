import CallGraph.Json.Value
import CallGraph.Key

/-!
# Method records

A record is the portable form of one method with its calls: every call is told by the keys of its
two ends, so that a record means the same in every session.  A key in a record is one in portable
form, which has the same halves and is compared in the same way as the key in a graph.  Records are
written as JSON objects with their fields in a fixed order.

Main results:

- Theorem `compare_calls_eq_iff` says that the order of calls separates different calls.
-/

namespace CallGraph

/-- One call, told by the keys of its ends; without a caller it comes from outside any method. -/
structure CallRecord where
  caller : Option Key
  callee : Key
  deriving DecidableEq, Repr, Inhabited

/-- The portable form of a method. -/
structure Record where
  key : Key
  recursive : Bool
  file : Option String
  line : UInt32
  callers : List CallRecord
  callees : List CallRecord
  deriving DecidableEq, Repr, Inhabited

namespace CallRecord

/-- Calls are ordered by caller and then by callee, one from outside before any other. -/
instance : Ord CallRecord :=
  ⟨compareLex (compareOn CallRecord.caller) (compareOn CallRecord.callee)⟩

instance : Std.TransOrd CallRecord :=
  inferInstanceAs
    (Std.TransCmp (compareLex (compareOn CallRecord.caller) (compareOn CallRecord.callee)))

/-- Calls are compared by their callers first and by their callees then. -/
theorem compare_def (a b : CallRecord) :
    compare a b = (compare a.caller b.caller).then (compare a.callee b.callee) := rfl

/-- The order of calls separates different calls. -/
theorem compare_calls_eq_iff (a b : CallRecord) : compare a b = .eq ↔ a = b := by
  cases a; cases b
  simp [compare_def, Ordering.then_eq_eq, Std.LawfulEqCmp.compare_eq_iff_eq]

instance : Std.LawfulEqOrd CallRecord where
  compare_self := (compare_calls_eq_iff _ _).2 rfl
  eq_of_compare := (compare_calls_eq_iff _ _).1

/-- The calls of a list in ascending order. -/
def sort (calls : List CallRecord) : List CallRecord :=
  calls.mergeSort fun a b => (compare a b).isLE

end CallRecord

/-! ## Written form -/

namespace Key

/-- The members of a key. -/
def members (k : Key) : List (String × Json) :=
  [("owner", .ofOption (fun ty => .ofUInt64 ty.val) k.owner),
    ("method", .ofOption (fun m => .ofUInt64 m.val) k.method)]

/-- A key as an object. -/
def toJson (k : Key) : Json := .obj k.members

end Key

/-- A call as an object. -/
def CallRecord.toJson (c : CallRecord) : Json :=
  .obj [("caller", .ofOption Key.toJson c.caller), ("callee", c.callee.toJson)]

/-- A record as an object. -/
def Record.toJson (r : Record) : Json :=
  .obj (r.key.members ++
    [("recursive", .bool r.recursive),
      ("source_file", .ofOption .str r.file),
      ("line", .int r.line.toNat),
      ("callers", .arr (r.callers.map CallRecord.toJson)),
      ("callees", .arr (r.callees.map CallRecord.toJson))])

end CallGraph
