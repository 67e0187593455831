import CallGraph.Fault
import CallGraph.Json.Printer

/-!
# Errors of a call graph

A query fails if its handle was issued before the last release or names nothing of the graph.
Loading fails if the record is malformed: a field is absent or does not decode, or one of its calls
does not touch the method of the record.
-/

namespace CallGraph

/-- What is wrong with a record. -/
inductive RecordProblem where
  /-- The value is no object. -/
  | notAnObject
  /-- A field that must be there is absent. -/
  | absent (field : String)
  /-- A field does not decode. -/
  | undecodable (field : String) (fault : Fault)
  /-- An incoming call does not lead to the method. -/
  | strayCaller (index : Nat)
  /-- An outgoing call does not start at the method. -/
  | strayCallee (index : Nat)
  deriving DecidableEq, Repr, Inhabited

namespace RecordProblem

/-- The place of a problem. -/
def field : RecordProblem → String
  | notAnObject => "<record>"
  | absent field | undecodable field _ => field
  | strayCaller index => "callers[" ++ toString index ++ "].callee"
  | strayCallee index => "callees[" ++ toString index ++ "].caller"

/-- The words for a problem. -/
def reason : RecordProblem → String
  | notAnObject => "expected a mapping"
  | absent _ => "missing required field"
  | undecodable _ fault => fault.message Json.floatStyle
  | strayCaller _ => "caller edge does not point at this method"
  | strayCallee _ => "callee edge does not start at this method"

end RecordProblem

/-- Why a query or a load fails. -/
inductive GraphError where
  /-- The node handle is older than the last release. -/
  | nodeReleased (index : Nat)
  /-- The edge handle is older than the last release. -/
  | edgeReleased (index : Nat)
  /-- The handle was never issued by this graph. -/
  | unknownHandle (index : Nat)
  | malformedRecord (problem : RecordProblem)
  deriving DecidableEq, Repr, Inhabited

/-- The wording of an error. -/
def GraphError.message : GraphError → String
  | nodeReleased index =>
    "method node " ++ toString index ++
      " has already been released, likely because its session was released"
  | edgeReleased index =>
    "call edge " ++ toString index ++
      " has already been released, likely because its session was released"
  | unknownHandle index => "handle " ++ toString index ++ " does not belong to this session"
  | malformedRecord problem =>
    "malformed method record: field `" ++ problem.field ++ "`: " ++ problem.reason

end CallGraph
