import CallGraph.Graph.Calls
import CallGraph.Json.Printer
import CallGraph.TypeTable

/-!
# Recorded traces

A trace holds a description of the host, as lists of types and methods, and the calls and returns
of one execution in the order in which they were observed.
-/

namespace CallGraph

/-- One event of a trace. -/
inductive Event where
  | call (o : Observation)
  | leave
  deriving DecidableEq, Repr, Inhabited

/-- The call that an event observes; a return observes none. -/
def Event.observation : Event → Option Observation
  | call o => some o
  | leave => none

/-- A recorded trace. -/
structure Trace where
  types : List (TypeId × Shape) := []
  methods : List (MethodId × String) := []
  events : List Event
  deriving DecidableEq, Repr, Inhabited

/-- The host that a trace describes. -/
def Trace.table (t : Trace) : TypeTable := .ofEntries t.types t.methods

/-! ## Written form -/

namespace Wrapped

/-- What a singleton wraps as an object. -/
def toJson : Wrapped → Json
  | cls id => .obj [("kind", .str "class"), ("id", .ofUInt64 id.val)]
  | mdl id => .obj [("kind", .str "module"), ("id", .ofUInt64 id.val)]
  | object => .obj [("kind", .str "object")]
  | other => .obj [("kind", .str "other")]

end Wrapped

/-- A superclass, `null` if there is none. -/
def superclassJson (superclass : Option TypeId) : String × Json :=
  ("superclass", .ofOption (fun ty => .ofUInt64 ty.val) superclass)

/-- The members of a shape, its kind first. -/
def Shape.members : Shape → List (String × Json)
  | .cls name superclass => [("kind", .str "class"), ("name", .str name), superclassJson superclass]
  | .mdl name => [("kind", .str "module"), ("name", .str name)]
  | .singleton wrapped superclass =>
    [("kind", .str "singleton"), ("attached", wrapped.toJson), superclassJson superclass]
  | .proxy target superclass =>
    [("kind", .str "include_proxy"), ("module", .ofUInt64 target.val), superclassJson superclass]
  | .other description => [("kind", .str "other"), ("description", .str description)]

/-- An event as an object. -/
def Event.toJson : Event → Json
  | .call o =>
    .obj [("event", .str "call"),
      ("owner", .ofOption (fun ty => .ofUInt64 ty.val) o.owner),
      ("method", .ofOption (fun m => .ofUInt64 m.val) o.method),
      ("file", .ofOption .str o.file), ("line", .int o.line.toNat), ("native", .bool o.native)]
  | .leave => .obj [("event", .str "return")]

/-- A trace as an object. -/
def Trace.toJson (t : Trace) : Json :=
  .obj [("types", .arr (t.types.map fun e => .obj (("id", .ofUInt64 e.1.val) :: e.2.members))),
    ("methods", .arr (t.methods.map fun e =>
      .obj [("id", .ofUInt64 e.1.val), ("name", .str e.2)])),
    ("events", .arr (t.events.map Event.toJson))]

end CallGraph
