import CallGraph.Graph.Query
import CallGraph.Json.Printer
import CallGraph.Naming

/-!
# Reports

A report lists the methods of a graph that are not excluded, in order of creation: as full names
with their places, as call-tree names, or as records in JSON.
-/

namespace CallGraph.Report

/-- The formats of a report. -/
inductive Format where
  | json
  | names
  | calltree
  deriving DecidableEq, Repr, Inhabited

/-- The format of a name. -/
def Format.ofName? : String → Option Format
  | "json" => some .json
  | "names" => some .names
  | "calltree" => some .calltree
  | _ => none

/-- The line of one method: its full name, a tab, and its place.  A method without a file gets a
label in its stead. -/
def nameLine (host : Host) (label : String) (n : Node) : String :=
  host.fullName n.key ++ "\t" ++ n.sourceLabel label ++ ":" ++ toString n.line.toNat ++ "\n"

/-- The full names with their places, one to a line. -/
def names (g : Graph) (host : Host) (label : String) : String :=
  String.join (g.methods.map fun p => nameLine host label p.2)

/-- The call-tree name of a node, after its canonical owner as it is remembered. -/
def treeName (host : Host) (n : Node) : String :=
  host.callTreeName (n.resolve host) n.key.method

/-- The graph in which every listed node remembers its canonical owner. -/
def rememberAll (g : Graph) (host : Host) : Graph :=
  g.methods.foldl (fun g p => g.adjust p.1 fun n => n.remember host) g

/-- The call-tree names, one to a line. -/
def calltree (g : Graph) (host : Host) : String :=
  String.join (g.methods.map fun p => treeName host p.2 ++ "\n")

/-- Records as indented JSON, ended by a line feed. -/
def recordsText (records : List Record) : String :=
  (Json.arr (records.map Record.toJson)).renderPretty ++ "\n"

/-- A report, and the graph after it: asking for call-tree names makes the nodes remember. -/
def render (g : Graph) (host : Host) (label : String) :
    Format → Except GraphError (Graph × String)
  | .json => do return (g, recordsText (← g.dumpAll))
  | .names => .ok (g, names g host label)
  | .calltree => .ok (rememberAll g host, calltree g host)

end CallGraph.Report
