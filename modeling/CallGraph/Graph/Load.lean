import CallGraph.Decode.Record
import CallGraph.Graph.Query

/-!
# Loading records into a call graph

A record is checked before the graph is touched: with all keys as the host gives them, each
incoming call must lead to the method of the record and each outgoing one must start there.  Then
the method and its peers get the nodes and edges that are missing.  The source of the method
becomes that of the record; its flags are only ever set.

Main results:

- Theorem `load_eq_ok_iff` says which records are accepted and what they do.
- Theorem `load_eq_error` says that nothing but a stray call makes a record fail.
-/

namespace CallGraph.Graph

/-! ## Checking a record -/

/-- The first incoming call that does not lead to `key`. -/
def strayCaller (host : Host) (key : Key) (r : Record) : Option Nat :=
  r.callers.findIdx? fun c => c.callee.canonical host ≠ key

/-- The first outgoing call that does not start at `key`. -/
def strayCallee (host : Host) (key : Key) (r : Record) : Option Nat :=
  r.callees.findIdx? fun c => c.caller.map (Key.canonical host) ≠ some key

/-- The first problem of a record, if it has one. -/
def recordProblem (host : Host) (r : Record) : Option RecordProblem :=
  let key := r.key.canonical host
  match strayCaller host key r with
  | some i => some (.strayCaller i)
  | none => (strayCallee host key r).map .strayCallee

/-! ## Taking a record in -/

/-- Add an incoming call of a method, from a peer or from outside any method. -/
def absorbCaller (host : Host) (v : Vertex) (g : Graph) (c : CallRecord) : Graph :=
  match c.caller with
  | some peer =>
    let key := peer.canonical host
    let (g, id) := g.intern key none
    (g.link (some ⟨id, key⟩) v).1
  | none => ((g.adjust v.id fun n => { n with root := true }).link none v).1

/-- Add an outgoing call of a method. -/
def absorbCallee (host : Host) (v : Vertex) (g : Graph) (c : CallRecord) : Graph :=
  let key := c.callee.canonical host
  let (g, id) := g.intern key none
  (g.link (some v) ⟨id, key⟩).1

/-- The place that a record tells of its method; without a file there is no line either. -/
def sourceOf (r : Record) : Option Source := r.file.map fun file => ⟨file, r.line⟩

/-- Take in a record that has been checked. -/
def absorb (g : Graph) (host : Host) (r : Record) : Graph × NodeId :=
  let key := r.key.canonical host
  let (g, id) := g.intern key none
  let g := g.adjust id fun n =>
    { n with source := sourceOf r, recursive := n.recursive || r.recursive }
  let g := r.callers.foldl (absorbCaller host ⟨id, key⟩) g
  let g := r.callees.foldl (absorbCallee host ⟨id, key⟩) g
  (g, id)

/-- Load a record. -/
def load (g : Graph) (host : Host) (r : Record) : Except GraphError (Graph × NodeId) :=
  match recordProblem host r with
  | some problem => .error (.malformedRecord problem)
  | none => .ok (g.absorb host r)

/-- Load records one after the other. -/
def loadAll (g : Graph) (host : Host) : List Record → Except GraphError Graph
  | [] => .ok g
  | r :: rest => do
    let (g, _) ← g.load host r
    g.loadAll host rest

/-- A record without a problem is taken in. -/
theorem load_eq_ok_iff {g g' : Graph} {host : Host} {r : Record} {id : NodeId} :
    g.load host r = .ok (g', id) ↔ recordProblem host r = none ∧ g.absorb host r = (g', id) := by
  unfold load
  split <;> simp_all

/-- A record without a problem is loaded. -/
theorem load_of_problem_none {g : Graph} {host : Host} {r : Record}
    (h : recordProblem host r = none) : g.load host r = .ok (g.absorb host r) :=
  load_eq_ok_iff.mpr ⟨h, rfl⟩

/-- A record fails exactly by its problem, whatever the graph. -/
theorem load_eq_error {g : Graph} {host : Host} {r : Record} {e : GraphError} :
    g.load host r = .error e ↔
      ∃ p, recordProblem host r = some p ∧ e = .malformedRecord p := by
  unfold load
  cases recordProblem host r with
  | none => simp
  | some p => simp [eq_comm]

/-! ## Loosely typed records -/

/-- A field that may be absent: missing and `null` mean the same. -/
def optionalField {α : Type} (members : List (String × Json)) (name : String)
    (read : Json.Doc → Decode.Result α) : Except GraphError (Option α) :=
  match Json.member? name members with
  | none | some .null => .ok none
  | some v =>
    match read (Json.Doc.ofJson v) with
    | .ok a => .ok (some a)
    | .error fault => .error (.malformedRecord (.undecodable name fault))

/-- A field that must be there. -/
def requiredField {α : Type} (members : List (String × Json)) (name : String)
    (read : Json.Doc → Decode.Result α) : Except GraphError α :=
  match Json.member? name members with
  | none => .error (.malformedRecord (.absent name))
  | some v =>
    match read (Json.Doc.ofJson v) with
    | .ok a => .ok a
    | .error fault => .error (.malformedRecord (.undecodable name fault))

/-- The record of a loose value, whose fields are checked in a fixed order. -/
def recordOfJson (v : Json) : Except GraphError Record :=
  match v.sorted with
  | .obj members => do
    let owner ← optionalField members "owner" Decode.typeId
    let method ← optionalField members "method" Decode.methodId
    let recursive ← requiredField members "recursive" Decode.bool
    let file ← optionalField members "source_file" Decode.string
    let line ← requiredField members "line" Decode.uint32
    let callers ← requiredField members "callers" (Decode.list (Decode.call .value))
    let callees ← requiredField members "callees" (Decode.list (Decode.call .value))
    return ⟨⟨owner, method⟩, recursive, file, line, callers, callees⟩
  | _ => .error (.malformedRecord .notAnObject)

/-- Load a record that is given as a loose value. -/
def loadValue (g : Graph) (host : Host) (v : Json) : Except GraphError (Graph × NodeId) := do
  let r ← recordOfJson v
  g.load host r

end CallGraph.Graph
