import CallGraph.Decode.Shape
import CallGraph.Trace

/-!
# Reading traces

A trace is read from its text as it goes.  An event carries a tag that decides what else it holds,
so its other members are set aside until all of them have been seen.

Main results:

- Theorem `trace_of_trailing` says that a trace with something behind it is malformed.
-/

namespace CallGraph.Decode

open Json (Doc Stop Token)

/-! ## Events -/

/-- The kinds of events. -/
inductive EventKind where
  | call
  | leave
  deriving DecidableEq, Repr

/-- The names of the kinds. -/
def eventKinds : List (String × EventKind) := [("call", .call), ("return", .leave)]

/-- What has been read of a call event. -/
structure EventParts where
  owner : Option (Option TypeId) := none
  method : Option (Option MethodId) := none
  file : Option (Option String) := none
  line : Option UInt32 := none
  native : Option Bool := none

/-- Read one member of a call event. -/
def EventParts.read (p : EventParts) (name : String) (d : Doc) : Result EventParts :=
  match name with
  | "owner" => do return { p with owner := ← once p.owner name (optional typeId) d }
  | "method" => do return { p with method := ← once p.method name (optional methodId) d }
  | "file" => do return { p with file := ← once p.file name (optional string) d }
  | "line" => do return { p with line := ← once p.line name uint32 d }
  | "native" => do return { p with native := ← once p.native name bool d }
  | _ => .ok p

/-- The call of its parts; what is left out is absent, zero or false. -/
def EventParts.finish (p : EventParts) : Event :=
  .call ⟨p.owner.join, p.method.join, p.file.join, p.line.getD 0, p.native.getD false⟩

/-- The members of an event before its kind is known. -/
structure EventMembers where
  kind : Option EventKind := none
  rest : List (String × Json) := []

/-- Read one member of an event: the tag at once, anything else set aside. -/
def EventMembers.read (p : EventMembers) (name : String) (d : Doc) : Result EventMembers :=
  if name = "event" then do return { p with kind := ← once p.kind name (tag .text eventKinds) d }
  else do return { p with rest := (name, ← lift (d.buffer memberRoom)) :: p.rest }

/-- An event with its tag among its members. -/
def eventOfMembers (ms : List (Token String × Doc)) (stop : Option Stop) : Result Event := do
  let p ← members EventMembers.read {} ms
  lift (Json.finish stop ())
  match ← require "event" p.kind with
  | .leave => return .leave
  | .call => do
    let parts ← p.rest.reverse.foldlM (fun p m => EventParts.read p m.1 (Doc.ofJson m.2)) {}
    return parts.finish

/-- An event with its tag in front of its fields. -/
def eventOfItems (c : Cursor) : Result Event :=
  match c.left with
  | [] => do
    lift (Json.finish c.stop ())
    .error (.missing "event")
  | d :: rest => do
    let kind ← tag .text eventKinds d
    -- All fields are set aside before the first of them is looked at.
    let values ← lift (Doc.bufferItems memberRoom rest)
    lift (Json.finish c.stop ())
    let c := Cursor.start (values.map Doc.ofJson) none
    match kind with
    | .leave => do
      c.close .aside
      return .leave
    | .call => do
      let (owner, c) ← c.nextOr none (optional typeId)
      let (method, c) ← c.nextOr none (optional methodId)
      let (file, c) ← c.nextOr none (optional string)
      let (line, c) ← c.nextOr 0 uint32
      let (native, c) ← c.nextOr false bool
      c.close .aside
      return .call ⟨owner, method, file, line, native⟩

/-- An event. -/
def event : Doc → Result Event :=
  structured "internally tagged enum TraceEvent" eventOfMembers eventOfItems

/-! ## Traces -/

/-- What has been read of a trace. -/
structure TraceParts where
  types : Option (List (TypeId × Shape)) := none
  methods : Option (List (MethodId × String)) := none
  events : Option (List Event) := none

/-- Read one member of a trace. -/
def TraceParts.read (p : TraceParts) (name : String) (d : Doc) : Result TraceParts :=
  match name with
  | "types" => do return { p with types := ← once p.types name (list typeEntry) d }
  | "methods" => do
    return { p with methods := ← once p.methods name (list (methodEntry .text)) d }
  | "events" => do return { p with events := ← once p.events name (list event) d }
  | _ => pass p d

/-- A trace. -/
def trace : Doc → Result Trace :=
  structured "struct TraceFile"
    (fun ms stop => do
      let p ← members TraceParts.read {} ms
      lift (Json.finish stop ())
      return ⟨p.types.getD [], p.methods.getD [], ← require "events" p.events⟩)
    (fun c => do
      let (types, c) ← c.nextOr [] (list typeEntry)
      let (methods, c) ← c.nextOr [] (list (methodEntry .text))
      let (events, c) ← c.next "struct TraceFile with 3 elements" (list event)
      c.close .text
      return ⟨types, methods, events⟩)

/-- The trace of a document, behind which nothing may stand. -/
def traceOfDoc (doc : Doc) (trailing : Bool) : Result Trace := do
  let t ← trace doc
  if trailing then .error (.flawed .malformed) else return t

/-- The trace of a text. -/
def traceOfString (s : String) : Result Trace :=
  let (doc, trailing) := Doc.ofString s
  traceOfDoc doc trailing

/-- A trace with something behind it is malformed. -/
theorem trace_of_trailing {doc : Doc} {t : Trace} (h : trace doc = .ok t) :
    traceOfDoc doc true = .error (.flawed .malformed) := by
  simp [traceOfDoc, h, bind, Except.bind]

end CallGraph.Decode
