import CallGraph.Config
import CallGraph.Decode.Trace
import CallGraph.Text.Utf8

/-!
# Loading files

A configuration may be absent, a trace may not.  Whatever is wrong inside a file, loading it fails
with one of two messages: the file cannot be read as text, or the text is not what it should be.

Main results:

- Theorem `loadConfig_absent` says that an absent configuration is the default one.
-/

namespace CallGraph

/-- What stands at the path of a file. -/
inductive FileContent where
  | absent
  /-- Something that cannot be read as a text, such as a directory. -/
  | unreadable
  | text (s : String)
  deriving DecidableEq, Repr, Inhabited

/-- A file of some bytes. -/
def FileContent.ofBytes (bytes : List UInt8) : FileContent :=
  match Text.Utf8.decode bytes with
  | .ok s => text s
  | .error _ => unreadable

/-- The bytes of a text are read as the text. -/
@[simp] theorem FileContent.ofBytes_encode (s : String) :
    ofBytes (Text.Utf8.encode s) = text s := by
  simp [ofBytes]

/-- Why a file cannot be loaded. -/
inductive LoadError where
  | unreadable (what path : String)
  | invalid (what path : String)
  deriving DecidableEq, Repr, Inhabited

/-- The wording of an error. -/
def LoadError.message : LoadError → String
  | unreadable what path => "Failed to read " ++ what ++ " " ++ path
  | invalid what path => "Invalid " ++ what ++ " " ++ path

/-- The configuration of a file; an absent one is the default. -/
def loadConfig (path : String) : FileContent → Except LoadError Config
  | .absent => .ok {}
  | .unreadable => .error (.unreadable "config" path)
  | .text s =>
    match Config.parse s with
    | .ok c => .ok c
    | .error _ => .error (.invalid "config" path)

/-- The trace of a file. -/
def loadTrace (path : String) : FileContent → Except LoadError Trace
  | .absent | .unreadable => .error (.unreadable "trace" path)
  | .text s =>
    match Decode.traceOfString s with
    | .ok t => .ok t
    | .error _ => .error (.invalid "trace" path)

/-- Without a file the configuration is the default one. -/
@[simp] theorem loadConfig_absent (path : String) : loadConfig path .absent = .ok {} := rfl

end CallGraph
