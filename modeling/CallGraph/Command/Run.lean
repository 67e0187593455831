import CallGraph.Command.Options
import CallGraph.Loading
import CallGraph.Replay

/-!
# Running a command

A command is run over any kind of files: the same run serves the files of the machine and a
directory tree in memory.  A replay reads the configuration and then the trace, writes its report,
and puts the records into a store last, so that a store that fails leaves the report behind.

Main results:

- Theorem `code_eq_zero_iff` says which outcomes are reported as success.
-/

namespace CallGraph.Command

/-- What a command may do to the world. -/
structure Access (m : Type → Type) where
  /-- What stands at a path. -/
  read : String → m FileContent
  /-- Write a file, replacing the old one, and tell whether that was possible. -/
  write : String → String → m Bool
  /-- Print a text. -/
  print : String → m Unit
  /-- Put records into the store at a path, and tell whether it could be opened. -/
  keep : String → List Record → m Bool
  /-- Tell of something that looks wrong but stops nothing. -/
  warn : String → m Unit

/-- Why a command fails. -/
inductive Failure where
  | load (e : LoadError)
  | graph (e : GraphError)
  | unwritable (path : String)
  | unopenable (path : String)
  deriving DecidableEq, Repr, Inhabited

/-- The wording of a failure. -/
def Failure.message : Failure → String
  | load e => e.message
  | graph e => e.message
  | unwritable path => "Failed to write " ++ path
  | unopenable path => "Failed to open record store at " ++ path

/-- How a command ends. -/
inductive Outcome where
  | success
  | failure (f : Failure)
  /-- The command line cannot be read. -/
  | misuse (e : UsageError)
  deriving DecidableEq, Repr, Inhabited

/-- The code that a program ends with. -/
def Outcome.code : Outcome → Nat
  | success => 0
  | failure _ => 1
  | misuse _ => 2

/-- Nothing but success is reported as success. -/
theorem Outcome.code_eq_zero_iff (o : Outcome) : o.code = 0 ↔ o = success := by
  cases o <;> simp [code]

section

variable {m : Type → Type} [Monad m]

/-- Replay a trace. -/
def replay (access : Access m) (o : Options) : ExceptT Failure m Unit := do
  let config ← match loadConfig o.config (← access.read o.config) with
    | .ok c => pure c
    | .error e => throw (.load e)
  let trace ← match loadTrace o.trace (← access.read o.trace) with
    | .ok t => pure t
    | .error e => throw (.load e)
  -- A name that excludes nothing is no failure.
  for name in config.exclude do
    if (trace.table.parseFullName name).isEmpty then
      access.warn ("exclusion does not match any known method: " ++ name)
  let s := Replay.ofTrace trace config.exclude
  if 0 < s.summary.openFrames then
    access.warn ("trace ended with open frames: " ++ toString s.summary.openFrames)
  if 0 < s.summary.unbalanced then
    access.warn ("trace has unbalanced returns: " ++ toString s.summary.unbalanced)
  let report ← match Report.render s.graph trace.table.host config.nativeLabel o.format with
    | .ok (_, report) => pure report
    | .error e => throw (.graph e)
  -- The report comes first, so it is there even if the records cannot be stored.
  match o.output with
  | none => access.print report
  | some path => if !(← access.write path report) then throw (.unwritable path)
  match o.store <|> config.storePath with
  | none => return
  | some path =>
    match s.graph.dumpAll with
    | .error e => throw (.graph e)
    | .ok records => if !(← access.keep path records) then throw (.unopenable path)

/-- Run the command of a command line. -/
def run (access : Access m) (args : List String) : m Outcome := do
  match parse args with
  | .error e => return .misuse e
  | .ok (.help topic) =>
    access.print topic.text
    return .success
  | .ok .version =>
    access.print versionText
    return .success
  | .ok (.replay o) =>
    match ← (replay access o).run with
    | .ok () => return .success
    | .error f => return .failure f

end

end CallGraph.Command
