import CallGraph.Command.Help
import CallGraph.Report

/-!
# The command line

A command line is read from left to right, and the first thing that is wrong decides.  An option
with a value takes it from the same argument or from the next one, which must not begin with a dash
unless it is a dash alone.  No option may be given twice.

Main results:

- Theorem `set_repeated` says that an option that has a value takes no second one.
- Theorem `parse_nil` says that a command is required.
-/

namespace CallGraph.Command

/-- The options of a replay. -/
structure Options where
  /-- The file of the trace. -/
  trace : String
  /-- The file of the configuration. -/
  config : String := "methodgraph.toml"
  format : Report.Format := .names
  /-- The file that takes the report; without one it is printed. -/
  output : Option String := none
  /-- The directory that takes the records, in place of the configured one. -/
  store : Option String := none
  debug : Bool := false
  deriving DecidableEq, Repr, Inhabited

/-- What a command line asks for. -/
inductive Request where
  | help (topic : Topic)
  | version
  | replay (options : Options)
  deriving DecidableEq, Repr, Inhabited

/-- What is wrong with a command line. -/
inductive UsageError where
  | noCommand
  | unknownCommand (name : String)
  | unexpected (argument : String)
  | missingValue (option : String)
  | badValue (option value : String)
  | repeated (option : String)
  | missingTrace
  deriving DecidableEq, Repr, Inhabited

/-- The wording of an error. -/
def UsageError.message : UsageError → String
  | noCommand => "a command is required"
  | unknownCommand name => "unrecognized subcommand '" ++ name ++ "'"
  | unexpected argument => "unexpected argument '" ++ argument ++ "' found"
  | missingValue option => "a value is required for '--" ++ option ++ "' but none was supplied"
  | badValue option value => "invalid value '" ++ value ++ "' for '--" ++ option ++ "'"
  | repeated option => "the argument '--" ++ option ++ "' cannot be used multiple times"
  | missingTrace => "the following required arguments were not provided: --trace <TRACE>"

/-! ## Arguments -/

/-- An argument by its form. -/
inductive Argument where
  /-- Two dashes alone: no option follows. -/
  | divider
  | long (name : String) (value : Option String)
  /-- One dash and some letters. -/
  | short (letters : List Char)
  | plain (text : String)
  deriving DecidableEq, Repr, Inhabited

/-- The form of an argument. -/
def Argument.ofString (s : String) : Argument :=
  match s.toList with
  | ['-', '-'] => divider
  | '-' :: '-' :: rest =>
    match rest.dropWhile (· ≠ '=') with
    | [] => long (String.ofList rest) none
    | _ :: value => long (String.ofList (rest.takeWhile (· ≠ '='))) (some (String.ofList value))
  | '-' :: c :: rest => short (c :: rest)
  | _ => plain s

/-! ## The options of a replay -/

/-- The options that take a value. -/
inductive Setting where
  | trace
  | config
  | format
  | output
  | store
  deriving DecidableEq, Repr, Inhabited

namespace Setting

/-- The long name of an option. -/
def name : Setting → String
  | trace => "trace"
  | config => "config"
  | format => "format"
  | output => "output"
  | store => "store"

/-- All options that take a value. -/
def all : List Setting := [trace, config, format, output, store]

/-- The option of a long name. -/
def ofName? (s : String) : Option Setting := all.find? fun o => o.name = s

/-- The option of a letter. -/
def ofLetter? : Char → Option Setting
  | 't' => some trace
  | 'c' => some config
  | 'f' => some format
  | 'o' => some output
  | _ => none

end Setting

/-- The options that have been read so far. -/
structure Draft where
  trace : Option String := none
  config : Option String := none
  format : Option Report.Format := none
  output : Option String := none
  store : Option String := none
  debug : Bool := false
  deriving DecidableEq, Repr, Inhabited

namespace Draft

/-- Give an option that has no value yet a value. -/
def place {α : Type} (name : String) (old : Option α) (a : α) : Except UsageError (Option α) :=
  match old with
  | some _ => .error (.repeated name)
  | none => .ok (some a)

/-- A path must not be empty. -/
def placePath (name : String) (old : Option String) (path : String) :
    Except UsageError (Option String) :=
  if path.isEmpty then .error (.missingValue name) else place name old path

/-- Set an option. -/
def set (d : Draft) (o : Setting) (value : String) : Except UsageError Draft :=
  match o with
  | .trace => do return { d with trace := ← placePath o.name d.trace value }
  | .config => do return { d with config := ← placePath o.name d.config value }
  | .output => do return { d with output := ← placePath o.name d.output value }
  | .store => do return { d with store := ← placePath o.name d.store value }
  | .format =>
    match Report.Format.ofName? value with
    | none => .error (.badValue o.name value)
    | some f => do return { d with format := ← place o.name d.format f }

/-- The options when all arguments have been read. -/
def finish (d : Draft) (debug : Bool) : Except UsageError Request :=
  match d.trace with
  | none => .error .missingTrace
  | some trace => .ok (.replay
      { trace := trace, config := d.config.getD "methodgraph.toml",
        format := d.format.getD .names, output := d.output, store := d.store,
        debug := debug || d.debug })

/-- An option that has a value takes no second one. -/
theorem set_repeated {d : Draft} {old value : String} (h : d.trace = some old)
    (hv : value.isEmpty = false) : d.set .trace value = .error (.repeated "trace") := by
  simp [set, placePath, place, h, hv, Setting.name, bind, Except.bind]

/-- Read the arguments of a replay; `debug` tells whether the option stood before the command. -/
def read (debug : Bool) (d : Draft) : List String → Except UsageError Request
  | [] => d.finish debug
  | arg :: rest =>
    let valueNext (o : Setting) : Except UsageError Request :=
      match rest with
      | [] => .error (.missingValue o.name)
      | v :: rest =>
        match Argument.ofString v with
        | .plain v => do read debug (← d.set o v) rest
        | _ => .error (.missingValue o.name)
    match Argument.ofString arg with
    | .divider =>
      match rest with
      | [] => d.finish debug
      | a :: _ => .error (.unexpected a)
    | .plain _ => .error (.unexpected arg)
    | .long name value =>
      match Setting.ofName? name, value with
      | some o, some v => do read debug (← d.set o v) rest
      | some o, none => valueNext o
      | none, none =>
        if name = "help" then .ok (.help (.replay true))
        else if name = "debug" then
          -- Debugging that was asked for before the command may be asked for once more after it.
          if d.debug then .error (.repeated "debug")
          else read debug { d with debug := true } rest
        else .error (.unexpected arg)
      | none, some _ => .error (.unexpected arg)
    | .short [] => .error (.unexpected arg)
    | .short (c :: letters) =>
      if c = 'h' then .ok (.help (.replay false))
      else
        match Setting.ofLetter? c, letters with
        | none, _ => .error (.unexpected arg)
        | some o, [] => valueNext o
        -- A letter may have its value right behind it, with an equals sign or without.
        | some o, '=' :: value => do read debug (← d.set o (String.ofList value)) rest
        | some o, value => do read debug (← d.set o (String.ofList value)) rest

end Draft

/-! ## The whole command line -/

/-- The command whose help is asked for. -/
def helpOn : List String → Except UsageError Request
  | [] => .ok (.help .program)
  | ["replay"] => .ok (.help (.replay true))
  | ["help"] => .ok (.help .help)
  | "replay" :: name :: _ | "help" :: name :: _ | name :: _ => .error (.unknownCommand name)

/-- Read a command line; `debug` tells whether the option has been met. -/
def parseFrom (debug : Bool) : List String → Except UsageError Request
  | [] => .error .noCommand
  | arg :: rest =>
    match Argument.ofString arg with
    | .plain "replay" => Draft.read debug {} rest
    | .plain "help" => helpOn rest
    | .plain name => .error (.unknownCommand name)
    | .divider =>
      match rest with
      | [] => .error .noCommand
      | a :: _ => .error (.unexpected a)
    | .long "debug" none =>
      if debug then .error (.repeated "debug") else parseFrom true rest
    | .long "help" none | .short ('h' :: _) => .ok (.help .program)
    | .long "version" none | .short ('V' :: _) => .ok .version
    | _ => .error (.unexpected arg)

/-- Read a command line. -/
def parse (args : List String) : Except UsageError Request := parseFrom false args

theorem parse_nil : parse [] = .error .noCommand := rfl

end CallGraph.Command
