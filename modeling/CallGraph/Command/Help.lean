/-!
# Texts about the program

The options of a replay are described twice: briefly, one to a line, and at length, with the values
that an option may have.  The other texts have one form only.
-/

namespace CallGraph.Command

/-- The name and the version of the program. -/
def versionText : String := "methodgraph 0.1.0\n"

/-- What the program can tell about itself. -/
inductive Topic where
  /-- The program as a whole. -/
  | program
  /-- The command that replays a trace, briefly or at length. -/
  | replay (full : Bool)
  /-- The command that tells about commands. -/
  | help
  deriving DecidableEq, Repr, Inhabited

namespace Topic

/-- The help on the program as a whole. -/
def programText : String :=
  "Method-level profiler core: deduplicated call graph, canonical method identity resolution, " ++
  "and lossless record round trips.\n\n" ++
  "Usage: methodgraph [OPTIONS] <COMMAND>\n\n" ++
  "Commands:\n" ++
  "  replay  Replay a recorded trace into a call graph\n" ++
  "  help    Print this message or the help of the given subcommand(s)\n\n" ++
  "Options:\n" ++
  "      --debug    Enable trace-level logging on stderr\n" ++
  "  -h, --help     Print help\n" ++
  "  -V, --version  Print version\n"

/-- What both texts on replaying begin with. -/
def replayIntroduction : String :=
  "Replay a recorded trace into a call graph\n\n" ++
  "Usage: methodgraph replay [OPTIONS] --trace <TRACE>\n\n" ++
  "Options:\n"

/-- The options of a replay, one to a line. -/
def replayBrief : String :=
  "      --debug            Enable trace-level logging on stderr\n" ++
  "  -t, --trace <TRACE>    Trace file (JSON)\n" ++
  "  -c, --config <CONFIG>  Configuration file (TOML) [default: methodgraph.toml]\n" ++
  "  -f, --format <FORMAT>  Output format [default: names] " ++
  "[possible values: json, names, calltree]\n" ++
  "  -o, --output <OUTPUT>  Output file path (stdout when omitted)\n" ++
  "      --store <STORE>    sled directory to persist records into (overrides the config)\n" ++
  "  -h, --help             Print help (see more with '--help')\n"

/-- What stands in front of a line about an option. -/
def margin : String := "          "

/-- An option of a replay at length: how it is written, and what is said about it. -/
def entry (usage : String) (lines : List String) : String :=
  usage ++ "\n" ++ String.join (lines.map fun line => line ++ "\n")

/-- The options of a replay at length, with blank lines between them. -/
def replayFull : String :=
  "\n".intercalate
    [entry "      --debug" [margin ++ "Enable trace-level logging on stderr"],
      entry "  -t, --trace <TRACE>" [margin ++ "Trace file (JSON)"],
      entry "  -c, --config <CONFIG>"
        [margin ++ "Configuration file (TOML)", margin, margin ++ "[default: methodgraph.toml]"],
      entry "  -f, --format <FORMAT>"
        [margin ++ "Output format", "",
          margin ++ "Possible values:",
          margin ++ "- json:     Method records as JSON",
          margin ++ "- names:    One `Owner#method` per line, " ++
            "followed by a tab and `file:line`",
          margin ++ "- calltree: One call-tree name per line",
          margin, margin ++ "[default: names]"],
      entry "  -o, --output <OUTPUT>" [margin ++ "Output file path (stdout when omitted)"],
      entry "      --store <STORE>"
        [margin ++ "sled directory to persist records into (overrides the config)"],
      entry "  -h, --help" [margin ++ "Print help (see a summary with '-h')"]]

/-- The help on help. -/
def helpText : String :=
  "Print this message or the help of the given subcommand(s)\n\n" ++
  "Usage: methodgraph help [COMMAND]...\n\n" ++
  "Arguments:\n" ++
  "  [COMMAND]...  Print help for the subcommand(s)\n"

/-- The text on a topic. -/
def text : Topic → String
  | program => programText
  | replay full => replayIntroduction ++ if full then replayFull else replayBrief
  | help => helpText

end Topic

end CallGraph.Command
