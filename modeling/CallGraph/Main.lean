import CallGraph.Command.Run
import CallGraph.Store.Listing

/-!
# The program

Runs a command on the files of the machine.  A store is a directory with one file, the listing of
its entries.
-/

namespace CallGraph.Program

/-- The file of a store inside its directory. -/
def listingPath (path : String) : String := path ++ "/records"

/-- Whether an error says that a path leads nowhere: its end is absent, or it leads through a file,
or no file can have it. -/
def leadsNowhere : IO.Error → Bool
  | .noFileOrDirectory .. | .inappropriateType (some _) .. | .invalidArgument .. => true
  | _ => false

/-- What stands at a path. -/
def readContent (path : String) : IO FileContent := do
  try
    return .ofBytes (← IO.FS.readBinFile path).data.toList
  catch e => return if leadsNowhere e then .absent else .unreadable

/-- Do something that may fail, and tell whether it was done. -/
def succeeds (action : IO Unit) : IO Bool := do
  try
    action
    return true
  catch _ => return false

/-- Put records into the store at a path. -/
def keepRecords (path : String) (records : List Record) : IO Unit := do
  IO.FS.createDirAll path
  let start ← match ← readContent (listingPath path) with
    | .absent => pure (some Store.Disk.empty)
    | .unreadable => pure none
    | .text s => pure (Store.Disk.ofListing? s)
  match start with
  | some store =>
    IO.FS.writeFile (listingPath path) (Store.Disk.backend.putAll store records).listing
  | none => throw (IO.userError "the store is damaged")

/-- The access of a command to the files of the machine. -/
def machine : Command.Access IO where
  read := readContent
  write path s := succeeds (IO.FS.writeFile path s)
  print s := do
    let out ← IO.getStdout
    out.putStr s
    out.flush
  keep path records := succeeds (keepRecords path records)
  warn s := IO.eprintln ("warning: " ++ s)

/-- Run a command line, tell what went wrong, and give the code to end with. -/
def run (args : List String) : IO UInt32 := do
  let outcome ← Command.run machine args
  match outcome with
  | .success => pure ()
  | .failure f => IO.eprintln ("Error: " ++ f.message)
  | .misuse e => IO.eprintln ("error: " ++ e.message ++ "\n\nFor more information, try '--help'.")
  return UInt32.ofNat outcome.code

end CallGraph.Program

def main (args : List String) : IO UInt32 := CallGraph.Program.run args
