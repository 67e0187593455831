import CallGraph.Command.Run
import CallGraph.Store.Disk

/-!
# Files in memory

A directory tree that is held as a value, for running commands without a machine.  A path that
begins with a slash starts at the root of the tree, any other at the directory that commands are
run in.  It leads through directories that exist; only its last part may be absent.

Main results:

- Theorem `locate_congr` says that where a path leads depends on the directories alone.
- Theorem `read_write` says that a file that was written is read back, with one exception.
-/

namespace CallGraph.Command

/-! ## Paths -/

/-- The place of a file: the names that lead to it from the root. -/
abbrev Path := List String

namespace Path

/-- The greatest size of a name, in bytes. -/
def nameRoom : Nat := 255

/-- The greatest size of a path as it is written, in bytes. -/
def room : Nat := 4095

/-- The directory that commands are run in. -/
def working : Path := ["tmp", "run"]

/-- The file that is always empty. -/
def void : Path := ["dev", "null"]

/-- Where a written path starts. -/
def start (path : String) : Path := if path.startsWith "/" then [] else working

/-- The parts of a written path between its slashes.  One with a zero byte or too long a name leads
nowhere. -/
def parts? (path : String) : Option (List String) :=
  let parts := path.splitOn "/"
  if path.utf8ByteSize ≤ room ∧ path.toList.all (· ≠ '\x00') ∧
      parts.all (fun name => name.utf8ByteSize ≤ nameRoom) then some parts
  else none

end Path

/-! ## The tree -/

/-- A directory tree. -/
structure Files where
  texts : Table Path String := Table.empty.insert Path.void ""
  /-- The directories below the root. -/
  directories : List Path := [Path.working, ["tmp"], ["dev"]]
  /-- The directories that hold a store. -/
  stores : Table Path Store.Disk := .empty
  /-- What has been printed. -/
  printed : String := ""
  deriving Inhabited

namespace Files

/-- Whether a directory is at a place. -/
def isDirectory (f : Files) (place : Path) : Bool :=
  place.isEmpty || f.directories.contains place

/-- Follow the parts of a path; all but the last must lead to directories, and nothing is above the
root. -/
def follow (f : Files) : Path → List String → Option Path
  | here, [] => some here
  | here, part :: rest =>
    if !f.isDirectory here then none
    else if part = "" || part = "." then f.follow here rest
    else if part = ".." then f.follow here.dropLast rest
    else f.follow (here ++ [part]) rest

/-- The place that a path leads to. -/
def locate (f : Files) (path : String) : Option Path := do
  f.follow (Path.start path) (← Path.parts? path)

/-- What stands at a path. -/
def read (f : Files) (path : String) : FileContent :=
  match f.locate path with
  | none => .absent
  | some place =>
    match f.texts.lookup place with
    | some s => .text s
    | none => if f.isDirectory place then .unreadable else .absent

/-- Write a file, unless a directory is in its place. -/
def write (f : Files) (path s : String) : Option Files :=
  match f.locate path with
  | none => none
  | some place =>
    if f.isDirectory place then none
    else if place = Path.void then some f
    else some { f with texts := f.texts.insert place s }

/-- Make the directories along the parts of a path. -/
def makeDirectories (f : Files) : Path → List String → Option (Files × Path)
  | here, [] => some (f, here)
  | here, part :: rest =>
    if part = "" || part = "." then f.makeDirectories here rest
    else if part = ".." then f.makeDirectories here.dropLast rest
    else
      let next := here ++ [part]
      if f.texts.contains next then none
      else if f.isDirectory next then f.makeDirectories next rest
      else makeDirectories { f with directories := next :: f.directories } next rest

/-- Put records into the store at a path, making its directories. -/
def keep (f : Files) (path : String) (records : List Record) : Option Files := do
  let (f, place) ← f.makeDirectories (Path.start path) (← Path.parts? path)
  let store := (f.stores.lookup place).getD .empty
  return { f with stores := f.stores.insert place (Store.Disk.backend.putAll store records) }

/-- The store in the directory at a path, which is empty as long as nothing is kept there. -/
def storeAt (f : Files) (path : String) : Option Store.Disk := do
  let place ← f.locate path
  if f.isDirectory place then return (f.stores.lookup place).getD .empty else none

/-- Add a file and the directories above it. -/
def add (f : Files) (path s : String) : Files :=
  let parts := path.splitOn "/"
  match f.makeDirectories (Path.start path) parts.dropLast with
  | none => f
  | some (f, place) => { f with texts := f.texts.insert (place ++ parts.getLast?.toList) s }

/-- Do something that may be impossible, and tell whether it was done. -/
def attempt (change : Files → Option Files) : StateM Files Bool := do
  match change (← get) with
  | some f =>
    set f
    return true
  | none => return false

/-- The access of a command to a directory tree. -/
def access : Access (StateM Files) where
  read path := return (← get).read path
  write path s := attempt fun f => f.write path s
  print s := modify fun f => { f with printed := f.printed ++ s }
  keep path records := attempt fun f => f.keep path records
  warn _ := pure ()

/-! ## Reading what was written -/

/-- Following parts depends on the directories alone. -/
theorem follow_congr {f g : Files} (h : g.directories = f.directories) (parts : List String)
    (here : Path) : g.follow here parts = f.follow here parts := by
  induction parts generalizing here with
  | nil => rfl
  | cons part rest ih =>
    have hd : g.isDirectory here = f.isDirectory here := by simp [isDirectory, h]
    unfold follow
    rw [hd]
    simp only [ih]

/-- Where a path leads depends on the directories alone. -/
theorem locate_congr {f g : Files} (h : g.directories = f.directories) (path : String) :
    g.locate path = f.locate path := by
  simp only [locate, follow_congr h]

/-- A file that was written is read back, unless it is the one that is always empty. -/
theorem read_write {f g : Files} {path s : String} (hv : f.locate path ≠ some Path.void)
    (h : f.write path s = some g) : g.read path = .text s := by
  unfold write at h
  split at h
  · simp at h
  · next place hp =>
    have hne : place ≠ Path.void := fun e => hv (e ▸ hp)
    split at h
    · simp at h
    · obtain rfl : _ = g := by simpa [hne] using h
      have hl : locate { f with texts := f.texts.insert place s } path = f.locate path := by
        refine locate_congr ?_ path
        rfl
      unfold read
      rw [hl, hp]
      simp

end Files

end CallGraph.Command
