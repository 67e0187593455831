import CallGraph.Fault
import CallGraph.Host
import CallGraph.Json.Document
import CallGraph.Json.Printer

/-!
# Reading documents for a shape

Decoders go through a document in its order and report the first fault they meet.  A structure is
read from an object, whose unknown members are skipped and whose members may come in any order, or
from an array of its fields in their fixed order.

Main results:

- Theorem `once_of_some` says that a second member of one name is refused before it is read.
- Theorems `optional_null` and `natural_ofJson` give the readings of an absent value and of a whole
  number in range.
-/

namespace CallGraph.Decode

open Json (Doc Stop Token Number)

/-- The result of reading. -/
abbrev Result (α : Type) := Except Fault α

/-- Where a document comes from.  It decides what is wrong with an array that is too long. -/
inductive Medium where
  /-- A text that is read as it goes. -/
  | text
  /-- A finished value. -/
  | value
  /-- A part of a text that was set aside until its tag was known. -/
  | aside
  deriving DecidableEq, Repr

/-- A flaw of the text as a fault. -/
def lift {α : Type} : Except Stop α → Result α
  | .ok a => .ok a
  | .error stop => .error (.flawed stop)

/-- What a document offers, in the words of a fault.  Scalars are read for it, containers are
not. -/
def found : Doc → Result Found
  | .null => .ok .null
  | .bool b => .ok (.bool b)
  | .num t => do
    match ← lift t.read with
    | .int n => return .int n
    | .float x => return .float x
  | .str t => do return .str (← lift t.read)
  | .arr .. => .ok .sequence
  | .obj .. => .ok .mapping
  | .broken stop => .error (.flawed stop)

/-- The fault of a document of the wrong kind. -/
def wrongKind {α : Type} (expected : String) (d : Doc) : Result α := do
  let f ← found d
  .error (.wrongKind f expected)

/-! ## Scalars -/

/-- A whole number below a limit. -/
def natural (limit : Nat) (expected : String) : Doc → Result Nat
  | .num t => do
    match ← lift t.read with
    | .int n =>
      if 0 ≤ n ∧ n < limit then return n.toNat else .error (.notAllowed (.int n) expected)
    | .float x => .error (.wrongKind (.float x) expected)
  | d => wrongKind expected d

/-- A 64-bit number. -/
def uint64 (d : Doc) : Result UInt64 := UInt64.ofNat <$> natural UInt64.size "u64" d

/-- A 32-bit number. -/
def uint32 (d : Doc) : Result UInt32 := UInt32.ofNat <$> natural UInt32.size "u32" d

/-- A truth value. -/
def bool : Doc → Result Bool
  | .bool b => .ok b
  | d => wrongKind "a boolean" d

/-- A text. -/
def string : Doc → Result String
  | .str t => lift t.read
  | d => wrongKind "a string" d

/-- The identity of a type. -/
def typeId (d : Doc) : Result TypeId := TypeId.mk <$> uint64 d

/-- The identity of a method. -/
def methodId (d : Doc) : Result MethodId := MethodId.mk <$> uint64 d

/-- A value that may be absent, which is written `null`. -/
def optional {α : Type} (read : Doc → Result α) : Doc → Result (Option α)
  | .null => .ok none
  | d => some <$> read d

@[simp] theorem optional_null {α : Type} (read : Doc → Result α) :
    optional read (Doc.ofJson .null) = .ok none := by
  simp [Doc.ofJson, optional]

/-- A whole number in range is read as itself. -/
theorem natural_ofJson {limit n : Nat} (h : n < limit) (expected : String) :
    natural limit expected (Doc.ofJson (.int n)) = .ok n := by
  simp [Doc.ofJson, natural, lift, bind, Except.bind, h, pure, Except.pure]

/-! ## Lists -/

/-- Read each item of a list. -/
def each {α : Type} (read : Doc → Result α) : List Doc → Result (List α)
  | [] => .ok []
  | d :: rest => do
    let a ← read d
    let rest ← each read rest
    return a :: rest

/-- A list of values of one shape. -/
def list {α : Type} (read : Doc → Result α) : Doc → Result (List α)
  | .arr items stop => do
    let values ← each read items
    lift (Json.finish stop values)
  | d => wrongKind "a sequence" d

/-! ## Members of an object -/

/-- Read the members of an object one after the other into a state. -/
def members {σ : Type} (read : σ → String → Doc → Result σ) :
    σ → List (Token String × Doc) → Result σ
  | s, [] => .ok s
  | s, m :: rest => do
    let name ← lift m.1.read
    let s ← read s name m.2
    members read s rest

/-- Fill the place of a member; a place that is taken refuses a second member unread. -/
def once {α : Type} (place : Option α) (name : String) (read : Doc → Result α) (d : Doc) :
    Result (Option α) :=
  match place with
  | some _ => .error (.duplicate name)
  | none => some <$> read d

/-- The content of a place that must be taken. -/
def require {α : Type} (name : String) : Option α → Result α
  | some a => .ok a
  | none => .error (.missing name)

/-- Pass over a member that nobody asks for. -/
def pass {σ : Type} (s : σ) (d : Doc) : Result σ := do
  lift d.skip
  return s

/-- A second member of one name is refused before it is read. -/
theorem once_of_some {α : Type} (a : α) (name : String) (read : Doc → Result α) (d : Doc) :
    once (some a) name read d = .error (.duplicate name) := rfl

/-! ## Fields in their fixed order -/

/-- The items of an array that are still to be read, how many fields have been passed, and why the
array breaks off. -/
structure Cursor where
  left : List Doc
  passed : Nat
  stop : Option Stop

/-- The cursor before the first item. -/
def Cursor.start (items : List Doc) (stop : Option Stop) : Cursor := ⟨items, 0, stop⟩

/-- Read the next item; if there is none, the array is too short for what is expected. -/
def Cursor.next {α : Type} (c : Cursor) (expected : String) (read : Doc → Result α) :
    Result (α × Cursor) :=
  match c.left with
  | d :: rest => do
    let a ← read d
    return (a, { c with left := rest, passed := c.passed + 1 })
  | [] => lift (Json.finish c.stop ()) >>= fun _ => .error (.wrongLength c.passed expected)

/-- Read the next item, or take a value that stands for one that is left out, which is passed all
the same. -/
def Cursor.nextOr {α : Type} (c : Cursor) (absent : α) (read : Doc → Result α) :
    Result (α × Cursor) :=
  match c.left with
  | d :: rest => do
    let a ← read d
    return (a, { c with left := rest, passed := c.passed + 1 })
  | [] => do
    lift (Json.finish c.stop ())
    return (absent, { c with passed := c.passed + 1 })

/-- A count of elements in words. -/
def countElements (n : Nat) : String :=
  if n = 1 then "1 element" else toString n ++ " elements"

/-- How many items there are, if some are left over when all fields have been passed. -/
def Cursor.total (c : Cursor) : Nat := c.passed + c.left.length

/-- End an array.  Items that are left over make it too long. -/
def Cursor.close (c : Cursor) (medium : Medium) : Result Unit :=
  if c.left.isEmpty then lift (Json.finish c.stop ())
  else
    match medium with
    | .text => .error (.flawed .malformed)
    | .value => .error (.wrongLength c.total "fewer elements in array")
    | .aside => .error (.wrongLength c.total (countElements c.passed ++ " in sequence"))

/-- A structure, read from an object by one reader or from an array by another. -/
def structured {α : Type} (expected : String)
    (ofMembers : List (Token String × Doc) → Option Stop → Result α)
    (ofItems : Cursor → Result α) : Doc → Result α
  | .obj ms stop => ofMembers ms stop
  | .arr items stop => ofItems (.start items stop)
  | d => wrongKind expected d

end CallGraph.Decode
