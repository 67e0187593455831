import CallGraph.Decimal.Shortest

/-!
# JSON values

A JSON value keeps whole numbers apart from floating-point ones and the members of an object in
the order in which they were written, repetitions included.  The sorted form of a value has the
members of each object in ascending order of their names, and of repeated names the last.

Main results:

- Theorems `sorted_int` and `sorted_str` say that scalars are their own sorted form.
- Theorem `member?_cons` says how a member is found.
-/

namespace CallGraph

/-- A JSON value. -/
inductive Json where
  | null
  | bool (b : Bool)
  | int (n : Int)
  | float (x : Binary64)
  | str (s : String)
  | arr (items : List Json)
  | obj (members : List (String × Json))
  deriving Inhabited

namespace Json

/-- The value of an absent or a present number. -/
def ofOption {α : Type} (f : α → Json) : Option α → Json
  | none => null
  | some a => f a

/-- A 64-bit number as a whole number. -/
def ofUInt64 (n : UInt64) : Json := int n.toNat

/-- The first member of a name. -/
def member? (name : String) : List (String × Json) → Option Json
  | [] => none
  | m :: rest => if m.1 = name then some m.2 else member? name rest

/-- The first member of a name counts. -/
theorem member?_cons (name : String) (m : String × Json) (rest : List (String × Json)) :
    member? name (m :: rest) = if m.1 = name then some m.2 else member? name rest := rfl

/-- Insert a member into a list sorted by name, replacing the one of the same name. -/
def insertMember (name : String) (value : Json) : List (String × Json) → List (String × Json)
  | [] => [(name, value)]
  | m :: rest =>
    if m.1 = name then (name, value) :: rest
    else if name < m.1 then (name, value) :: m :: rest
    else m :: insertMember name value rest

mutual

/-- The value with the members of every object sorted by name, the last of repeated ones kept. -/
def sorted : Json → Json
  | arr items => arr (sortedItems items)
  | obj members => obj (sortedMembers members [])
  | v => v

/-- The sorted forms of the items of an array. -/
def sortedItems : List Json → List Json
  | [] => []
  | v :: rest => v.sorted :: sortedItems rest

/-- Insert the sorted forms of members into a sorted list, from first to last. -/
def sortedMembers : List (String × Json) → List (String × Json) → List (String × Json)
  | [], done => done
  | m :: rest, done => sortedMembers rest (insertMember m.1 m.2.sorted done)

end

@[simp] theorem sorted_int (n : Int) : (int n).sorted = int n := by simp [sorted]

@[simp] theorem sorted_str (s : String) : (str s).sorted = str s := by simp [sorted]

@[simp] theorem sorted_null : null.sorted = null := by simp [sorted]

@[simp] theorem sorted_bool (b : Bool) : (bool b).sorted = bool b := by simp [sorted]

end Json

end CallGraph
