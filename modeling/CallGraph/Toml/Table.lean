import CallGraph.Table
import CallGraph.Toml.Value

/-!
# How tables come to be

Tables are made by headers, by the inner parts of headers, and by the inner parts of keys.  A table
may be made once only: a header may take over a table that another header merely passed through,
and a key may pass through tables that keys made, but neither may change what is complete.

Main results:

- Theorems `insert_fresh` and `insert_taken` say when a key can be given a value in a table.
-/

namespace CallGraph.Toml

/-- How a table came to be. -/
inductive Origin where
  /-- It has a header of its own, or is the document. -/
  | header
  /-- The header of another table passed through it. -/
  | passed
  /-- A key with several parts passed through it. -/
  | dotted
  deriving DecidableEq, Repr

/-- An entry of a table in the making. -/
inductive Item where
  | value (v : Value)
  | table (origin : Origin) (items : List (String × Item))
  /-- An array of tables: the earlier ones, last first, and the one that can still grow. -/
  | tables (earlier : List (List (String × Item))) (last : List (String × Item))
  deriving Inhabited

/-- The entries of a table in the making. -/
abbrev Items := List (String × Item)

/-- Change the table at the end of a path.  Missing tables on the way are made. -/
def descend (made : Origin) (change : Origin → Items → Option Items) :
    List String → Origin → Items → Option Items
  | [], origin, items => change origin items
  | k :: path, _, items =>
    match CallGraph.Table.find k items with
    | none => do
      let below ← descend made change path made []
      return CallGraph.Table.put k (.table made below) items
    | some (.value _) => none
    | some (.tables earlier last) => do
      let below ← descend made change path .header last
      return CallGraph.Table.put k (.tables earlier below) items
    | some (.table origin below) =>
      -- Dotted keys do not reach into a table that has a header of its own.
      if made = .dotted ∧ origin = .header then none
      else do
        let below ← descend made change path origin below
        return CallGraph.Table.put k (.table origin below) items

/-- Give a key without a value its value. -/
def insertNew (key : String) (v : Value) (items : Items) : Option Items :=
  match CallGraph.Table.find key items with
  | none => some (CallGraph.Table.put key (.value v) items)
  | some _ => none

/-- Give a key of several parts its value.  A key of one part must not extend a table that longer
keys made, and a longer key must not extend any other. -/
def insert (path : List String) (key : String) (v : Value) (origin : Origin) (items : Items) :
    Option Items :=
  descend .dotted (fun origin items =>
    if path.isEmpty = decide (origin = .dotted) then none else insertNew key v items)
    path origin items

/-- Start a table with a header.  One that was passed through before is taken over and moves to the
end. -/
def startTable (key : String) (items : Items) : Option Items :=
  match CallGraph.Table.find key items with
  | none => some (CallGraph.Table.put key (.table .header []) items)
  | some (.table .passed below) =>
    some (items.filter (fun e => e.1 ≠ key) ++ [(key, .table .header below)])
  | some _ => none

/-- Start one more table of an array. -/
def startElement (key : String) (items : Items) : Option Items :=
  match CallGraph.Table.find key items with
  | none => some (CallGraph.Table.put key (.tables [] []) items)
  | some (.tables earlier last) =>
    some (CallGraph.Table.put key (.tables (last :: earlier) []) items)
  | some _ => none

/-- In a table with a header a key of one part gets its value if it has none. -/
theorem insert_fresh {key : String} {items : Items}
    (h : CallGraph.Table.find key items = none) (v : Value) :
    insert [] key v .header items = some (CallGraph.Table.put key (.value v) items) := by
  simp [insert, descend, insertNew, h]

/-- No key gets a second value. -/
theorem insert_taken {key : String} {items : Items} {i : Item}
    (h : CallGraph.Table.find key items = some i) (v : Value) (origin : Origin) :
    insert [] key v origin items = none := by
  simp [insert, descend, insertNew, h]

/-! ## The finished table -/

mutual

/-- The value of a finished entry. -/
def Item.toValue : Item → Value
  | .value v => v
  | .table _ items => .table (finishItems items)
  | .tables earlier last => .array (finishTables earlier [.table (finishItems last)])

/-- The entries of a finished table. -/
def finishItems : List (String × Item) → Entries
  | [] => []
  | e :: rest => (e.1, e.2.toValue) :: finishItems rest

/-- The finished tables of an array, given last first, before those in `done`. -/
def finishTables : List (List (String × Item)) → List Value → List Value
  | [], done => done
  | t :: rest, done => finishTables rest (.table (finishItems t) :: done)

end

end CallGraph.Toml
