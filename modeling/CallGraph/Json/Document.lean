import CallGraph.Json.Token
import CallGraph.Json.Value

/-!
# JSON documents

A document is what a text offers to a reader who goes through it from left to right: a tree that
may break off.  Reading a document for a certain shape meets its faults in the order of the text,
so that a wrong value is found before a flaw that stands behind it, and parts that nobody asks for
are skipped with fewer demands.

Main results:

- Theorem `ofItems_eq_map` says which document an array offers.
- Theorem `buffer_ofJson_int` says that a whole number is read back as itself.
-/

namespace CallGraph.Json

/-- A JSON text as it is met from left to right. -/
inductive Doc where
  | null
  | bool (b : Bool)
  | num (token : Token Number)
  | str (token : Token String)
  /-- The items of an array, and why it breaks off before its end. -/
  | arr (items : List Doc) (stop : Option Stop)
  /-- The members of an object, and why it breaks off before its end. -/
  | obj (members : List (Token String × Doc)) (stop : Option Stop)
  /-- Nothing that begins a value. -/
  | broken (stop : Stop)
  deriving Inhabited

/-! ## Reading a text -/

/-- The text after its blanks. -/
def skipBlanks : List Char → List Char
  | [] => []
  | c :: rest =>
    if c = ' ' ∨ c = '\n' ∨ c = '\t' ∨ c = '\r' then skipBlanks rest else c :: rest

/-- The rest of a text after a fixed word. -/
def word : List Char → List Char → Except Stop (List Char)
  | [], s => .ok s
  | _ :: _, [] => .error .truncated
  | w :: ws, c :: rest => if c = w then word ws rest else .error .malformed

/-- A value that a fixed word spells. -/
def wordValue (value : Doc) (letters s : List Char) : Doc × Option (List Char) :=
  match word letters s with
  | .ok rest => (value, some rest)
  | .error stop => (.broken stop, none)

mutual

/-- The value at the start of a text, and the rest unless the text breaks off.  The bound exceeds
twice the length of the text. -/
def Doc.value : Nat → List Char → Doc × Option (List Char)
  | 0, _ => (.broken .truncated, none)
  | n + 1, s =>
    match skipBlanks s with
    | [] => (.broken .truncated, none)
    | c :: rest =>
      if c = '"' then
        let (token, rest) := text n (.chars []) rest
        (.str token, rest)
      else if c = '[' then
        let (items, stop, rest) := Doc.items n true [] rest
        (.arr items stop, rest)
      else if c = '\x7b' then
        let (members, stop, rest) := Doc.members n true [] rest
        (.obj members stop, rest)
      else if c = '-' then
        let (token, rest) := number true rest
        (.num token, rest)
      else if isDigit c then
        let (token, rest) := number false (c :: rest)
        (.num token, rest)
      else if c = 'n' then wordValue .null ['u', 'l', 'l'] rest
      else if c = 't' then wordValue (.bool true) ['r', 'u', 'e'] rest
      else if c = 'f' then wordValue (.bool false) ['a', 'l', 's', 'e'] rest
      else (.broken .malformed, none)

/-- The items of an array up to its closing bracket, after those in `done`, last first. -/
def Doc.items : Nat → Bool → List Doc → List Char → List Doc × Option Stop × Option (List Char)
  | 0, _, done, _ => (done.reverse, some .truncated, none)
  | n + 1, first, done, s =>
    match skipBlanks s with
    | [] => (done.reverse, some .truncated, none)
    | c :: rest =>
      if c = ']' then (done.reverse, none, some rest)
      else if first then
        match Doc.value n (c :: rest) with
        | (v, some rest) => Doc.items n false (v :: done) rest
        | (v, none) => ((v :: done).reverse, none, none)
      else if c = ',' then
        -- A comma asks for one more item.
        match skipBlanks rest with
        | ']' :: _ => (done.reverse, some .malformed, none)
        | rest =>
          match Doc.value n rest with
          | (v, some rest) => Doc.items n false (v :: done) rest
          | (v, none) => ((v :: done).reverse, none, none)
      else (done.reverse, some .malformed, none)

/-- The members of an object up to its closing brace, after those in `done`, last first. -/
def Doc.members : Nat → Bool → List (Token String × Doc) → List Char →
    List (Token String × Doc) × Option Stop × Option (List Char)
  | 0, _, done, _ => (done.reverse, some .truncated, none)
  | n + 1, first, done, s =>
    match skipBlanks s with
    | [] => (done.reverse, some .truncated, none)
    | c :: rest =>
      if c = '\x7d' then (done.reverse, none, some rest)
      else if !first && c ≠ ',' then (done.reverse, some .malformed, none)
      else
        match (if first then c :: rest else skipBlanks rest) with
        | [] => (done.reverse, some .truncated, none)
        | '"' :: rest =>
          match text n (.chars []) rest with
          | (name, none) => (((name, .broken .malformed) :: done).reverse, none, none)
          | (name, some rest) =>
            match skipBlanks rest with
            | [] => (((name, .broken .truncated) :: done).reverse, none, none)
            | ':' :: rest =>
              match Doc.value n rest with
              | (v, some rest) => Doc.members n false ((name, v) :: done) rest
              | (v, none) => (((name, v) :: done).reverse, none, none)
            | _ => (((name, .broken .malformed) :: done).reverse, none, none)
        | _ => (done.reverse, some .malformed, none)

end

/-- The document of a text, and whether anything stands behind it. -/
def Doc.ofString (s : String) : Doc × Bool :=
  let cs := s.toList
  match Doc.value (2 * cs.length + 2) cs with
  | (doc, some rest) => (doc, !(skipBlanks rest).isEmpty)
  | (doc, none) => (doc, false)

/-! ## Taking a document whole -/

/-- The failure that a container breaks off with. -/
def finish {α : Type} (stop : Option Stop) (a : α) : Except Stop α :=
  match stop with
  | some s => .error s
  | none => .ok a

/-- Skipping a token. -/
def Token.pass {α : Type} (t : Token α) : Except Stop Unit := finish t.skip ()

mutual

/-- Skip a part of a document. -/
def Doc.skip : Doc → Except Stop Unit
  | .null | .bool _ => .ok ()
  | .num t => t.pass
  | .str t => t.pass
  | .arr items stop => do Doc.skipItems items; finish stop ()
  | .obj members stop => do Doc.skipMembers members; finish stop ()
  | .broken stop => .error stop

/-- Skip the items of an array. -/
def Doc.skipItems : List Doc → Except Stop Unit
  | [] => .ok ()
  | v :: rest => do v.skip; Doc.skipItems rest

/-- Skip the members of an object. -/
def Doc.skipMembers : List (Token String × Doc) → Except Stop Unit
  | [] => .ok ()
  | m :: rest => do m.1.pass; m.2.skip; Doc.skipMembers rest

end

mutual

/-- The value of a whole document.  Containers may be nested less than `room` deep. -/
def Doc.buffer (room : Nat) : Doc → Except Stop Json
  | .null => .ok .null
  | .bool b => .ok (.bool b)
  | .num t => t.read.map fun n => match n with
    | .int n => .int n
    | .float x => .float x
  | .str t => t.read.map .str
  | .arr items stop =>
    if room ≤ 1 then .error .malformed
    else do
      let values ← Doc.bufferItems (room - 1) items
      finish stop (.arr values)
  | .obj members stop =>
    if room ≤ 1 then .error .malformed
    else do
      let values ← Doc.bufferMembers (room - 1) members
      finish stop (.obj values)
  | .broken stop => .error stop

/-- The values of the items of an array. -/
def Doc.bufferItems (room : Nat) : List Doc → Except Stop (List Json)
  | [] => .ok []
  | v :: rest => do
    let v ← v.buffer room
    let rest ← Doc.bufferItems room rest
    return v :: rest

/-- The names and values of the members of an object. -/
def Doc.bufferMembers (room : Nat) : List (Token String × Doc) → Except Stop (List (String × Json))
  | [] => .ok []
  | m :: rest => do
    let name ← m.1.read
    let v ← m.2.buffer room
    let rest ← Doc.bufferMembers room rest
    return (name, v) :: rest

end

/-- How deep the containers of a text may be nested, less one. -/
def maxRoom : Nat := 128

/-- The value of a text. -/
def parse (s : String) : Except Stop Json :=
  let (doc, trailing) := Doc.ofString s
  do
    let v ← doc.buffer maxRoom
    if trailing then .error .malformed else .ok v

/-! ## The document of a value -/

mutual

/-- A value as a document that nowhere breaks off. -/
def Doc.ofJson : Json → Doc
  | .null => .null
  | .bool b => .bool b
  | .int n => .num ⟨.ok (.int n), none⟩
  | .float x => .num ⟨.ok (.float x), none⟩
  | .str s => .str ⟨.ok s, none⟩
  | .arr items => .arr (Doc.ofItems items) none
  | .obj members => .obj (Doc.ofMembers members) none

/-- The documents of the items of an array. -/
def Doc.ofItems : List Json → List Doc
  | [] => []
  | v :: rest => Doc.ofJson v :: Doc.ofItems rest

/-- The documents of the members of an object. -/
def Doc.ofMembers : List (String × Json) → List (Token String × Doc)
  | [] => []
  | m :: rest => (⟨.ok m.1, none⟩, Doc.ofJson m.2) :: Doc.ofMembers rest

end

/-- The items of an array are read one after the other. -/
theorem ofItems_eq_map (items : List Json) : Doc.ofItems items = items.map Doc.ofJson := by
  induction items with
  | nil => simp [Doc.ofItems]
  | cons v rest ih => simp [Doc.ofItems, ih]

/-- A whole number is read back as itself. -/
@[simp] theorem buffer_ofJson_int (room : Nat) (n : Int) :
    (Doc.ofJson (.int n)).buffer room = .ok (.int n) := by
  simp [Doc.ofJson, Doc.buffer, Except.map]

end CallGraph.Json
