import CallGraph.Text.Hex

/-!
# Blanks, strings and keys of TOML

A reader takes something from the front of a text and leaves the rest; it fails on a text that does
not begin with what it reads.  Neither comments nor strings may hold control characters other than
the tab.

Main results:

- Theorem `skipBlanks_of_blank` says that a blank in front makes no difference.
- Theorem `readKeys_zero` says that a key has no more parts than are allowed.
-/

namespace CallGraph.Toml

/-- A reader of something at the front of a text. -/
abbrev Reader (α : Type) := List Char → Option (α × List Char)

/-! ## Blanks and ends of lines -/

/-- Blanks inside a line. -/
def isBlank (c : Char) : Bool := c = ' ' || c = '\t'

/-- Characters that may stand in a comment. -/
def isPlain (c : Char) : Bool := c = '\t' || (32 ≤ c.toNat && c.toNat ≠ 127)

/-- The text after its blanks. -/
def skipBlanks (s : List Char) : List Char := s.dropWhile isBlank

@[simp] theorem skipBlanks_of_blank {c : Char} (h : isBlank c = true) (s : List Char) :
    skipBlanks (c :: s) = skipBlanks s := by
  simp [skipBlanks, h]

/-- The text after the end of a line, which may be the end of the text. -/
def endLine : List Char → Option (List Char)
  | [] => some []
  | '\n' :: rest => some rest
  | '\r' :: '\n' :: rest => some rest
  | _ => none

/-- The text after the rest of a line that holds nothing but a comment. -/
def finishLine (s : List Char) : Option (List Char) :=
  match skipBlanks s with
  | '#' :: rest => endLine (rest.dropWhile isPlain)
  | rest => endLine rest

/-- The text after blanks, line ends and whole comments. -/
def skipGap : Bool → List Char → List Char
  | _, [] => []
  | _, '\r' :: '\n' :: rest => skipGap false rest
  | comment, c :: rest =>
    if c = '\n' then skipGap false rest
    else if comment then if isPlain c then skipGap true rest else c :: rest
    else if isBlank c then skipGap false rest
    else if c = '#' then skipGap true rest
    else c :: rest

/-- The text after a line end, if it begins with one. -/
def skipLineEnd : List Char → List Char
  | '\n' :: rest => rest
  | '\r' :: '\n' :: rest => rest
  | s => s

/-! ## Escapes -/

/-- The characters that a backslash and one letter stand for. -/
def simpleEscape (c : Char) : Option Char :=
  match c with
  | 'b' => some '\x08'
  | 't' => some '\t'
  | 'n' => some '\n'
  | 'f' => some '\x0c'
  | 'r' => some '\r'
  | '"' => some '"'
  | '\\' => some '\\'
  | _ => none

/-- How far an escape has been read. -/
inductive Escape where
  /-- The backslash has been read. -/
  | start
  /-- Some digits of a code point are still owed. -/
  | code (owed value : Nat)
  deriving DecidableEq, Repr

/-- The escape behind one more character, or the character that it stands for. -/
def Escape.step (c : Char) : Escape → Option (Escape ⊕ Char)
  | start =>
    if c = 'u' then some (.inl (.code 4 0))
    else if c = 'U' then some (.inl (.code 8 0))
    else (simpleEscape c).map .inr
  | code owed value => do
    let d ← Text.Hex.value c
    let value := 16 * value + d
    if 1 < owed then return .inl (.code (owed - 1) value)
    else if value.isValidChar then return .inr (Char.ofNat value)
    else none

/-! ## Strings -/

/-- The rest of a string between double quotes, after the characters in `done`, last first. -/
def readBasic : Option Escape → List Char → Reader String
  | _, _, [] => none
  | some e, done, c :: rest =>
    match e.step c with
    | none => none
    | some (.inl e) => readBasic (some e) done rest
    | some (.inr d) => readBasic none (d :: done) rest
  | none, done, c :: rest =>
    if c = '"' then some (String.ofList done.reverse, rest)
    else if c = '\\' then readBasic (some .start) done rest
    else if isPlain c then readBasic none (c :: done) rest
    else none

/-- The rest of a string between single quotes. -/
def readLiteral : List Char → Reader String
  | _, [] => none
  | done, c :: rest =>
    if c = '\'' then some (String.ofList done.reverse, rest)
    else if isPlain c then readLiteral (c :: done) rest
    else none

/-- The end of a string over several lines, behind its three closing quotes: up to two more of
them belong to the string. -/
def closeLines (quote : Char) (done rest : List Char) : String × List Char :=
  let n := min 2 (rest.takeWhile (· = quote)).length
  (String.ofList (done.reverse ++ List.replicate n quote), rest.drop n)

/-- What the next character of a string over several lines belongs to. -/
inductive Mode where
  | plain
  | escape (e : Escape)
  /-- A backslash at the end of a line skips the blanks and line ends that follow. -/
  | fold (broken : Bool)
  deriving DecidableEq, Repr

/-- The rest of a string between triple double quotes. -/
def readBasicLines : Mode → List Char → Reader String
  | _, _, [] => none
  | mode, done, c :: rest =>
    if c = '\r' then
      match rest with
      | '\n' :: _ => readBasicLines mode done rest
      | _ => none
    else
      let space := isBlank c || c = '\n'
      -- A fold that has passed a line end stops at the first character that is no space.
      match if mode = .fold true && !space then .plain else mode with
      | .fold broken =>
        if isBlank c then readBasicLines (.fold broken) done rest
        else if c = '\n' then readBasicLines (.fold true) done rest
        else none
      | .escape e =>
        if e = .start && space then readBasicLines (.fold (c = '\n')) done rest
        else
          match e.step c with
          | none => none
          | some (.inl e) => readBasicLines (.escape e) done rest
          | some (.inr d) => readBasicLines .plain (d :: done) rest
      | .plain =>
        if c = '\\' then readBasicLines (.escape .start) done rest
        else if c = '"' then
          match rest with
          | '"' :: '"' :: rest => some (closeLines '"' done rest)
          | _ => readBasicLines .plain ('"' :: done) rest
        else if c = '\n' || isPlain c then readBasicLines .plain (c :: done) rest
        else none

/-- The rest of a string between triple single quotes. -/
def readLiteralLines : List Char → Reader String
  | _, [] => none
  | done, c :: rest =>
    if c = '\r' then
      match rest with
      | '\n' :: _ => readLiteralLines done rest
      | _ => none
    else if c = '\'' then
      match rest with
      | '\'' :: '\'' :: rest => some (closeLines '\'' done rest)
      | _ => readLiteralLines ('\'' :: done) rest
    else if c = '\n' || isPlain c then readLiteralLines (c :: done) rest
    else none

/-- A string of any kind.  A line end right behind triple quotes is not part of it. -/
def readText : Reader String
  | '"' :: '"' :: '"' :: rest => readBasicLines .plain [] (skipLineEnd rest)
  | '"' :: rest => readBasic none [] rest
  | '\'' :: '\'' :: '\'' :: rest => readLiteralLines [] (skipLineEnd rest)
  | '\'' :: rest => readLiteral [] rest
  | _ => none

/-! ## Keys -/

/-- Characters of a key without quotes. -/
def isBare (c : Char) : Bool :=
  ('a' ≤ c && c ≤ 'z') || ('A' ≤ c && c ≤ 'Z') || ('0' ≤ c && c ≤ '9') || c = '_' || c = '-'

/-- One part of a key. -/
def readKey : Reader String
  | '"' :: rest => readBasic none [] rest
  | '\'' :: rest => readLiteral [] rest
  | s =>
    let word := s.takeWhile isBare
    if word.isEmpty then none else some (String.ofList word, s.dropWhile isBare)

/-- A key of at most `n` parts with points between them: the parts before the last, the last, and
the text behind the key and its blanks. -/
def readKeys : Nat → Reader (List String × String)
  | 0, _ => none
  | n + 1, s => do
    let (k, rest) ← readKey (skipBlanks s)
    match skipBlanks rest with
    | '.' :: rest =>
      let ((path, last), rest) ← readKeys n rest
      return ((k :: path, last), rest)
    | rest => return (([], k), rest)

@[simp] theorem readKeys_zero (s : List Char) : readKeys 0 s = none := rfl

end CallGraph.Toml
