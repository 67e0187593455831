import CallGraph.Json.Document
import CallGraph.Proofs.PrintedTokens

/-!
# Reading printed values

An indented text is read value by value.  No value begins with a blank or with a closing bracket,
and what follows a value is a comma, a new line or the end, so that a reader stops exactly where
the printer did.  The bound of the reader falls twice in each container and the text by more.

Main results:

- Theorems `Readable.arr` and `Readable.obj` say that containers are read if what they hold is.
- Theorem `Plain.readable` says that a printed value without floating-point numbers is read.
- Theorem `Plain.parse_renderPretty` says that its text is parsed as the value itself.
-/

namespace CallGraph.Json

/-- A value without floating-point numbers, whose whole numbers are signed or unsigned ones of 64
bits and whose containers are nested at most `room` deep. -/
inductive Plain : Nat → Json → Prop
  | null (room : Nat) : Plain room .null
  | bool (room : Nat) (b : Bool) : Plain room (.bool b)
  | int (room : Nat) {n : Int} (lower : -0x8000000000000000 ≤ n) (upper : n < UInt64.size) :
    Plain room (.int n)
  | str (room : Nat) (s : String) : Plain room (.str s)
  | arr {room : Nat} {items : List Json} (plain : ∀ v ∈ items, Plain room v) :
    Plain (room + 1) (.arr items)
  | obj {room : Nat} {members : List (String × Json)} (plain : ∀ m ∈ members, Plain room m.2) :
    Plain (room + 1) (.obj members)

/-! ## Blanks -/

/-- A text that begins like a value: neither with a blank nor with a closing bracket. -/
def Starts (s : List Char) : Prop := ∃ c rest, s = c :: rest ∧ c ∉ [' ', '\n', '\t', '\r', ']']

/-- A digit is no blank. -/
theorem starts_of_isDigit {c : Char} (h : isDigit c = true) (s : List Char) : Starts (c :: s) := by
  refine ⟨c, s, rfl, ?_⟩
  intro hc
  simp only [List.mem_cons, List.not_mem_nil, or_false] at hc
  rcases hc with rfl | rfl | rfl | rfl | rfl <;> cases h

/-- No blanks are skipped before a text that starts a value. -/
theorem skipBlanks_of_starts {s : List Char} (h : Starts s) (rest : List Char) :
    skipBlanks (s ++ rest) = s ++ rest := by
  obtain ⟨c, s, rfl, hc⟩ := h
  simp only [List.mem_cons, not_or] at hc
  simp [skipBlanks, hc]

/-- A bound on a text that begins like a value is not zero. -/
theorem Starts.exists_eq_add_one {s rest : List Char} (h : Starts s) {n : Nat}
    (hn : 2 * (s ++ rest).length ≤ n) : ∃ k, n = k + 1 := by
  obtain ⟨c, s, rfl, -⟩ := h
  apply Nat.exists_eq_add_one_of_ne_zero
  rw [List.cons_append, List.length_cons] at hn
  omega

@[simp] theorem length_newline (depth : Nat) : (newline depth).length = 2 * depth + 1 := by
  simp [newline]

/-- A line break with its indentation is skipped. -/
theorem skipBlanks_newline (depth : Nat) (s : List Char) :
    skipBlanks (newline depth ++ s) = skipBlanks s := by
  have hspaces (k : Nat) : skipBlanks (List.replicate k ' ' ++ s) = skipBlanks s := by
    induction k with
    | zero => rfl
    | succ k ih => simpa [List.replicate_succ, skipBlanks] using ih
  simpa [newline, skipBlanks] using hspaces (2 * depth)

/-- A number ends at a line break. -/
theorem ends_newline (depth : Nat) (s : List Char) : Ends (newline depth ++ s) := by
  intro c hc
  obtain rfl : '\n' = c := by simpa [newline] using hc
  decide

/-- A number ends at a comma. -/
theorem ends_comma (s : List Char) : Ends (',' :: s) := by
  intro c hc
  obtain rfl : ',' = c := by simpa using hc
  decide

/-- The blank after a colon is skipped before the value. -/
theorem value_space (n : Nat) (s : List Char) : Doc.value n (' ' :: s) = Doc.value n s := by
  cases n with
  | zero => rfl
  | succ n =>
    rw [Doc.value, Doc.value, skipBlanks, if_pos (Or.inl rfl)]

/-! ## The first character of a value -/

/-- A value that begins with a digit is a number. -/
theorem value_of_isDigit {c : Char} (h : isDigit c = true) (n : Nat) (s : List Char) :
    Doc.value (n + 1) (c :: s) =
      (.num (number false (c :: s)).1, (number false (c :: s)).2) := by
  have hne {d : Char} (hd : isDigit d = false) : c ≠ d := by
    rintro rfl
    rw [h] at hd
    cases hd
  have hblanks : skipBlanks (c :: s) = c :: s := by
    simpa using skipBlanks_of_starts (starts_of_isDigit h []) s
  rw [Doc.value, hblanks]
  dsimp only
  rw [if_neg (hne rfl), if_neg (hne rfl), if_neg (hne rfl), if_neg (hne rfl), if_pos h]

/-- A value that begins with a minus sign is a number. -/
theorem value_minus (n : Nat) (s : List Char) :
    Doc.value (n + 1) ('-' :: s) = (.num (number true s).1, (number true s).2) := rfl

/-- A written text begins with a quote. -/
theorem exists_writeText (name : String) (rest : List Char) :
    ∃ s, writeText name ++ rest = '"' :: s := ⟨_, rfl⟩

/-! ## Values that are read -/

/-- A value whose printed form is read as the value, up to its end. -/
structure Readable (v : Json) : Prop where
  starts : ∀ depth, Starts (v.pretty depth)
  reads : ∀ {depth n : Nat} {rest : List Char}, Ends rest →
    2 * (v.pretty depth ++ rest).length ≤ n →
      Doc.value (n + 1) (v.pretty depth ++ rest) = (Doc.ofJson v, some rest)

namespace Readable

/-- The null value is read back. -/
theorem null : Readable .null where
  starts _ := ⟨'n', _, rfl, by decide⟩
  reads _ _ := rfl

/-- Truth values are read back. -/
theorem bool (b : Bool) : Readable (.bool b) where
  starts _ := by cases b <;> exact ⟨_, _, rfl, by decide⟩
  reads _ _ := by cases b <;> rfl

/-- Negative integers are read back. -/
theorem negative {n : Nat} (hpos : 1 ≤ n) (hle : n ≤ 0x8000000000000000) :
    Readable (.int (-n)) := by
  have hpretty (depth : Nat) : (Json.int (-n)).pretty depth = '-' :: Nat.toDigits 10 n := by
    show writeInt (-n) = _
    rw [writeInt, if_pos (by omega), Int.natAbs_neg, Int.natAbs_natCast]
  constructor
  · intro depth
    rw [hpretty]
    exact ⟨_, _, rfl, by decide⟩
  · intro depth m rest hrest _
    have hsize : n < UInt64.size := lt_of_le_of_lt hle (by decide)
    rw [hpretty, List.cons_append, value_minus, number_toDigits hsize hrest, wholeNumber,
      if_pos rfl, if_pos ⟨hpos, hle⟩]
    rfl

/-- Natural numbers are read back. -/
theorem natural {n : Nat} (hn : n < UInt64.size) : Readable (.int n) := by
  have hpretty (depth : Nat) : (Json.int n).pretty depth = Nat.toDigits 10 n := by
    show writeInt n = _
    rw [writeInt, if_neg (by omega), Int.natAbs_natCast]
  obtain ⟨c, digits, hdigits⟩ := List.exists_cons_of_ne_nil (Nat.toDigits_ne_nil (n := n) (b := 10))
  have hc : isDigit c = true := isDigit_of_mem_toDigits (n := n) (by simp [hdigits])
  constructor
  · intro depth
    rw [hpretty, hdigits]
    exact starts_of_isDigit hc digits
  · intro depth m rest hrest _
    have hread := number_toDigits hn hrest false
    rw [hdigits, List.cons_append] at hread
    rw [hpretty, hdigits, List.cons_append, value_of_isDigit hc, hread]
    rfl

/-- Whole numbers that fit into 64 bits are read. -/
theorem int {n : Int} (lower : -0x8000000000000000 ≤ n) (upper : n < UInt64.size) :
    Readable (.int n) := by
  by_cases hn : n < 0
  · have habs : n = -(n.natAbs : Int) := by omega
    rw [habs]
    exact negative (by omega) (by omega)
  · have habs : n = (n.natAbs : Int) := by omega
    rw [habs]
    exact natural (by omega)

/-- Texts are read, whatever characters they have. -/
theorem str (s : String) : Readable (.str s) where
  starts _ := ⟨'"', _, rfl, by decide⟩
  reads {depth n rest} _ hn := by
    have hpretty : (Json.str s).pretty depth = writeText s := rfl
    obtain ⟨text, htext⟩ := exists_writeText s rest
    rw [hpretty, htext] at hn ⊢
    have hread := text_writeText htext (n := n) (by rw [List.length_cons] at hn; omega)
    show (Doc.str (Json.text n (.chars []) text).1, (Json.text n (.chars []) text).2) = _
    rw [hread]
    rfl

end Readable

/-! ## Arrays -/

/-- What stands before an item or a member: a comma, unless it is the first one. -/
def divider (first : Bool) : List Char := if first then [] else [',']

/-- The items of an array from some item on, each on its own line. -/
def itemLines (depth : Nat) : Bool → List Json → List Char
  | _, [] => []
  | first, v :: rest =>
    divider first ++ (newline depth ++ (v.pretty depth ++ itemLines depth false rest))

/-- Items are written as one line for each, the first one without a comma. -/
theorem prettyItems_eq (depth : Nat) (items : List Json) :
    prettyItems depth items = itemLines depth true items := by
  induction items with
  | nil => rfl
  | cons v rest ih =>
    cases rest with
    | nil => simp [prettyItems, itemLines, divider]
    | cons v' rest =>
      rw [prettyItems, ih, itemLines, itemLines, itemLines]
      · simp [divider]
      · simp

/-- A number that is an item ends before the next line. -/
theorem ends_itemLines (depth outer : Nat) (items : List Json) (s : List Char) :
    Ends (itemLines depth false items ++ (newline outer ++ s)) := by
  cases items with
  | nil => exact ends_newline outer s
  | cons v rest => exact ends_comma _

/-- The last line of an array closes it. -/
theorem items_close (n : Nat) (first : Bool) (done : List Doc) (outer : Nat) (rest : List Char) :
    Doc.items (n + 1) first done (newline outer ++ ']' :: rest) =
      (done.reverse, none, some rest) := by
  rw [Doc.items, skipBlanks_newline]
  rfl

/-- An item on its own line. -/
theorem items_next {n depth : Nat} (first : Bool) (done : List Doc) {s rest : List Char} {d : Doc}
    (hs : Starts s) (hvalue : Doc.value n (s ++ rest) = (d, some rest)) :
    Doc.items (n + 1) first done (divider first ++ (newline depth ++ (s ++ rest))) =
      Doc.items n false (d :: done) rest := by
  have hline : skipBlanks (newline depth ++ (s ++ rest)) = s ++ rest := by
    rw [skipBlanks_newline, skipBlanks_of_starts hs]
  obtain ⟨c, s, rfl, hc⟩ := hs
  have hbracket : c ≠ ']' := by
    rintro rfl
    exact hc (by decide)
  rw [Doc.items]
  cases first with
  | true =>
    have hfirst : divider true = [] := rfl
    rw [hfirst, List.nil_append, hline, List.cons_append]
    dsimp only
    rw [if_neg hbracket, if_pos rfl, ← List.cons_append, hvalue]
  | false =>
    have hcomma (t : List Char) : skipBlanks (divider false ++ t) = ',' :: t := rfl
    rw [hcomma]
    dsimp only
    rw [if_neg (by decide), if_neg (by decide), if_pos rfl, hline]
    -- A bracket behind a comma would be refused, but no value begins with one.
    split
    · rename_i heq
      exact absurd (List.cons.inj heq).1 hbracket
    · rw [hvalue]

/-- The items of an array are read up to its closing bracket. -/
theorem items_itemLines {items : List Json} (h : ∀ v ∈ items, Readable v) (first : Bool) {n : Nat}
    (done : List Doc) {depth outer : Nat} {rest : List Char}
    (hn : 2 * (itemLines depth first items ++ (newline outer ++ ']' :: rest)).length ≤ n) :
    Doc.items (n + 1) first done (itemLines depth first items ++ (newline outer ++ ']' :: rest)) =
      (done.reverse ++ Doc.ofItems items, none, some rest) := by
  -- Each item takes one from the bound and at least a new line and a character from the text.
  induction items generalizing first n done with
  | nil =>
    rw [itemLines, List.nil_append, items_close, Doc.ofItems, List.append_nil]
  | cons v items ih =>
    obtain ⟨hv, hitems⟩ := List.forall_mem_cons.mp h
    simp only [itemLines, List.append_assoc, List.length_append, length_newline] at hn ⊢
    obtain ⟨n, rfl⟩ := Nat.exists_eq_add_one_of_ne_zero (n := n) (by omega)
    rw [items_next first done (hv.starts depth) (hv.reads (ends_itemLines depth outer items _) ?_)]
    · rw [ih hitems false, List.reverse_cons, Doc.ofItems, List.append_assoc,
        List.singleton_append]
      simp only [List.length_append, length_newline]
      omega
    · simp only [List.length_append, length_newline]
      omega

/-- An array of values that are read is read. -/
theorem Readable.arr {items : List Json} (h : ∀ v ∈ items, Readable v) :
    Readable (.arr items) := by
  have hstarts (depth : Nat) : Starts ((Json.arr items).pretty depth) := by
    cases items <;> exact ⟨'[', _, rfl, by decide⟩
  refine ⟨hstarts, ?_⟩
  intro depth n rest _ hn
  obtain ⟨n, rfl⟩ := (hstarts depth).exists_eq_add_one hn
  cases items with
  | nil => rfl
  | cons v items =>
    have hpretty : (Json.arr (v :: items)).pretty depth ++ rest =
        '[' :: (itemLines (depth + 1) true (v :: items) ++ (newline depth ++ ']' :: rest)) := by
      rw [pretty, prettyItems_eq]
      simp
    have hvalue (s : List Char) : Doc.value (n + 2) ('[' :: s) =
      (.arr (Doc.items (n + 1) true [] s).1 (Doc.items (n + 1) true [] s).2.1,
        (Doc.items (n + 1) true [] s).2.2) := rfl
    rw [hpretty, List.length_cons] at hn
    rw [hpretty, hvalue, items_itemLines h true [] (by omega)]
    rfl

/-! ## Objects -/

/-- The members of an object from some member on, each on its own line. -/
def memberLines (depth : Nat) : Bool → List (String × Json) → List Char
  | _, [] => []
  | first, m :: rest =>
    divider first ++ (newline depth ++ (writeText m.1 ++
      ':' :: ' ' :: (m.2.pretty depth ++ memberLines depth false rest)))

/-- Members are written as one line for each, the first one without a comma. -/
theorem prettyMembers_eq (depth : Nat) (members : List (String × Json)) :
    prettyMembers depth members = memberLines depth true members := by
  induction members with
  | nil => rfl
  | cons m rest ih =>
    cases rest with
    | nil => simp [prettyMembers, memberLines, divider]
    | cons m' rest =>
      rw [prettyMembers, ih, memberLines, memberLines, memberLines]
      · simp [divider]
      · simp

/-- A number that is a member ends before the next line. -/
theorem ends_memberLines (depth outer : Nat) (members : List (String × Json)) (s : List Char) :
    Ends (memberLines depth false members ++ (newline outer ++ s)) := by
  cases members with
  | nil => exact ends_newline outer s
  | cons m rest => exact ends_comma _

/-- The last line of an object closes it. -/
theorem members_close (n : Nat) (first : Bool) (done : List (Token String × Doc)) (outer : Nat)
    (rest : List Char) :
    Doc.members (n + 1) first done (newline outer ++ '\x7d' :: rest) =
      (done.reverse, none, some rest) := by
  rw [Doc.members, skipBlanks_newline]
  rfl

/-- A member on its own line. -/
theorem members_next {n depth : Nat} (first : Bool) (done : List (Token String × Doc))
    {name : String} {s rest : List Char} {d : Doc}
    (hn : (writeText name ++ ':' :: ' ' :: (s ++ rest)).length ≤ n + 1)
    (hvalue : Doc.value n (s ++ rest) = (d, some rest)) :
    Doc.members (n + 1) first done
        (divider first ++ (newline depth ++ (writeText name ++ ':' :: ' ' :: (s ++ rest)))) =
      Doc.members n false ((⟨.ok name, none⟩, d) :: done) rest := by
  obtain ⟨t, ht⟩ := exists_writeText name (':' :: ' ' :: (s ++ rest))
  have hline : skipBlanks (newline depth ++ '"' :: t) = '"' :: t := by
    rw [skipBlanks_newline]
    rfl
  have hname : text n (.chars []) t = (⟨.ok name, none⟩, some (':' :: ' ' :: (s ++ rest))) := by
    rw [ht, List.length_cons] at hn
    exact text_writeText ht (by omega)
  have hcolon : skipBlanks (':' :: ' ' :: (s ++ rest)) = ':' :: ' ' :: (s ++ rest) := rfl
  rw [ht, Doc.members]
  cases first with
  | true =>
    have hfirst : divider true = [] := rfl
    rw [hfirst, List.nil_append, hline]
    dsimp only
    rw [if_neg (by decide), if_neg (by decide), if_pos rfl]
    simp only [hname, hcolon, value_space, hvalue]
  | false =>
    have hcomma (t : List Char) : skipBlanks (divider false ++ t) = ',' :: t := rfl
    rw [hcomma]
    dsimp only
    rw [if_neg (by decide), if_neg (by decide), if_neg (by decide), hline]
    simp only [hname, hcolon, value_space, hvalue]

/-- The members of an object are read up to its closing brace. -/
theorem members_memberLines {members : List (String × Json)} (h : ∀ m ∈ members, Readable m.2)
    (first : Bool) {n : Nat} (done : List (Token String × Doc)) {depth outer : Nat}
    {rest : List Char}
    (hn : 2 * (memberLines depth first members ++ (newline outer ++ '\x7d' :: rest)).length ≤ n) :
    Doc.members (n + 1) first done
        (memberLines depth first members ++ (newline outer ++ '\x7d' :: rest)) =
      (done.reverse ++ Doc.ofMembers members, none, some rest) := by
  induction members generalizing first n done with
  | nil =>
    rw [memberLines, List.nil_append, members_close, Doc.ofMembers, List.append_nil]
  | cons m members ih =>
    obtain ⟨hm, hmembers⟩ := List.forall_mem_cons.mp h
    simp only [memberLines, List.append_assoc, List.cons_append, List.length_append,
      List.length_cons, length_newline] at hn ⊢
    obtain ⟨n, rfl⟩ := Nat.exists_eq_add_one_of_ne_zero (n := n) (by omega)
    rw [members_next first done ?_ (hm.reads (ends_memberLines depth outer members _) ?_)]
    · rw [ih hmembers false, List.reverse_cons, Doc.ofMembers, List.append_assoc,
        List.singleton_append]
      simp only [List.length_append, List.length_cons, length_newline]
      omega
    · simp only [List.length_append, List.length_cons, length_newline]
      omega
    · simp only [List.length_append, List.length_cons, length_newline]
      omega

/-- An object of values that are read is read. -/
theorem Readable.obj {members : List (String × Json)} (h : ∀ m ∈ members, Readable m.2) :
    Readable (.obj members) := by
  have hstarts (depth : Nat) : Starts ((Json.obj members).pretty depth) := by
    cases members <;> exact ⟨'\x7b', _, rfl, by decide⟩
  refine ⟨hstarts, ?_⟩
  intro depth n rest _ hn
  obtain ⟨n, rfl⟩ := (hstarts depth).exists_eq_add_one hn
  cases members with
  | nil => rfl
  | cons m members =>
    have hpretty : (Json.obj (m :: members)).pretty depth ++ rest = '\x7b' ::
        (memberLines (depth + 1) true (m :: members) ++ (newline depth ++ '\x7d' :: rest)) := by
      rw [pretty, prettyMembers_eq]
      simp
    have hvalue (s : List Char) : Doc.value (n + 2) ('\x7b' :: s) =
      (.obj (Doc.members (n + 1) true [] s).1 (Doc.members (n + 1) true [] s).2.1,
        (Doc.members (n + 1) true [] s).2.2) := rfl
    rw [hpretty, List.length_cons] at hn
    rw [hpretty, hvalue, members_memberLines h true [] (by omega)]
    rfl

/-! ## Whole texts -/

namespace Plain

/-- A printed value without floating-point numbers is read. -/
theorem readable {room : Nat} {v : Json} (h : Plain room v) : Readable v := by
  induction h with
  | null => exact .null
  | bool _ b => exact .bool b
  | int _ lower upper => exact .int lower upper
  | str _ s => exact .str s
  | arr _ ih => exact .arr ih
  | obj _ ih => exact .obj ih

/-- Items that were values once are buffered as these values. -/
theorem bufferItems_ofItems {room : Nat} {items : List Json}
    (h : ∀ v ∈ items, (Doc.ofJson v).buffer room = .ok v) :
    Doc.bufferItems room (Doc.ofItems items) = .ok items := by
  induction items with
  | nil => rfl
  | cons v rest ih =>
    obtain ⟨hv, hrest⟩ := List.forall_mem_cons.mp h
    rw [Doc.ofItems, Doc.bufferItems, hv, ih hrest]
    rfl

/-- Members that were values once are buffered as these values. -/
theorem bufferMembers_ofMembers {room : Nat} {members : List (String × Json)}
    (h : ∀ m ∈ members, (Doc.ofJson m.2).buffer room = .ok m.2) :
    Doc.bufferMembers room (Doc.ofMembers members) = .ok members := by
  induction members with
  | nil => rfl
  | cons m rest ih =>
    obtain ⟨hm, hrest⟩ := List.forall_mem_cons.mp h
    rw [Doc.ofMembers, Doc.bufferMembers, hm, ih hrest]
    rfl

/-- A value that is nested less deep than a document may be is taken whole. -/
theorem buffer_ofJson {room : Nat} {v : Json} (h : Plain room v) :
    (Doc.ofJson v).buffer (room + 1) = .ok v := by
  induction h with
  | null | bool | int | str => rfl
  | arr _ ih =>
    rw [Doc.ofJson, Doc.buffer, if_neg (by omega), Nat.add_sub_cancel, bufferItems_ofItems ih]
    rfl
  | obj _ ih =>
    rw [Doc.ofJson, Doc.buffer, if_neg (by omega), Nat.add_sub_cancel, bufferMembers_ofMembers ih]
    rfl

/-- The indented text of a value with a line feed is the document of this value. -/
theorem ofString_renderPretty {room : Nat} {v : Json} (h : Plain room v) :
    Doc.ofString (v.renderPretty ++ "\n") = (Doc.ofJson v, false) := by
  have htext : (v.renderPretty ++ "\n").toList = v.pretty 0 ++ ['\n'] := by
    simp [renderPretty]
  have hends : Ends ['\n'] := ends_newline 0 []
  rw [Doc.ofString, htext, h.readable.reads hends (by omega)]
  rfl

/-- The indented text of a value with a line feed is parsed as the value itself. -/
theorem parse_renderPretty {v : Json} (h : Plain 127 v) :
    parse (v.renderPretty ++ "\n") = .ok v := by
  have hbuffer : (Doc.ofJson v).buffer maxRoom = .ok v := h.buffer_ofJson
  rw [parse, h.ofString_renderPretty]
  simp only [hbuffer]
  rfl

end Plain

end CallGraph.Json
