/-
Reading JSON text.

Blanks between the parts are spaces, tabs, newlines and carriage returns. A
whole number that fits 64 bits is a whole number; every other number is the
nearest one of the 64 bit format, and one past the greatest is read as the
greatest. An object keeps every member that is written, also two of one name.

A `\u` escape has four digits, and two that make a pair are one character. An
escape may write one half of a pair without the other. Such a string keeps to
the rules of writing and stands for no text: it is none here. A reader that
passes a part over does not mind it; a reader that needs the text does.
-/
import StoryLang.Decimal.Binary64
import StoryLang.Json.Basic

namespace StoryLang.Json

/-- A JSON value as it is written. A string that stands for no text is none,
also as the name of a member. -/
inductive Written where
  | null
  | bool (b : Bool)
  | int (n : Int)
  | float (x : Binary64)
  | str (s : Option String)
  | arr (items : List Written)
  | obj (members : List (Option String × Written))
  deriving Inhabited, Repr

namespace Written

mutual

/-- The value that is written, if every string in it stands for a text. -/
def value? : Written → Option Json
  | null => some .null
  | bool b => some (.bool b)
  | int n => some (.int n)
  | float x => some (.float x)
  | str s => s.map .str
  | arr items => (itemValues? items).map .arr
  | obj members => (memberValues? members).map .obj

/-- The values of the items of a list. -/
def itemValues? : List Written → Option (List Json)
  | [] => some []
  | v :: rest => do
    let v ← value? v
    let rest ← itemValues? rest
    some (v :: rest)

/-- The names and values of the members of an object. -/
def memberValues? : List (Option String × Written) → Option (List (String × Json))
  | [] => some []
  | (key, v) :: rest => do
    let key ← key
    let v ← value? v
    let rest ← memberValues? rest
    some ((key, v) :: rest)

end

mutual

/-- A value, written. -/
def ofJson : Json → Written
  | .null => null
  | .bool b => bool b
  | .int n => int n
  | .float x => float x
  | .str s => str (some s)
  | .arr items => arr (ofItems items)
  | .obj members => obj (ofMembers members)

/-- The items of a list, written. -/
def ofItems : List Json → List Written
  | [] => []
  | v :: rest => ofJson v :: ofItems rest

/-- The members of an object, written. -/
def ofMembers : List (String × Json) → List (Option String × Written)
  | [] => []
  | (key, v) :: rest => (some key, ofJson v) :: ofMembers rest

end

mutual

/-- What is written of a value is that value. -/
theorem value?_ofJson : (v : Json) → (ofJson v).value? = some v
  | .null | .bool _ | .int _ | .float _ | .str _ => rfl
  | .arr items => by simp [ofJson, value?, itemValues?_ofItems items]
  | .obj members => by simp [ofJson, value?, memberValues?_ofMembers members]

theorem itemValues?_ofItems : (items : List Json) → itemValues? (ofItems items) = some items
  | [] => rfl
  | v :: rest => by simp [ofItems, itemValues?, value?_ofJson v, itemValues?_ofItems rest]

theorem memberValues?_ofMembers :
    (members : List (String × Json)) → memberValues? (ofMembers members) = some members
  | [] => rfl
  | (key, v) :: rest => by
    simp [ofMembers, memberValues?, value?_ofJson v, memberValues?_ofMembers rest]

end

end Written

/-- The text after the blanks at its start. -/
def skipBlanks : List Char → List Char
  | [] => []
  | c :: cs => if c = ' ' ∨ c = '\t' ∨ c = '\n' ∨ c = '\r' then skipBlanks cs else c :: cs

/-- The value of a hexadecimal digit. -/
def hexValue? (c : Char) : Option Nat :=
  if '0' ≤ c ∧ c ≤ '9' then some (c.toNat - 48)
  else if 'a' ≤ c ∧ c ≤ 'f' then some (c.toNat - 87)
  else if 'A' ≤ c ∧ c ≤ 'F' then some (c.toNat - 55)
  else none

/-- Four hexadecimal digits and what follows them. -/
def hexFour? : List Char → Option (Nat × List Char)
  | a :: b :: c :: d :: rest => do
    let a ← hexValue? a
    let b ← hexValue? b
    let c ← hexValue? c
    let d ← hexValue? d
    some (((a * 16 + b) * 16 + c) * 16 + d, rest)
  | _ => none

/-- The second half of a pair, written as an escape, and what follows it. -/
def lowHalf? : List Char → Option (Nat × List Char)
  | '\\' :: 'u' :: cs => (hexFour? cs).filter fun (n, _) => 0xDC00 ≤ n ∧ n < 0xE000
  | _ => none

/-- The character of a `\u` escape and what follows it. The two halves of a
pair make one character; a half alone is no character. -/
def unicodeEscape? (cs : List Char) : Option (Option Char × List Char) := do
  let (n, rest) ← hexFour? cs
  if 0xD800 ≤ n ∧ n < 0xDC00 then
    match lowHalf? rest with
    | some (m, rest) =>
      some (some (Char.ofNat (0x10000 + (n - 0xD800) * 0x400 + (m - 0xDC00))), rest)
    | none => some (none, rest)
  else if 0xDC00 ≤ n ∧ n < 0xE000 then some (none, rest)
  else some (some (Char.ofNat n), rest)

/-- The character of an escape of one letter. -/
def letterEscape? (c : Char) : Option Char :=
  if c = '"' ∨ c = '\\' ∨ c = '/' then some c
  else if c = 'n' then some '\n'
  else if c = 't' then some '\t'
  else if c = 'r' then some '\r'
  else if c = 'b' then some (Char.ofNat 8)
  else if c = 'f' then some (Char.ofNat 12)
  else none

/-- The characters of a string up to its closing quote, in reverse, and what
follows the quote. A control character has to be escaped. -/
def stringBody? : Nat → List (Option Char) → List Char → Option (List (Option Char) × List Char)
  | 0, _, _ => none
  | _ + 1, _, [] => none
  | fuel + 1, acc, c :: cs =>
    if c = '"' then some (acc, cs)
    else if c.toNat < 32 then none
    else if c ≠ '\\' then stringBody? fuel (some c :: acc) cs
    else match cs with
      | [] => none
      | 'u' :: more =>
        match unicodeEscape? more with
        | none => none
        | some (d, rest) => stringBody? fuel (d :: acc) rest
      | d :: more =>
        match letterEscape? d with
        | none => none
        | some d => stringBody? fuel (some d :: acc) more

/-- A string from behind its opening quote, and the text it stands for if each
of its escapes is a character. -/
def string? (fuel : Nat) (cs : List Char) : Option (Option String × List Char) :=
  (stringBody? fuel [] cs).map fun (acc, rest) => ((acc.reverse.mapM id).map String.ofList, rest)

/-- A number: no sign but a minus, no zero in front, digits on both sides of a point. -/
def number? (cs : List Char) : Option (Written × List Char) := do
  let (negative, body) := match cs with
    | '-' :: rest => (true, rest)
    | _ => (false, cs)
  let whole := body.takeWhile Text.isDigit
  let rest := body.dropWhile Text.isDigit
  if whole.isEmpty ∨ (1 < whole.length ∧ whole.head? = some '0') then none
  let (fraction, rest) ← match rest with
    | '.' :: more =>
      if (more.takeWhile Text.isDigit).isEmpty then none
      else some ('.' :: more.takeWhile Text.isDigit, more.dropWhile Text.isDigit)
    | _ => some ([], rest)
  let (power, rest) ← match rest with
    | c :: more =>
      if c = 'e' ∨ c = 'E' then
        let (sign, more) := match more with
          | '+' :: after => (['+'], after)
          | '-' :: after => (['-'], after)
          | _ => ([], more)
        if (more.takeWhile Text.isDigit).isEmpty then none
        else some ('e' :: sign ++ more.takeWhile Text.isDigit, more.dropWhile Text.isDigit)
      else some ([], rest)
    | [] => some ([], rest)
  let n := (Text.digits? whole).getD 0
  let isWhole := fraction.isEmpty && power.isEmpty
  if isWhole ∧ ¬ negative ∧ n ≤ Text.maxUnsigned64 then some (.int n, rest)
  else if isWhole ∧ negative ∧ 0 < n ∧ n ≤ Text.maxSigned64 + 1 then some (.int (-n), rest)
  else match Binary64.unsigned? negative (whole ++ fraction ++ power) with
    | some (.finite x) => some (.float x, rest)
    | _ => some (.float (.greatest negative), rest)

mutual

/-- A value and what follows it. -/
def written? : Nat → List Char → Option (Written × List Char)
  | 0, _ => none
  | fuel + 1, cs =>
    match skipBlanks cs with
    | '\x7b' :: rest =>
      match skipBlanks rest with
      | '\x7d' :: rest => some (.obj [], rest)
      | rest => (members? fuel rest).map fun (members, rest) => (.obj members, rest)
    | '[' :: rest =>
      match skipBlanks rest with
      | ']' :: rest => some (.arr [], rest)
      | rest => (items? fuel rest).map fun (items, rest) => (.arr items, rest)
    | '"' :: rest => (string? fuel rest).map fun (s, rest) => (.str s, rest)
    | 't' :: 'r' :: 'u' :: 'e' :: rest => some (.bool true, rest)
    | 'f' :: 'a' :: 'l' :: 's' :: 'e' :: rest => some (.bool false, rest)
    | 'n' :: 'u' :: 'l' :: 'l' :: rest => some (.null, rest)
    | rest => number? rest

/-- The items of a list that has some, up to and with the closing bracket. -/
def items? : Nat → List Char → Option (List Written × List Char)
  | 0, _ => none
  | fuel + 1, cs =>
    match written? fuel cs with
    | none => none
    | some (v, rest) =>
      match skipBlanks rest with
      | ']' :: rest => some ([v], rest)
      | ',' :: rest => (items? fuel rest).map fun (items, rest) => (v :: items, rest)
      | _ => none

/-- The members of an object that has some, up to and with the closing brace. -/
def members? : Nat → List Char → Option (List (Option String × Written) × List Char)
  | 0, _ => none
  | fuel + 1, cs =>
    match skipBlanks cs with
    | '"' :: rest =>
      match string? fuel rest with
      | none => none
      | some (key, rest) =>
        match skipBlanks rest with
        | ':' :: rest =>
          match written? fuel rest with
          | none => none
          | some (v, rest) =>
            match skipBlanks rest with
            | '\x7d' :: rest => some ([(key, v)], rest)
            | ',' :: rest =>
              (members? fuel rest).map fun (members, rest) => ((key, v) :: members, rest)
            | _ => none
        | _ => none
    | _ => none

end

/-- What a text writes, with nothing but blanks around it. -/
def Written.read? (s : String) : Option Written :=
  let cs := s.toList
  match written? (2 * cs.length + 3) cs with
  | some (v, rest) => if (skipBlanks rest).isEmpty then some v else none
  | none => none

/-- The value a text holds. -/
def read? (s : String) : Option Json := (Written.read? s).bind Written.value?

end StoryLang.Json
