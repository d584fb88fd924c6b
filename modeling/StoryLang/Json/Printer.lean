/-
The compact text of a JSON value: no blanks between its parts, the members of
an object in their order, and everything that may stand in a string as it is.
-/
import StoryLang.Json.Basic

namespace StoryLang.Json

/-- One hexadecimal digit, small letters. -/
def hexDigit (n : Nat) : Char :=
  if n < 10 then Char.ofNat (48 + n) else Char.ofNat (87 + n)

/-- A character in a string. Quotes, backslashes and control characters are
escaped, the frequent ones by a letter. -/
def escapeChar (c : Char) : List Char :=
  if c = '"' then ['\\', '"']
  else if c = '\\' then ['\\', '\\']
  else if c = '\n' then ['\\', 'n']
  else if c = '\r' then ['\\', 'r']
  else if c = '\t' then ['\\', 't']
  else if c.toNat = 8 then ['\\', 'b']
  else if c.toNat = 12 then ['\\', 'f']
  else if c.toNat < 32 then
    ['\\', 'u', '0', '0', hexDigit (c.toNat / 16), hexDigit (c.toNat % 16)]
  else [c]

/-- A string between quotes. -/
def quote (s : String) : String :=
  "\"" ++ String.ofList (s.toList.flatMap escapeChar) ++ "\""

mutual

/-- The compact text of a value. -/
def text : Json → String
  | null => "null"
  | bool true => "true"
  | bool false => "false"
  | int n => toString n
  | float x => x.text
  | str s => quote s
  | arr items => "[" ++ itemsText items ++ "]"
  | obj members => "\x7b" ++ membersText members ++ "\x7d"

/-- The items with commas between them. -/
def itemsText : List Json → String
  | [] => ""
  | [v] => text v
  | v :: rest => text v ++ "," ++ itemsText rest

/-- The members with commas between them. -/
def membersText : List (String × Json) → String
  | [] => ""
  | [(key, v)] => quote key ++ ":" ++ text v
  | (key, v) :: rest => quote key ++ ":" ++ text v ++ "," ++ membersText rest

end

end StoryLang.Json
