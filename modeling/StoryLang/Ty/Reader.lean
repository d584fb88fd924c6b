/-
Reading types from text: a name, and the types in brackets behind it with
commas between them.
-/
import StoryLang.Text.Blank
import StoryLang.Ty.Basic

namespace StoryLang.Ty

/-- A type without parts. -/
def plain? (name : String) : Option Ty :=
  if name = "int" then some int
  else if name = "float" then some float
  else if name = "string" then some string
  else if name = "boolean" then some boolean
  else if name = "regex" then some regex
  else if name = "time" then some time
  else if name = "any" then some any
  else if name = "object" then some anyObject
  else if name = "function" then some anyFunction
  else none

/-- The type of a name and its parts. Parts of lists and maps that are left
out are `any`. -/
def ofName? (name : String) (parts : List Ty) : Option Ty :=
  if name = "list" then
    match parts with
    | [] => some (list any)
    | [element] => some (list element)
    | _ => none
  else if name = "map" then
    match parts with
    | [] => some (map any any)
    | [key] => some (map key any)
    | [key, value] => some (map key value)
    | _ => none
  else
    match parts with
    | [] => plain? name
    | _ => none

/-- The parts of a text between the commas that stand outside all brackets. -/
def splitParts : Nat → List Char → List (List Char)
  | _, [] => [[]]
  | depth, c :: cs =>
    if c = ',' ∧ depth = 0 then [] :: splitParts depth cs
    else
      let depth := if c = '[' then depth + 1 else if c = ']' then depth - 1 else depth
      Text.consFirst c (splitParts depth cs)

/-- The text without its last character, if that is a closing bracket. -/
def dropBracket? (cs : List Char) : Option (List Char) :=
  if cs.getLast? = some ']' then some cs.dropLast else none

/-- Reads a type that has at most `fuel` characters. -/
def readWith : Nat → List Char → Option Ty
  | 0, _ => none
  | fuel + 1, raw =>
    match Text.splitFirst? '[' (Text.trim raw) with
    | none => ofName? (String.ofList (Text.trim raw)) []
    | some (name, rest) => do
      let inner ← dropBracket? rest
      let parts ← (splitParts 0 inner).mapM (readWith fuel)
      ofName? (String.ofList name) parts

/-- The type a text names. -/
def ofText? (s : String) : Option Ty := readWith (s.toList.length + 1) s.toList

end StoryLang.Ty
