/-
What the records of a script consist of: values, and the arguments, mutations
and types that stand among them.

Every one is written as an object that says first what it is. Only the names
of a path are written bare, and an entry of a map is written as a pair.
-/
import StoryLang.Json.Basic
import StoryLang.Token.Kind

namespace StoryLang

/-- What an expression does with its operands. -/
inductive Operation where
  | sum | subtraction | multiplication | division | modulus | exponential
  | equal | notEqual | less | lessEqual | greater | greaterEqual
  | and | or | not | negative
  deriving DecidableEq, Repr

namespace Operation

def name : Operation → String
  | sum => "sum"
  | subtraction => "subtraction"
  | multiplication => "multiplication"
  | division => "division"
  | modulus => "modulus"
  | exponential => "exponential"
  | equal => "equal"
  | notEqual => "not_equal"
  | less => "less"
  | lessEqual => "less_equal"
  | greater => "greater"
  | greaterEqual => "greater_equal"
  | and => "and"
  | or => "or"
  | not => "not"
  | negative => "negative"

/-- What an operator between two operands does. -/
def between? : TokenKind → Option Operation
  | .symbol .plus => some sum
  | .symbol .minus => some subtraction
  | .symbol .star => some multiplication
  | .symbol .slash => some division
  | .symbol .percent => some modulus
  | .symbol .caret => some exponential
  | .symbol .equal => some equal
  | .symbol .notEqual => some notEqual
  | .symbol .lesser => some less
  | .symbol .lesserEqual => some lessEqual
  | .symbol .greater => some greater
  | .symbol .greaterEqual => some greaterEqual
  | .keyword .andWord => some and
  | .keyword .orWord => some or
  | _ => none

/-- What an operator before its operand does. -/
def before (operator : TokenKind) : Operation :=
  if operator = .keyword .notWord then not else negative

end Operation

/-- A value of a script. -/
inductive Value where
  | null
  | boolean (b : Bool)
  | int (n : Int)
  /-- A number, unless it is past all numbers. -/
  | float (x : Option Binary64)
  | string (s : String)
  | list (items : List Value)
  | dict (entries : List Value)
  /-- A key of a map and its value. -/
  | entry (key item : Value)
  | path (parts : List Value)
  /-- A name in a path. -/
  | name (s : String)
  | expression (operation : Operation) (operands : List Value)
  | cast (target source : Value)
  /-- A type by its name, with the types it is made of. -/
  | type (name : String) (parts : List Value)
  /-- An argument of a call, or a parameter with its type. -/
  | argument (name : String) (value : Value)
  /-- A mutation of the value before it. -/
  | mutation (name : String) (arguments : List Value)
  deriving Repr

namespace Value

/-- An object that says what it is, and its members. -/
def tagged (tag : String) (members : List (String × Json)) : Json :=
  .obj (("$OBJECT", .str tag) :: members)

mutual

/-- How a value is written. -/
def toJson : Value → Json
  | null => tagged "null" []
  | boolean b => tagged "boolean" [("boolean", .bool b)]
  | int n => tagged "int" [("int", .int n)]
  | float x => tagged "float" [("float", match x with
    | some x => .float x
    | none => .null)]
  | string s => tagged "string" [("string", .str s)]
  | list items => tagged "list" [("items", .arr (allToJson items))]
  | dict entries => tagged "dict" [("items", .arr (allToJson entries))]
  | entry key item => .arr [toJson key, toJson item]
  | path parts => tagged "path" [("paths", .arr (allToJson parts))]
  | name s => .str s
  | expression operation operands =>
    tagged "expression"
      [("expression", .str operation.name), ("values", .arr (allToJson operands))]
  | cast target source =>
    tagged "type_cast" [("type", toJson target), ("value", toJson source)]
  | type known [] => tagged "type" [("type", .str known)]
  | type known parts => tagged "type" [("type", .str known), ("values", .arr (allToJson parts))]
  | argument given value => tagged "arg" [("name", .str given), ("arg", toJson value)]
  | mutation called given =>
    tagged "mutation" [("mutation", .str called), ("args", .arr (allToJson given))]

/-- How the values of a row are written. -/
def allToJson : List Value → List Json
  | [] => []
  | v :: vs => toJson v :: allToJson vs

end

end Value

end StoryLang
