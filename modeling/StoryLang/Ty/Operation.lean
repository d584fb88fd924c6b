/-
The types of operations, and the mutations that a type has.

An operation on `any` is let through. What it gives is then known only as far
as the other operand decides it. Mutations are the operations that every value
of a type has, by name.
-/
import StoryLang.Token.Kind
import StoryLang.Ty.Basic

namespace StoryLang.Ty

/-- The type of an arithmetic operation. Two texts, lists or maps can be added. -/
def arithmetic? (op : Symbol) : Ty → Ty → Option Ty
  | any, other | other, any => some (if other.isNumeric then other else any)
  | int, int => some (if op = .slash then float else int)
  | int, float | float, int | float, float => some float
  | string, string => if op = .plus then some string else none
  | list a, list b => if op = .plus then some (list (common a b)) else none
  | map k v, map k' v' => if op = .plus then some (map (common k k') (common v v')) else none
  | _, _ => none

/-- Whether values can be compared by size. -/
def ordered : Ty → Ty → Bool
  | any, _ | _, any => true
  | string, string | time, time => true
  | a, b => a.isNumeric && b.isNumeric

/-- Whether a value can be taken for true or false. -/
def logical : Ty → Bool
  | boolean | any => true
  | _ => false

/-- The type of an operation on two operands, if it has one. -/
def between? (op : TokenKind) (left right : Ty) : Option Ty :=
  match op with
  | .symbol .plus => arithmetic? .plus left right
  | .symbol .minus => arithmetic? .minus left right
  | .symbol .star => arithmetic? .star left right
  | .symbol .slash => arithmetic? .slash left right
  | .symbol .percent => arithmetic? .percent left right
  | .symbol .caret => arithmetic? .caret left right
  | .symbol .equal | .symbol .notEqual =>
    if left.accepts right || right.accepts left then some boolean else none
  | .symbol .lesser | .symbol .lesserEqual | .symbol .greater | .symbol .greaterEqual =>
    if ordered left right then some boolean else none
  | .keyword .andWord | .keyword .orWord =>
    if left.logical && right.logical then some boolean else none
  | _ => none

/-- The type of an operation on one operand, if it has one. -/
def before? (op : TokenKind) (operand : Ty) : Option Ty :=
  match op, operand with
  | .keyword .notWord, any | .keyword .notWord, boolean => some boolean
  | _, any => some any
  | .symbol .minus, int => some int
  | .symbol .minus, float => some float
  | _, _ => none

end StoryLang.Ty

namespace StoryLang

/-- What a mutation takes and gives. All its arguments are needed. -/
structure Mutation where
  name : String
  arguments : List (String × Ty)
  returns : Ty
  deriving DecidableEq, Repr

namespace Mutation

/-- The mutations of texts. -/
def ofString : List Mutation :=
  [⟨"length", [], .int⟩, ⟨"uppercase", [], .string⟩, ⟨"lowercase", [], .string⟩,
    ⟨"capitalize", [], .string⟩, ⟨"trim", [], .string⟩,
    ⟨"split", [("by", .string)], .list .string⟩,
    ⟨"replace", [("item", .string), ("by", .string)], .string⟩,
    ⟨"contains", [("item", .string)], .boolean⟩,
    ⟨"startswith", [("prefix", .string)], .boolean⟩,
    ⟨"endswith", [("suffix", .string)], .boolean⟩,
    ⟨"substring", [("start", .int), ("end", .int)], .string⟩]

/-- The mutations of whole numbers. -/
def ofInt : List Mutation :=
  [⟨"increment", [], .int⟩, ⟨"decrement", [], .int⟩, ⟨"absolute", [], .int⟩,
    ⟨"isOdd", [], .boolean⟩, ⟨"isEven", [], .boolean⟩]

/-- The mutations of other numbers. -/
def ofFloat : List Mutation :=
  [⟨"round", [], .int⟩, ⟨"ceil", [], .int⟩, ⟨"floor", [], .int⟩, ⟨"absolute", [], .float⟩]

/-- The mutations of lists. -/
def ofList (element : Ty) : List Mutation :=
  [⟨"length", [], .int⟩, ⟨"append", [("item", element)], .list element⟩,
    ⟨"prepend", [("item", element)], .list element⟩,
    ⟨"remove", [("item", element)], .list element⟩, ⟨"reverse", [], .list element⟩,
    ⟨"sort", [], .list element⟩, ⟨"unique", [], .list element⟩, ⟨"min", [], element⟩,
    ⟨"max", [], element⟩, ⟨"sum", [], element⟩, ⟨"random", [], element⟩,
    ⟨"contains", [("item", element)], .boolean⟩, ⟨"index", [("of", element)], .int⟩,
    ⟨"join", [("by", .string)], .string⟩]

/-- The mutations of maps. -/
def ofMap (key value : Ty) : List Mutation :=
  [⟨"length", [], .int⟩, ⟨"keys", [], .list key⟩, ⟨"values", [], .list value⟩,
    ⟨"contains", [("key", key)], .boolean⟩,
    ⟨"get", [("key", key), ("default", value)], value⟩,
    ⟨"remove", [("key", key)], .map key value⟩]

/-- The mutation of that name on a value of that type. On `any` every name is one. -/
def find? (subject : Ty) (name : String) : Option Mutation :=
  match subject with
  | .string => ofString.find? (·.name = name)
  | .int => ofInt.find? (·.name = name)
  | .float => ofFloat.find? (·.name = name)
  | .list element => (ofList element).find? (·.name = name)
  | .map key value => (ofMap key value).find? (·.name = name)
  | .any => some ⟨"any", [], .any⟩
  | _ => none

end Mutation

end StoryLang
