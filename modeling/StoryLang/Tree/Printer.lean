/-
The two views of a tree: indented text, and JSON.

In the text every node and token has a line of its own, save that a node
whose only part is a token shares the token's line. In JSON, literals are
plain values, a path is the list of its parts, and every other node is an
object with its rule, its coordinate and its parts.
-/
import StoryLang.Tree.Basic
import StoryLang.Json.Basic
import StoryLang.Decimal.Binary64

namespace StoryLang.Tree

/-- Two blanks for each level. -/
def indentation (level : Nat) : String := String.ofList (List.replicate (2 * level) ' ')

mutual

/-- The lines of a tree at a level. -/
def prettyAt (level : Nat) : Tree → String
  | token t => indentation level ++ t.literal ++ "\n"
  | node rule _ ps =>
    indentation level ++ rule.name ++
      match ps with
      | [token t] => "\t" ++ t.literal ++ "\n"
      | ps => "\n" ++ prettyAll (level + 1) ps

/-- The lines of a row of trees at a level. -/
def prettyAll (level : Nat) : List Tree → String
  | [] => ""
  | t :: ts => prettyAt level t ++ prettyAll level ts

end

/-- The indented text of a tree. -/
def pretty (t : Tree) : String := t.prettyAt 0

/-- The value of a number's token: a whole number if it is one and fits 64
bits, otherwise the nearest number, and the text if there is none. -/
def numberJson (t : Token) : Json :=
  match if t.kind = .int then Text.signed64? t.literal.toList else none with
  | some n => .int n
  | none =>
    match (Binary64.literal? t.literal.toList).bind (·.finite?) with
    | some x => .float x
    | none => .str t.literal

/-- The name of a path fragment, if it is a field. -/
def fragmentName? (t : Tree) : Option String := (t.token? .name).map (·.literal)

mutual

/-- The JSON view of a tree. -/
def toJson : Tree → Json
  | token t => .str t.literal
  | node .null _ _ => .null
  | node .path _ ps => .obj [("path", .arr (pathJson ps))]
  | node rule line ps =>
    match rule, ps with
    | .number, [token t] => numberJson t
    | .string, [token t] => .obj [("string", .str t.literal)]
    | .boolean, [token t] => .bool (t.kind = .keyword .trueWord)
    | rule, ps =>
      let coord := match (node rule line ps).line? with
        | some c => [("ln", Json.str c.text)]
        | none => []
      .obj ([("rule", .str rule.name)] ++ coord ++ [("children", .arr (partsJson ps))])

/-- The JSON views of the parts of a node. -/
def partsJson : List Tree → List Json
  | [] => []
  | t :: ts => toJson t :: partsJson ts

/-- The JSON views of those parts that are nodes. -/
def nodesJson : List Tree → List Json
  | [] => []
  | token _ :: ts => nodesJson ts
  | node r l ps :: ts => toJson (node r l ps) :: nodesJson ts

/-- The parts of a path: names as texts, and the nodes of every other fragment. -/
def pathJson : List Tree → List Json
  | [] => []
  | token t :: ts => .str t.literal :: pathJson ts
  | node r l ps :: ts =>
    match fragmentName? (node r l ps) with
    | some name => .str name :: pathJson ts
    | none => nodesJson ps ++ pathJson ts

end

end StoryLang.Tree
