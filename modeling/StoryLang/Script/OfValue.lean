/-
The values that the trees of values stand for.

A call has been taken out of every value by now, so a call in a value is a
defect of the tree.
-/
import StoryLang.Decimal.Binary64
import StoryLang.Fault
import StoryLang.Hoist.Pieces
import StoryLang.Script.Value
import StoryLang.Tree.Basic

namespace StoryLang.Value

/-- The value, or the defect of a tree that has none. -/
def orDefect {α : Type} (defect : Defect) : Option α → Except Fault α
  | some a => .ok a
  | none => .error (.internal defect)

mutual

/-- The type that a tree of names spells. -/
def ofTypes : Tree → Value
  | .token t => .type t.literal []
  | .node _ _ ps =>
    .type (((Tree.firstTokenOf? ps).map (·.literal)).getD "any") (ofTypesParts ps)

/-- The types that the nodes of a row spell. -/
def ofTypesParts : List Tree → List Value
  | [] => []
  | .token _ :: ts => ofTypesParts ts
  | .node r l ps :: ts => ofTypes (.node r l ps) :: ofTypesParts ts

end

mutual

/-- The text of a type, with what it is made of in brackets. -/
def typesText : Tree → String
  | .token t => t.literal
  | .node _ _ ps =>
    let known := ((Tree.firstTokenOf? ps).map (·.literal)).getD ""
    match typesTexts ps with
    | [] => known
    | texts => known ++ "[" ++ ",".intercalate texts ++ "]"

/-- The texts of the types in a row. -/
def typesTexts : List Tree → List String
  | [] => []
  | .token _ :: ts => typesTexts ts
  | .node r l ps :: ts => typesText (.node r l ps) :: typesTexts ts

end

/-- The value of a number's token. -/
def ofNumber (t : Token) : Except Fault Value :=
  if t.kind = .int then
    (Text.signed64? t.literal.toList).elim (.error (.internal (.badInt t.literal)))
      fun n => .ok (.int n)
  else
    (Binary64.literal? t.literal.toList).elim (.error (.internal (.badFloat t.literal)))
      fun x => .ok (.float x.finite?)

/-- The value of a string's token, which is kept as it was written. -/
def ofString (t : Token) : Value :=
  .string (String.ofList (Pieces.unescape t.literal.toList))

/-- The token of a row that has nothing else. -/
def onlyToken? : List Tree → Option Token
  | [.token t] => some t
  | _ => none

/-- The first token in a row. -/
def operator? (ps : List Tree) : Option Token := (ps.filterMap Tree.asToken?).head?

/-- How many nodes are in a row. -/
def nodeCount (ps : List Tree) : Nat := (ps.filter Tree.isNode).length

mutual

/-- The value that a tree stands for. -/
def ofTree : Tree → Except Fault Value
  | .token _ => .error (.internal .emptyExpression)
  | .node .number _ ps => do ofNumber (← orDefect .noNumberToken (onlyToken? ps))
  | .node .string _ ps => do return ofString (← orDefect .noStringToken (onlyToken? ps))
  | .node .boolean _ ps => do
    return .boolean ((← orDefect .noBooleanToken (onlyToken? ps)).kind = .keyword .trueWord)
  | .node .null _ _ => return .null
  | .node .list _ ps => do return .list (← ofFirst ps.length ps)
  | .node .map _ ps => do return .dict (← ofEntries ps)
  | .node .path _ ps => do return .path (← ofPathParts ps)
  | .node .binaryExpression _ ps => do
    let operator ← orDefect .noOperator (operator? ps)
    let operands ← ofFirst ps.length ps
    let operation ← orDefect (.notAnOperator operator.kind) (Operation.between? operator.kind)
    return .expression operation operands
  | .node .unaryExpression _ ps => do
    let operator ← orDefect .noOperator (operator? ps)
    if nodeCount ps = 0 then throw (.internal .noOperand)
    return .expression (.before operator.kind) (← ofFirst 1 ps)
  | .node .cast _ ps => do
    let types ← orDefect .badCast (ps.find? (·.isA .types))
    return .cast (ofTypes types) (← ofNode .badCast ps)
  | .node .expressionStatement _ ps => ofNode .emptyExpression ps
  | .node rule _ _ => .error (.internal (.notAValue rule))

/-- The value of the first node in a row, or the defect if there is none. -/
def ofNode (missing : Defect) : List Tree → Except Fault Value
  | [] => .error (.internal missing)
  | .token _ :: ts => ofNode missing ts
  | .node r l ps :: _ => ofTree (.node r l ps)

/-- The values of the first nodes in a row, at most `n` of them. -/
def ofFirst : Nat → List Tree → Except Fault (List Value)
  | _, [] => return []
  | n, .token _ :: ts => ofFirst n ts
  | 0, _ :: _ => return []
  | n + 1, .node r l ps :: ts => do
    let v ← ofTree (.node r l ps)
    return v :: (← ofFirst n ts)

/-- The entries of a map. -/
def ofEntries : List Tree → Except Fault (List Value)
  | [] => return []
  | .token _ :: ts => ofEntries ts
  | .node _ _ ps :: ts => do
    if nodeCount ps < 2 then throw (.internal .badMapItem)
    match ← ofFirst 2 ps with
    | [key, item] => return .entry key item :: (← ofEntries ts)
    | _ => throw (.internal .badMapItem)

/-- The parts of a path: names, and the values of indices. -/
def ofPathParts : List Tree → Except Fault (List Value)
  | [] => return []
  | .token t :: ts => do return .name t.literal :: (← ofPathParts ts)
  | .node _ _ ps :: ts => do
    let part ← match (ps.filterMap Tree.asToken?).find? (·.kind = .name) with
      | some field => pure (.name field.literal)
      | none => ofNode .emptyIndex ps
    return part :: (← ofPathParts ts)

end

/-- The argument that a node for one stands for. -/
def ofArgument (t : Tree) : Except Fault Value := do
  match t.firstToken?, t.node? 0 with
  | some called, some value => return .argument called.literal (← ofTree value)
  | _, _ => throw (.internal .badArgument)

/-- The arguments of the first node for them in a row. -/
def ofArguments (ps : List Tree) : Except Fault (List Value) :=
  match ps.find? (·.isA .arguments) with
  | some given => given.nodes.mapM ofArgument
  | none => return []

/-- The mutation that a link stands for. -/
def ofMutation (t : Tree) : Except Fault Value := do
  let called ← orDefect .namelessMutation (t.token? .name)
  return .mutation called.literal (← ofArguments t.parts)

end StoryLang.Value
