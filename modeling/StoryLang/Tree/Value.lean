/-
Reading values: literals, paths, lists, maps, operators, casts and calls.

Operators are read by precedence climbing. `climb` extends a value to the
right by operators that bind tighter than `min`, and the right operand of each
is read in the same way with a `min` of its own. Parentheses leave no trace in
the tree.

Values occur within values. Every function here that needs a smaller value is
given the reader `value` for it: a number says what an operator has to bind
tighter than, and zero is below all operators. `Read.expression` ties the
knot; its first argument bounds how deep values are nested, and how many parts
a value has on one level.
-/
import StoryLang.Tree.Cursor

namespace StoryLang.Read

variable {S F : Type} [Reader S F]

/-- The kinds of tokens a value can start with. -/
def valueStart : List TokenKind :=
  [.name, .int, .float, .string, .keyword .trueWord, .keyword .falseWord, .keyword .nullWord,
    .symbol .leftBracket, .symbol .leftBrace, .symbol .leftParen, .symbol .minus,
    .keyword .notWord]

/-- One or more items with commas between them. -/
def commaSeparated (item : ReadFrom S F Tree) : Nat → ReadFrom S F (List Tree)
  | 0 => tooManySteps
  | n + 1 => do
    let first ← item
    if ← isAt (.symbol .comma) then
      let _ ← take
      let rest ← commaSeparated item n
      return first :: rest
    else return [first]

/-- A type: a name, and the types in brackets behind it. -/
def types (g : Grammar) : Nat → ReadFrom S F Tree
  | 0 => tooManySteps
  | n + 1 => do
    if !((← isAt (.keyword .functionWord)) || (← isAtName g)) then unexpected g [.name]
    let name ← leaf
    if ← isAt (.symbol .leftBracket) then
      let _ ← take
      let parts ← commaSeparated (types g n) n
      if !(← isAt (.symbol .rightBracket)) then
        unexpected g [.symbol .comma, .symbol .rightBracket]
      let _ ← take
      return .of .types (name :: parts)
    else return .of .types [name]

/-- Fields and indexes behind the root of a path. -/
def fragments (g : Grammar) (value : Nat → ReadFrom S F Tree) : Nat → ReadFrom S F (List Tree)
  | 0 => tooManySteps
  | n + 1 => do
    if ← isAt (.symbol .dot) then
      let dot ← leaf
      let field ← expectName g
      return .of .pathFragment [dot, field] :: (← fragments g value n)
    else if ← isAt (.symbol .leftBracket) then
      let opening ← leaf
      let index ← value 0
      let closing ← expect g (.symbol .rightBracket)
      return .of .pathFragment [opening, index, closing] :: (← fragments g value n)
    else return []

/-- A path: a name with fields and indexes. -/
def path (g : Grammar) (value : Nat → ReadFrom S F Tree) (n : Nat) : ReadFrom S F Tree := do
  let root ← expectName g
  return .of .path (root :: (← fragments g value n))

/-- Pairs of a name and a value. Commas between them may be left out. -/
def argumentList (g : Grammar) (value : Nat → ReadFrom S F Tree) : Nat → ReadFrom S F (List Tree)
  | 0 => tooManySteps
  | n + 1 => do
    if ← isAt .name then
      let name ← expectName g
      let _ ← expect g (.symbol .colon)
      let given ← value 0
      if ← isAt (.symbol .comma) then
        let _ ← take
      return .of .argument [name, given] :: (← argumentList g value n)
    else return []

/-- The arguments of a call. -/
def arguments (g : Grammar) (value : Nat → ReadFrom S F Tree) (n : Nat) : ReadFrom S F Tree := do
  return .of .arguments (← argumentList g value n)

/-- The outputs of a call: `as` and names. -/
def output (g : Grammar) (n : Nat) : ReadFrom S F Tree := do
  let word ← expect g (.keyword .asWord)
  return .of .output (word :: (← commaSeparated (expectName g) n))

/-- The further links of a chain of mutations, each after a `then`. -/
def links (g : Grammar) (value : Nat → ReadFrom S F Tree) : Nat → ReadFrom S F (List Tree)
  | 0 => tooManySteps
  | n + 1 => do
    if ← isAt (.keyword .thenWord) then
      let word ← leaf
      let name ← expectName g
      let given ← arguments g value n
      return .of .mutationFragment [word, name, given] :: (← links g value n)
    else return []

/-- A call behind a path: a service call, or a chain if a `then` follows. -/
def serviceTail (g : Grammar) (value : Nat → ReadFrom S F Tree) (n : Nat) (service : Tree) :
    ReadFrom S F Tree := do
  let command ← expectName g
  let given ← arguments g value n
  if ← isAt (.keyword .thenWord) then
    let first := .of .mutationFragment [command, given]
    return .of .mutation (service :: first :: (← links g value n))
  else if ← isAt (.keyword .asWord) then
    return .of .serviceCall [service, command, given, ← output g n]
  else return .of .serviceCall [service, command, given]

/-- A call behind any other value: a chain of one or more mutations. -/
def mutationTail (g : Grammar) (value : Nat → ReadFrom S F Tree) (n : Nat) (subject : Tree) :
    ReadFrom S F Tree := do
  let name ← expectName g
  let given ← arguments g value n
  let first := .of .mutationFragment [name, given]
  return .of .mutation (subject :: first :: (← links g value n))

/-- Continues a value by a call, if a name follows it. -/
def callTail (g : Grammar) (value : Nat → ReadFrom S F Tree) (n : Nat) (left : Tree) :
    ReadFrom S F Tree := do
  if ← isAt .name then
    if left.isA .path then serviceTail g value n left else mutationTail g value n left
  else return left

/-- A value that may be a call of a service or a mutation. -/
def callOrValue (g : Grammar) (value : Nat → ReadFrom S F Tree) (n : Nat) : ReadFrom S F Tree := do
  callTail g value n (← value 0)

/-- A list: items in brackets. -/
def list (g : Grammar) (value : Nat → ReadFrom S F Tree) (n : Nat) : ReadFrom S F Tree := do
  let opening ← leaf
  let items ← if ← isAt (.symbol .rightBracket) then pure [] else commaSeparated (value 0) n
  if !(← isAt (.symbol .rightBracket)) then unexpected g [.symbol .comma, .symbol .rightBracket]
  return .of .list (opening :: items ++ [← leaf])

/-- An entry of a map: a key and a value. -/
def mapItem (g : Grammar) (value : Nat → ReadFrom S F Tree) : ReadFrom S F Tree := do
  let key ← value 0
  let _ ← expect g (.symbol .colon)
  return .of .mapItem [key, ← value 0]

/-- A map: entries in braces. -/
def map (g : Grammar) (value : Nat → ReadFrom S F Tree) (n : Nat) : ReadFrom S F Tree := do
  let opening ← leaf
  let items ← if ← isAt (.symbol .rightBrace) then pure [] else commaSeparated (mapItem g value) n
  if !(← isAt (.symbol .rightBrace)) then unexpected g [.symbol .comma, .symbol .rightBrace]
  return .of .map (opening :: items ++ [← leaf])

/-- A call of a function: a name and arguments in parentheses. -/
def functionCall (g : Grammar) (value : Nat → ReadFrom S F Tree) (n : Nat) : ReadFrom S F Tree := do
  let name ← expectName g
  let opening ← expect g (.symbol .leftParen)
  let given ← arguments g value n
  if !(← isAt (.symbol .rightParen)) then unexpected g [.name, .symbol .rightParen]
  return .of .functionCall [name, opening, given, ← leaf]

/-- A value in parentheses. -/
def parenthesized (g : Grammar) (value : Nat → ReadFrom S F Tree) (n : Nat) : ReadFrom S F Tree := do
  let _ ← take
  let inner ← callOrValue g value n
  let _ ← expect g (.symbol .rightParen)
  return inner

/-- A literal of one token. -/
def literal (rule : Rule) : ReadFrom S F Tree := do return .of rule [← leaf]

/-- An operator before its operand. -/
def prefixed (g : Grammar) (value : Nat → ReadFrom S F Tree) : ReadFrom S F Tree := do
  match g.operators.before? (← kind) with
  | none => unexpected g valueStart
  | some operator =>
    let sign ← leaf
    return .of .unaryExpression [sign, ← value operator.precedence]

/-- A value up to the first operator behind it. -/
def operand (g : Grammar) (value : Nat → ReadFrom S F Tree) (n : Nat) : ReadFrom S F Tree := do
  match ← kind with
  | .name => if ← isBefore (.symbol .leftParen) then functionCall g value n else path g value n
  | .int | .float => literal .number
  | .string => literal .string
  | .keyword .trueWord | .keyword .falseWord => literal .boolean
  | .keyword .nullWord => literal .null
  | .symbol .leftBracket => list g value n
  | .symbol .leftBrace => map g value n
  | .symbol .leftParen => parenthesized g value n
  | _ => prefixed g value

/-- Extends a value to the right by casts and operators that bind tighter than `min`. -/
def climb (g : Grammar) (value : Nat → ReadFrom S F Tree) (min : Nat) :
    Nat → Tree → ReadFrom S F Tree
  | 0, _ => tooManySteps
  | n + 1, left => do
    if (← isAtCast g) && min < g.castPrecedence then
      let word ← leaf
      climb g value min n (.of .cast [left, word, ← types g n])
    else
      match g.operators.between? (← kind) with
      | none => return left
      | some operator =>
        if operator.precedence ≤ min then return left
        else
          let sign ← leaf
          let right ← value operator.rightPrecedence
          let again := (g.operators.between? (← kind)).any
            fun next => next.precedence = operator.precedence
          if operator.grouping = .none && again then unexpected g [.newline]
          climb g value min n (.of .binaryExpression [left, sign, right])

/-- A value whose operators bind tighter than a number. -/
def expression (g : Grammar) : Nat → Nat → ReadFrom S F Tree
  | 0, _ => tooManySteps
  | n + 1, min => do
    let left ← operand g (expression g n) n
    climb g (expression g n) min n left

end StoryLang.Read
