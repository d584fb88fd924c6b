/-
Reading statements, blocks and stories.

A block is a line end, an indent, statements and a dedent. What a statement
may contain depends on the blocks around it: `return` needs a function around
it, and `break` and `continue` a loop inside the innermost function.

As with values, a function that needs smaller statements is given the reader
for them, and `Read.statement` ties the knot.
-/
import StoryLang.Tree.Value

namespace StoryLang

namespace Read

variable {S F : Type} [Reader S F]

/-- How many parts a statement may have, and how deep its values may be nested. -/
abbrev Bound := Nat

/-- A value on its own, which may be a call. -/
def anyValue (g : Grammar) (n : Bound) : ReadFrom S F Tree := callOrValue g (expression g n) n

/-- A condition, or what is iterated over. -/
def condition (g : Grammar) (n : Bound) : ReadFrom S F Tree := expression g n 0

/-- Statements up to the end of their block or of the story. -/
def statements (statement : ReadFrom S F Tree) : Nat → ReadFrom S F (List Tree)
  | 0 => tooManySteps
  | n + 1 => do
    if (← isAt .dedent) || (← isAt .eof) then return []
    else
      let first ← statement
      return first :: (← statements statement n)

/-- A block from its indent on. -/
def indented (g : Grammar) (statement : ReadFrom S F Tree) (n : Bound) : ReadFrom S F Tree := within do
  let _ ← expect g .indent
  let body ← statements statement n
  let _ ← expect g .dedent
  return .of .block body

/-- A block from the end of the line before it on. -/
def block (g : Grammar) (statement : ReadFrom S F Tree) (n : Bound) : ReadFrom S F Tree := do
  let _ ← expect g .newline
  indented g statement n

/-- A statement that consists of a value: a call is a statement itself. -/
def valueStatement (g : Grammar) (n : Bound) (value : Tree) : ReadFrom S F Tree := do
  if ← isAt .name then callTail g (expression g n) n value
  else if value.rule?.any Rule.isCall then return value
  else return .of .expressionStatement [value]

/-- An assignment, a service call, or a value. The path at its start is read
once, and what follows it decides. -/
def simple (g : Grammar) (n : Bound) : ReadFrom S F Tree := do
  if (← isAt .name) && !(← isBefore (.symbol .leftParen)) then
    let target ← path g (expression g n) n
    if ← isAt (.symbol .assign) then
      let sign ← leaf
      return .of .assignment [target, sign, ← anyValue g n]
    else if ← isAt .name then serviceTail g (expression g n) n target
    else valueStatement g n (← climb g (expression g n) 0 n target)
  else valueStatement g n (← condition g n)

/-- The tree with one more part at its end. -/
def withPart (t part : Tree) : Tree :=
  match t with
  | .node rule line ps => .node rule line (ps ++ [part])
  | .token t => .token t

/-- A statement without a keyword, up to the end of its line, and the block of
a service call. -/
def simpleStatement (g : Grammar) (statement : ReadFrom S F Tree) (n : Bound) : ReadFrom S F Tree := do
  let read ← simple g n
  if !(← isAt .newline) then
    unexpected g (.newline :: if read.isA .expressionStatement then [.symbol .assign] else [])
  let _ ← take
  if read.isA .serviceCall && (← isAt .indent) then
    return withPart read (← indented g statement n)
  else return read

/-- The branches behind the first one of an `if`. -/
def branches (g : Grammar) (statement : ReadFrom S F Tree) (bound : Bound) :
    Nat → ReadFrom S F (List Tree)
  | 0 => tooManySteps
  | n + 1 => do
    if ← isAt (.keyword .elseWord) then
      startStatement
      let elseWord ← leaf
      if ← isAt (.keyword .ifWord) then
        let ifWord ← leaf
        let condition ← condition g bound
        let body ← block g statement bound
        return .of .elifBlock [elseWord, ifWord, condition, body] ::
          (← branches g statement bound n)
      else
        return [.of .elseBlock [elseWord, ← block g statement bound]]
    else return []

/-- `if` with its branches. -/
def ifBlock (g : Grammar) (statement : ReadFrom S F Tree) (n : Bound) : ReadFrom S F Tree := do
  let word ← leaf
  let condition ← condition g n
  let body ← block g statement n
  return .of .ifBlock (word :: condition :: body :: (← branches g statement n n))

/-- `foreach` over a value, naming its items. -/
def foreachBlock (g : Grammar) (body : ReadFrom S F Tree) (n : Bound) : ReadFrom S F Tree := do
  let word ← leaf
  let source ← condition g n
  if !(← isAt (.keyword .asWord)) then unexpected g [.keyword .asWord]
  let names ← output g n
  return .of .foreachBlock [word, source, names, ← inLoop (block g body n)]

/-- `while` with its condition. -/
def whileBlock (g : Grammar) (body : ReadFrom S F Tree) (n : Bound) : ReadFrom S F Tree := do
  let word ← leaf
  let condition ← condition g n
  return .of .whileBlock [word, condition, ← inLoop (block g body n)]

/-- The `catch` of a `try`, which may name the error. -/
def catchBlock (g : Grammar) (statement : ReadFrom S F Tree) (n : Bound) : ReadFrom S F Tree := do
  startStatement
  let word ← leaf
  if ← isAt (.keyword .asWord) then
    let name ← output g n
    return .of .catchBlock [word, name, ← block g statement n]
  else return .of .catchBlock [word, ← block g statement n]

/-- The `finally` of a `try`. -/
def finallyBlock (g : Grammar) (statement : ReadFrom S F Tree) (n : Bound) : ReadFrom S F Tree := do
  startStatement
  let word ← leaf
  return .of .finallyBlock [word, ← block g statement n]

/-- `try` with its handlers. -/
def tryBlock (g : Grammar) (statement : ReadFrom S F Tree) (n : Bound) : ReadFrom S F Tree := do
  let word ← leaf
  let body ← block g statement n
  let caught ←
    if ← isAt (.keyword .catchWord) then pure [← catchBlock g statement n] else pure []
  let after ←
    if ← isAt (.keyword .finallyWord) then pure [← finallyBlock g statement n] else pure []
  return .of .tryBlock (word :: body :: caught ++ after)

/-- The parameters of a function, each with its type. -/
def parameters (g : Grammar) (bound : Bound) : Nat → ReadFrom S F (List Tree)
  | 0 => tooManySteps
  | n + 1 => do
    if ← isAt .name then
      let name ← expectName g
      let _ ← expect g (.symbol .colon)
      let type ← types g bound
      return .of .parameter [name, type] :: (← parameters g bound n)
    else return []

/-- The type a function returns, if it says one. -/
def returnType (g : Grammar) (n : Bound) : ReadFrom S F (List Tree) := do
  if ← isAt (.keyword .returnsWord) then
    let word ← leaf
    return [.of .returns [word, ← types g n]]
  else return []

/-- `function` with its parameters and its body. -/
def functionBlock (g : Grammar) (body : ReadFrom S F Tree) (n : Bound) : ReadFrom S F Tree := do
  let word ← leaf
  let name ← expectName g
  let given ← parameters g n n
  let type ← returnType g n
  return .of .functionBlock (word :: name :: given ++ type ++ [← inFunction (block g body n)])

/-- `when` with its target, event, arguments and outputs. -/
def whenBlock (g : Grammar) (statement : ReadFrom S F Tree) (n : Bound) : ReadFrom S F Tree := do
  let word ← leaf
  let target ← path g (expression g n) n
  let event ← expectName g
  let given ← arguments g (expression g n) n
  if ← isAt (.keyword .asWord) then
    let names ← output g n
    return .of .whenBlock [word, target, event, given, names, ← block g statement n]
  else return .of .whenBlock [word, target, event, given, ← block g statement n]

/-- A keyword, a value that may be left out, and the end of the line. -/
def jumpWithValue (g : Grammar) (rule : Rule) (n : Bound) : ReadFrom S F Tree := do
  let word ← leaf
  let value ← if ← isAt .newline then pure [] else pure [← anyValue g n]
  let _ ← expect g .newline
  return .of rule (word :: value)

/-- `return`, inside a function. -/
def returnStatement (g : Grammar) (e : Enclosing) (n : Bound) : ReadFrom S F Tree := do
  if ← isInFunction e then jumpWithValue g .returnStatement n else refuse .returnOutsideFunction

/-- `break` or `continue`, inside a loop. -/
def loopJump (g : Grammar) (e : Enclosing) (rule : Rule) (outside : Code) : ReadFrom S F Tree := do
  if ← isInLoop e then
    let word ← leaf
    let _ ← expect g .newline
    return .of rule [word]
  else refuse outside

/-- `import` of a story under a name. -/
def importStatement (g : Grammar) : ReadFrom S F Tree := do
  let word ← leaf
  if !(← isAt .string) then unexpected g [.string]
  let file := .of .string [← leaf]
  let asWord ← expect g (.keyword .asWord)
  let name ← expectName g
  let _ ← expect g .newline
  return .of .importStatement [word, file, asWord, name]

/-- A statement by the keyword it starts with, if there is one. -/
def statementBody (g : Grammar) (statement : Enclosing → ReadFrom S F Tree) (n : Bound) (e : Enclosing) :
    ReadFrom S F Tree := do
  match ← kind with
  | .keyword .ifWord => ifBlock g (statement e) n
  | .keyword .foreachWord => foreachBlock g (statement e.loop) n
  | .keyword .whileWord => whileBlock g (statement e.loop) n
  | .keyword .tryWord => tryBlock g (statement e) n
  | .keyword .functionWord => functionBlock g (statement .function) n
  | .keyword .whenWord => whenBlock g (statement e) n
  | .keyword .returnWord => returnStatement g e n
  | .keyword .breakWord => loopJump g e .breakStatement .breakOutsideLoop
  | .keyword .continueWord => loopJump g e .continueStatement .continueOutsideLoop
  | .keyword .throwWord => jumpWithValue g .throwStatement n
  | .keyword .importWord => importStatement g
  | _ => simpleStatement g (statement e) n

/-- A statement. -/
def statement (g : Grammar) : Nat → Enclosing → ReadFrom S F Tree
  | 0, _ => tooManySteps
  | n + 1, e => do
    startStatement
    statementBody g (statement g n) n e

/-- Statements up to the end of the story. -/
def storyStatements (statement : ReadFrom S F Tree) : Nat → ReadFrom S F (List Tree)
  | 0 => tooManySteps
  | n + 1 => do
    if ← isAt .eof then return []
    else
      let first ← statement
      return first :: (← storyStatements statement n)

/-- A story. -/
def story (g : Grammar) (n : Bound) : ReadFrom S F Tree := do
  return .of .start (← storyStatements (statement g n .story) n)

/-- A value alone, such as the code in a string. -/
def fragment (g : Grammar) (n : Bound) : ReadFrom S F Tree := do
  let value ← anyValue g n
  if (← isAt .newline) || (← isAt .eof) then return value else unexpected g [.eof]

/-- Enough steps for some tokens: every level and every part takes a token. -/
def bound (tokens : List Token) : Bound := 2 * tokens.length + 4

end Read

namespace Tree

/-- The tree of a story's tokens. -/
def ofTokens (g : Grammar) (tokens : List Token) : Except Fault Tree :=
  (Read.story g (Read.bound tokens) (Cursor.start tokens)).map (·.1)

/-- The tree of the tokens of a value. -/
def ofFragment (g : Grammar) (tokens : List Token) : Except Fault Tree :=
  (Read.fragment g (Read.bound tokens) (Cursor.start tokens)).map (·.1)

end Tree

end StoryLang
