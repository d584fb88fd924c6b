/-
Why a token could not come: the shapes of frequent mistakes.

Where reading stops at a token, the tokens around it often show what went
wrong. The shapes are tried in a fixed order and the first that fits gives the
report; if none fits, the report lists what could have come instead.
-/
import StoryLang.Fault
import StoryLang.Text.Distance

namespace StoryLang

/-- The report on a keyword where a name is needed. Not every keyword has one. -/
def Keyword.reservedCode? : Keyword → Option Code
  | .functionWord => some .reservedFunction
  | .ifWord => some .reservedIf
  | .elseWord => some .reservedElse
  | .foreachWord => some .reservedForeach
  | .returnWord => some .reservedReturn
  | .returnsWord => some .reservedReturns
  | .tryWord => some .reservedTry
  | .catchWord => some .reservedCatch
  | .finallyWord => some .reservedFinally
  | .whenWord => some .reservedWhen
  | .asWord => some .reservedAs
  | .importWord => some .reservedImport
  | .whileWord => some .reservedWhile
  | .throwWord => some .reservedThrow
  | _ => none

/-- The report on a word that is kept for the future. -/
def futureCode? (word : String) : Option Code :=
  if word = "async" then some .futureAsync
  else if word = "story" then some .futureStory
  else if word = "assert" then some .futureAssert
  else if word = "called" then some .futureCalled
  else if word = "mock" then some .futureMock
  else none

/-- The report on a token of that kind where a name is needed. -/
def TokenKind.reservedCode? : TokenKind → Option Code
  | .keyword k => k.reservedCode?
  | _ => none

/-- Where reading stopped. -/
structure Stuck where
  grammar : Grammar
  /-- The token before the one that could not come. -/
  previous : Option Token
  /-- The tokens of the statement before it, in order. -/
  statement : List Token
  /-- The token that could not come. -/
  current : Token
  next : Option Token
  expected : List TokenKind

namespace Stuck

/-- A report at a token. -/
abbrev Report := Code × Token

def expects (s : Stuck) (kind : TokenKind) : Bool := s.expected.contains kind

/-- The first token of the statement. -/
def first (s : Stuck) : Token := s.statement.headD s.current

def isNow (s : Stuck) (kind : TokenKind) : Bool := s.current.kind = kind

/-- Whether the token before is of that kind. -/
def isAfter (s : Stuck) (kind : TokenKind) : Bool := s.previous.any (·.kind = kind)

/-- Whether the line or the story ends here. -/
def atEnd (s : Stuck) : Bool := s.isNow .newline || s.isNow .eof

/-- A keyword as a name, or assigned to, or a word kept for the future. -/
def reservedWord (s : Stuck) : Option Report :=
  let asName :=
    if s.expects .name then s.current.kind.reservedCode?.map (·, s.current) else none
  let asTarget :=
    match s.statement with
    | [target] =>
      if s.isNow (.symbol .assign) then target.kind.reservedCode?.map (·, target) else none
    | _ => none
  let forFuture :=
    if s.isNow .name && s.grammar.isReserved s.current.literal then
      (futureCode? s.current.literal).map (·, s.current)
    else none
  (asName.or asTarget).or forFuture

/-- Nothing after the `=` of an assignment. -/
def noValue (s : Stuck) : Option Report :=
  if s.isAfter (.symbol .assign) && s.atEnd then some (.assignmentWithoutValue, s.current)
  else none

/-- A `then` that continues no mutation. -/
def strayThen (s : Stuck) : Option Report :=
  if s.isNow (.keyword .thenWord) then some (.chainWithoutMutation, s.current) else none

/-- A comma right before a closing bracket. -/
def trailingComma (s : Stuck) : Option Report :=
  match s.previous with
  | some comma =>
    if s.isNow (.symbol .rightBracket) && comma.kind = .symbol .comma then
      some (.listTrailingComma, comma)
    else none
  | none => none

/-- The brackets that are open after some tokens, innermost first. -/
def openBrackets : List Symbol → List Token → List Symbol
  | stack, [] => stack
  | stack, t :: ts =>
    match t.kind with
    | .symbol .leftBracket => openBrackets (.leftBracket :: stack) ts
    | .symbol .leftBrace => openBrackets (.leftBrace :: stack) ts
    | .symbol .leftParen => openBrackets (.leftParen :: stack) ts
    | .symbol .rightBracket | .symbol .rightBrace | .symbol .rightParen =>
      openBrackets stack.tail ts
    | _ => openBrackets stack ts

/-- The innermost bracket of the statement that is still open. -/
def openBracket? (s : Stuck) : Option Symbol := (openBrackets [] s.statement).head?

/-- A list or an object that is not closed on its line. -/
def notClosed (s : Stuck) : Option Report :=
  let code := match s.openBracket? with
    | some .leftBracket =>
      if s.expects (.symbol .rightBracket) then some Code.listNotClosed else none
    | some .leftBrace =>
      if s.expects (.symbol .rightBrace) then some Code.objectNotClosed else none
    | _ => none
  let endsLine := s.atEnd || s.previous.any fun p => p.line < s.current.line
  if endsLine then code.map (·, s.current) else none

/-- A closing bracket that closes nothing. -/
def notOpened (s : Stuck) : Option Report :=
  if s.isNow (.symbol .rightBracket) && s.openBracket? ≠ some .leftBracket then
    some (.listNotOpened, s.current)
  else if s.isNow (.symbol .rightBrace) && s.openBracket? ≠ some .leftBrace then
    some (.objectNotOpened, s.current)
  else none

/-- A colon that only ends the line. -/
def strayColon (s : Stuck) : Option Report :=
  if s.isNow (.symbol .colon) && s.next.any (fun n => n.kind = .newline || n.kind = .eof) then
    some (.unnecessaryColon, s.current)
  else none

/-- An argument at the start of a statement. -/
def noService (s : Stuck) : Option Report :=
  match s.statement with
  | [name] =>
    if s.isNow (.symbol .colon) && name.kind = .name then some (.argumentWithoutService, name)
    else none
  | _ => none

/-- The name of an argument without its colon. -/
def noColon (s : Stuck) : Option Report :=
  if s.expects (.symbol .colon) && s.isAfter .name then some (.argumentWithoutColon, s.current)
  else none

/-- What a mistaken variable name consists of. -/
def inMistakenName (t : Token) : Bool :=
  t.kind = .name || t.kind = .symbol .minus || t.kind = .symbol .slash || t.kind = .symbol .dot

/-- The report on a sign in a variable name. -/
def signReport? (t : Token) : Option Report :=
  if t.kind = .symbol .slash then some (.variableSlash, t)
  else if t.kind = .symbol .minus then some (.variableDash, t)
  else none

/-- A minus or a slash in the name of an assigned variable. -/
def signInName (s : Stuck) : Option Report :=
  if s.isNow (.symbol .assign) && s.statement.all inMistakenName then
    s.statement.findSome? signReport?
  else none

/-- An import of something that is no string, or without `as`. -/
def badImport (s : Stuck) : Option Report :=
  if s.first.kind ≠ .keyword .importWord then none
  else match s.statement with
    | [_] => if s.isNow .string then none else some (.unquotedImport, s.current)
    | [_, _] =>
      if s.expects (.keyword .asWord) then some (.misspeltImportAlias, s.current) else none
    | _ => none

/-- A statement that opens with a near miss of a keyword. -/
def misspelling (s : Stuck) : Option Report :=
  if s.first.kind ≠ .name then none
  else if Text.isMisspelling s.first.literal (s.grammar.spelling (.keyword .functionWord)) then
    some (.misspeltFunction, s.first)
  else if Text.isMisspelling s.first.literal (s.grammar.spelling (.keyword .importWord)) then
    some (.misspeltImport, s.first)
  else none

/-- Literals other than names. -/
def isLiteral (kind : TokenKind) : Bool :=
  kind = .int || kind = .float || kind = .string || kind = .keyword .trueWord ||
    kind = .keyword .falseWord || kind = .keyword .nullWord

def endsValue (kind : TokenKind) : Bool :=
  isLiteral kind || kind = .symbol .rightBracket || kind = .symbol .rightBrace ||
    kind = .symbol .rightParen

def startsValue (kind : TokenKind) : Bool :=
  isLiteral kind || kind = .symbol .leftBracket || kind = .symbol .leftBrace ||
    kind = .symbol .leftParen

/-- Two values side by side. -/
def noOperator (s : Stuck) : Option Report :=
  if s.previous.any (fun p => endsValue p.kind) && startsValue s.current.kind then
    some (.noOperator, s.current)
  else none

/-- The shapes in the order they are tried. -/
def shapes : List (Stuck → Option Report) :=
  [reservedWord, noValue, strayThen, trailingComma, notClosed, notOpened, strayColon, noService,
    noColon, signInName, badImport, misspelling, noOperator]

/-- The report of the first shape that fits. -/
def report? (s : Stuck) : Option Report := shapes.findSome? (· s)

/-- How a report names a kind of token that could have come. -/
def describeKind (g : Grammar) : TokenKind → String
  | .name => "name"
  | .int | .float => "number"
  | .string => "string"
  | .newline => "end of line"
  | .indent => "indentation"
  | .dedent => "dedentation"
  | .eof => "end of story"
  | kind => "`" ++ g.spelling kind ++ "`"

/-- The texts, each only once. -/
def distinct : List String → List String → List String
  | seen, [] => seen.reverse
  | seen, s :: rest => if seen.contains s then distinct seen rest else distinct (s :: seen) rest

/-- What could have come instead, in words. -/
def alternatives (s : Stuck) : String :=
  String.intercalate ", " (distinct [] (s.expected.map (describeKind s.grammar)))

/-- The fault of being stuck here. -/
def fault (s : Stuck) : SyntaxFault :=
  match s.report? with
  | some (code, place) =>
    { code, args := [], position := place.position, token := s.current, expected := s.expected }
  | none =>
    { code := .unexpectedToken, args := [s.current.describe, s.alternatives]
      position := s.current.position, token := s.current, expected := s.expected }

end Stuck

end StoryLang
