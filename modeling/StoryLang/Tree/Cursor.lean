/-
Going through the tokens of a story one by one.

What can be done on the way is a handful of single steps: to look at the
current token and at the one behind it, to take a token, to mark the start of a
statement, to stop, and to read a part inside a loop or a function. `Reader`
lists them, and everything that reads trees is made of them.

The reader in use is a cursor. It stands on a token; there always is one, since
the tokens end in the end of the story and a cursor never goes past it. It
remembers the tokens behind it, and which of them belong to the statement being
read, so that a report can look at them.
-/
import StoryLang.Tree.Basic
import StoryLang.Tree.Shape

namespace StoryLang

/-- What is around a statement. -/
structure Enclosing where
  inFunction : Bool
  inLoop : Bool
  deriving DecidableEq, Repr

namespace Enclosing

/-- Around the statements of the story itself. -/
def story : Enclosing := ⟨false, false⟩

/-- Around the body of a loop. -/
def loop (e : Enclosing) : Enclosing := { e with inLoop := true }

/-- Around the body of a function. -/
def function : Enclosing := ⟨true, false⟩

end Enclosing

/-- Reading something, from a place on that is a state `S`, or failing with an `F`. -/
abbrev ReadFrom (S F α : Type) : Type := StateT S (Except F) α

/-- The single steps of reading. -/
class Reader (S : Type) (F : outParam Type) where
  /-- The current token. -/
  current : ReadFrom S F Token
  /-- The token after the current one, or the current one if it is the last. -/
  following : ReadFrom S F Token
  /-- Takes the current token. -/
  take : ReadFrom S F Token
  /-- Marks the start of a statement. -/
  startStatement : ReadFrom S F Unit
  /-- Stops with a fault. -/
  fail {α : Type} : Fault → ReadFrom S F α
  /-- Stops at the current token, where one of the given kinds should be. -/
  unexpected {α : Type} : Grammar → List TokenKind → ReadFrom S F α
  /-- Reads a part that has statements of its own; afterwards the statement
  around it goes on. -/
  within {α : Type} : ReadFrom S F α → ReadFrom S F α
  /-- Reads the body of a loop. -/
  inLoop {α : Type} : ReadFrom S F α → ReadFrom S F α
  /-- Reads the body of a function. -/
  inFunction {α : Type} : ReadFrom S F α → ReadFrom S F α
  /-- Whether there is a loop around, inside the innermost function. -/
  isInLoop : Enclosing → ReadFrom S F Bool
  /-- Whether there is a function around. -/
  isInFunction : Enclosing → ReadFrom S F Bool

/-- A place between tokens. -/
structure Cursor where
  /-- The tokens read so far, newest first. -/
  behind : List Token
  /-- The next token. -/
  current : Token
  /-- The tokens after it. -/
  ahead : List Token
  /-- What had been read when the current statement started. -/
  started : List Token
  deriving Repr

namespace Cursor

/-- The end of a story that does not say where it ends: behind its last token. -/
def missingEnd (tokens : List Token) : List Token :=
  match tokens.getLast? with
  | none => [⟨.eof, "", .first⟩]
  | some last => if last.kind = .eof then [] else [⟨.eof, "", ⟨last.line, last.endColumn⟩⟩]

/-- In front of some tokens. -/
def start (tokens : List Token) : Cursor :=
  match tokens ++ missingEnd tokens with
  | [] => ⟨[], ⟨.eof, "", .first⟩, [], []⟩
  | t :: ts => ⟨[], t, ts, []⟩

/-- Behind the current token, unless it is the last one. -/
def next (c : Cursor) : Cursor :=
  match c.ahead with
  | [] => c
  | t :: ts => { c with behind := c.current :: c.behind, current := t, ahead := ts }

/-- The same place as the start of a statement. -/
def startStatement (c : Cursor) : Cursor := { c with started := c.behind }

/-- The tokens of the statement that have been read. -/
def statement (c : Cursor) : List Token :=
  (c.behind.take (c.behind.length - c.started.length)).reverse

/-- Stuck at the current token. -/
def stuck (c : Cursor) (g : Grammar) (expected : List TokenKind) : Stuck :=
  { grammar := g, previous := c.behind.head?, statement := c.statement, current := c.current
    next := c.ahead.head?, expected }

end Cursor

/-- A cursor has the tokens around it at hand. What is around a statement is
known from where its reader is called. -/
instance : Reader Cursor Fault where
  current c := .ok (c.current, c)
  following c := .ok (c.ahead.headD c.current, c)
  take c := .ok (c.current, c.next)
  startStatement c := .ok ((), c.startStatement)
  fail f _ := .error f
  unexpected g expected c := .error (.inTokens (c.stuck g expected).fault)
  within read c := do
    let (a, c') ← read c
    .ok (a, { c' with started := c.started })
  inLoop read := read
  inFunction read := read
  isInLoop e c := .ok (e.inLoop, c)
  isInFunction e c := .ok (e.inFunction, c)

/-- Reading something from a cursor on. -/
abbrev Read (α : Type) : Type := ReadFrom Cursor Fault α

namespace Read

export Reader (take startStatement fail unexpected within inLoop inFunction isInLoop isInFunction)

variable {S F : Type} [Reader S F]

/-- Stops since a bound on the number of steps is reached. -/
def tooManySteps {α : Type} : ReadFrom S F α := fail (.internal .tooManySteps)

/-- The kind of the current token. -/
def kind : ReadFrom S F TokenKind := do return (← Reader.current).kind

/-- Whether the current token is of that kind. -/
def isAt (k : TokenKind) : ReadFrom S F Bool := do return (← Reader.current).kind = k

/-- Whether the token after the current one is of that kind. -/
def isBefore (k : TokenKind) : ReadFrom S F Bool := do return (← Reader.following).kind = k

/-- Takes the current token as a part of a tree. -/
def leaf : ReadFrom S F Tree := do return .token (← take)

/-- Stops at the current token with a report that says all. -/
def refuse {α : Type} (code : Code) : ReadFrom S F α := do
  let token ← Reader.current
  fail (.inTokens { code, args := [], position := token.position, token, expected := [] })

/-- Takes a token of that kind. -/
def expect (g : Grammar) (k : TokenKind) : ReadFrom S F Tree := do
  if ← isAt k then leaf else unexpected g [k]

/-- Whether the current token is a name that can be given to something. -/
def isAtName (g : Grammar) : ReadFrom S F Bool := do
  let token ← Reader.current
  return token.kind = .name && !g.isReserved token.literal

/-- Takes a name. -/
def expectName (g : Grammar) : ReadFrom S F Tree := do
  if ← isAtName g then leaf else unexpected g [.name]

/-- Whether a cast comes: `as` and a type. Any other `as` names an output. -/
def isAtCast (g : Grammar) : ReadFrom S F Bool := do
  let token ← Reader.current
  let type ← Reader.following
  return token.kind = .keyword .asWord &&
    (type.kind = .keyword .functionWord || (type.kind = .name && g.isTypeName type.literal))

end Read

end StoryLang
