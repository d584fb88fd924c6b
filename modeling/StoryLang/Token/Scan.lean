/-
Reading a text as tokens.

Layout is made explicit. Every line with code ends in a newline token, also
the last one, and an indentation stack turns changes of the width of a line's
blanks into indent and dedent tokens. Between brackets, newlines mean nothing.
Comments and blank lines leave no token; a comment that starts with `#` is
recorded, since it should not be used any more.

The scanner goes from token to token. `State.step` reads one of them, with
the layout in front of it, and always gets further into the text as long as
there is any.
-/
import StoryLang.Grammar.Basic
import StoryLang.Token.Basic
import StoryLang.Token.Quotes
import StoryLang.Token.Spot

namespace StoryLang

/-- How a text is scanned. -/
structure ScanMode where
  grammar : Grammar
  /-- Strings may stand between apostrophes. -/
  singleQuotes : Bool

/-- The outcome of scanning: the tokens or the first fault, and the places of
the `#` comments that were met until then. -/
structure Scanned where
  tokens : Except LexFault (List Token)
  hashComments : List Position

namespace Scan

/-- A fault, and the `#` comments met before it, newest first. -/
structure Stop where
  fault : LexFault
  hashComments : List Position
  deriving Repr

/-- What the scanner knows at some point of the text. Lists have their newest
entry first. -/
structure State where
  spot : Spot
  /-- The widths of the open indentations, without the zero they start from. -/
  indents : List Nat
  /-- How many brackets are open. -/
  brackets : Nat
  /-- Whether the indentation of the line is still to be looked at. -/
  atLineStart : Bool
  tokens : List Token
  hashComments : List Position
  deriving Repr

namespace State

/-- The state in front of a text. A byte order mark is no part of it. -/
def start (text : List Char) : State :=
  { spot := .start (Text.dropMark text), indents := [], brackets := 0, atLineStart := true
    tokens := [], hashComments := [] }

/-- Reads `taken` as a token. -/
def push (s : State) (kind : TokenKind) (taken : List Char) : State :=
  { s with
    spot := s.spot.past taken
    tokens := ⟨kind, String.ofList taken, s.spot.place⟩ :: s.tokens }

/-- Stops with a fault. -/
def stop {α : Type} (s : State) (cause : LexFault.Cause) (place : Position) : Except Stop α :=
  .error ⟨⟨cause, place⟩, s.hashComments⟩

/-- Moves on without a token. -/
def moveTo (s : State) (spot : Spot) : State := { s with spot }

/-- Passes a comment that starts with `#` and records it. -/
def pastHash (s : State) : State :=
  { s with spot := s.spot.lineEnd, hashComments := s.spot.place :: s.hashComments }

/-- Passes a block comment. -/
def pastComment (s : State) : Except Stop State :=
  match s.spot.pastComment? with
  | some spot => .ok (s.moveTo spot)
  | none => s.stop .commentNotClosed s.spot.place

/-! ## Indentation -/

/-- The width of the blanks in `cs`, from a width on. A tab goes to the next
multiple of four; carriage returns and form feeds have no width. -/
def widthFrom : Nat → List Char → Nat
  | w, [] => w
  | w, c :: cs =>
    if c = ' ' then widthFrom (w + 1) cs
    else if c = '\t' then widthFrom ((w / 4 + 1) * 4) cs
    else widthFrom w cs

/-- The width of the blanks in front of the rest of the text. -/
def width (s : State) : Nat := widthFrom 0 (s.spot.rest.takeWhile Spot.isGap)

/-- Closes the indentations that are wider than `w`. -/
def closeWider (w : Nat) (place : Position) :
    List Nat → List Token → List Nat × List Token
  | [], tokens => ([], tokens)
  | top :: indents, tokens =>
    if w < top then closeWider w place indents (⟨.dedent, "", place⟩ :: tokens)
    else (top :: indents, tokens)

/-- Opens or closes indentations for a line of width `w` whose code starts
here. A line that closes some has to fall back to an open width. -/
def indentTo (s : State) (w : Nat) : Except Stop State :=
  let current := s.indents.headD 0
  if current < w then
    .ok { s with
      indents := w :: s.indents
      tokens := ⟨.indent, "", s.spot.place⟩ :: s.tokens
      atLineStart := false }
  else
    let (indents, tokens) := closeWider w s.spot.place s.indents s.tokens
    if indents.headD 0 = w then .ok { s with indents, tokens, atLineStart := false }
    else s.stop .unindentMismatch s.spot.place

/-- Whether nothing but comments can still come on the line. -/
def restIsBlank : List Char → Bool
  | [] => true
  | '\n' :: _ => true
  | '#' :: _ => true
  | '/' :: '/' :: _ => true
  | '/' :: '*' :: _ => true
  | _ => false

/-- Passes lines without code and sets the indentation of the first line with
some. Code that shares its line with the end of a comment before it has the
width of the column it starts in. No state at the end of the text. -/
def startLine : Nat → State → Except Stop (State × Bool)
  | 0, s => .ok (s, false)
  | fuel + 1, s =>
    let w := s.width
    let s := s.moveTo s.spot.pastGap
    match s.spot.rest with
    | [] => .ok (s, false)
    | '\n' :: _ => startLine fuel (s.moveTo s.spot.next)
    | '#' :: _ => startLine fuel s.pastHash
    | '/' :: '/' :: _ => startLine fuel (s.moveTo s.spot.lineEnd)
    | '/' :: '*' :: _ =>
      match s.pastComment with
      | .error stop => .error stop
      | .ok s =>
        let s := s.moveTo s.spot.pastGap
        if restIsBlank s.spot.rest then startLine fuel s
        else (s.indentTo (s.spot.place.column - 1)).map (·, true)
    | _ => (s.indentTo w).map (·, true)

/-! ## Tokens of a line -/

/-- Reads a string from its opening quote on. A quote that cannot be closed
and stands right behind a name is taken for a closing one. -/
def readString (s : State) (quote : Char) : Except Stop State :=
  let inside := s.spot.next
  match Quotes.body quote .text inside.place inside.rest with
  | .ok (text, _) =>
    .ok { s with
      spot := (inside.past text).next
      tokens := ⟨.string, String.ofList text, s.spot.place⟩ :: s.tokens }
  | .error (some opened) => s.stop .interpolationNotClosed opened
  | .error none =>
    let glued := s.spot.before.any Grammar.isWordChar
    s.stop (if glued then .noOpeningQuote else .noClosingQuote) s.spot.place

/-- Reads a name or a keyword. -/
def readName (s : State) (g : Grammar) : State :=
  let word := s.spot.rest.takeWhile Grammar.isWordChar
  let kind := match g.keyword? (String.ofList word) with
    | some k => .keyword k
    | none => .name
  s.push kind word

/-- Reads a number. A point belongs to it if a digit follows, and without one
the number has to fit 64 bits with a sign. -/
def readNumber (s : State) : Except Stop State :=
  let whole := s.spot.rest.takeWhile Text.isDigit
  match s.spot.rest.dropWhile Text.isDigit with
  | '.' :: d :: more =>
    if Text.isDigit d then
      .ok (s.push .float (whole ++ '.' :: (d :: more).takeWhile Text.isDigit))
    else intToken whole
  | _ => intToken whole
where
  /-- A number without a point. -/
  intToken (whole : List Char) : Except Stop State :=
    if (Text.natural? Text.maxSigned64 whole).isSome then .ok (s.push .int whole)
    else s.stop (.integerTooLarge (String.ofList whole)) s.spot.place

/-- The symbols of two characters, which are read before those of one. -/
def pair? (c d : Char) : Option Symbol := Symbol.ofText? (String.ofList [c, d])

/-- The symbol of one character. -/
def single? (c : Char) : Option Symbol :=
  if c = '(' then some .leftParen
  else if c = '[' then some .leftBracket
  else if c = '{' then some .leftBrace
  else if c = ')' then some .rightParen
  else if c = ']' then some .rightBracket
  else if c = '}' then some .rightBrace
  else if c = ',' then some .comma
  else if c = ':' then some .colon
  else if c = '.' then some .dot
  else Symbol.ofText? (String.ofList [c])

/-- How many brackets are open after a symbol. One that closes none is let through. -/
def bracketsAfter (n : Nat) : Symbol → Nat
  | .leftParen | .leftBracket | .leftBrace => n + 1
  | .rightParen | .rightBracket | .rightBrace => n - 1
  | _ => n

/-- Reads a symbol. -/
def readSymbol (s : State) (c : Char) (rest : List Char) : Except Stop State :=
  match rest.head?.bind fun d => (pair? c d).map fun symbol => (symbol, [c, d]) with
  | some (symbol, taken) => .ok (s.push (.symbol symbol) taken)
  | none =>
    match single? c with
    | some symbol =>
      .ok { s.push (.symbol symbol) [c] with brackets := bracketsAfter s.brackets symbol }
    | none => s.stop (.invalidCharacter c) s.spot.place

/-- Reads what starts with `c`: a token, a comment, or the end of a line. -/
def readNext (m : ScanMode) (s : State) (c : Char) (rest : List Char) :
    Except Stop State :=
  if c = '\n' then
    if s.brackets = 0 then .ok { s.push .newline ['\n'] with atLineStart := true }
    else .ok (s.moveTo s.spot.next)
  else if c = '/' ∧ rest.head? = some '/' then .ok (s.moveTo s.spot.lineEnd)
  else if c = '/' ∧ rest.head? = some '*' then s.pastComment
  else if c = '#' then .ok s.pastHash
  else if c = '"' then s.readString '"'
  else if c = '\'' ∧ m.singleQuotes then s.readString '\''
  else if Grammar.isWordStart c then .ok (s.readName m.grammar)
  else if Text.isDigit c then s.readNumber
  else s.readSymbol c rest

/-- One step: the layout in front of a line, then what comes next on it, and
whether there was any. `fuel` bounds the number of lines without code. -/
def step (m : ScanMode) (fuel : Nat) (s : State) : Except Stop (State × Bool) := do
  let (s, more) ← if s.atLineStart then s.startLine fuel else .ok (s, true)
  if more then
    let s := s.moveTo s.spot.pastGap
    match s.spot.rest with
    | [] => .ok (s, false)
    | c :: rest => (s.readNext m c rest).map (·, true)
  else .ok (s, false)

/-- Ends the text: its last line, the open indentations, and the text itself. -/
def finish (s : State) : List Token :=
  let layout (kind : TokenKind) (literal : String) : Token := ⟨kind, literal, s.spot.place⟩
  let lineEnd := match s.tokens with
    | [] => []
    | last :: _ => if last.kind = .newline then [] else [layout .newline "\n"]
  s.tokens.reverse ++ lineEnd ++ s.indents.map (fun _ => layout .dedent "") ++ [layout .eof ""]

/-- Steps until the end of the text or a fault. -/
def run (m : ScanMode) : Nat → State → Scanned
  | 0, s => ⟨.ok s.finish, s.hashComments.reverse⟩
  | fuel + 1, s =>
    match s.step m (fuel + 1) with
    | .error stop => ⟨.error stop.fault, stop.hashComments.reverse⟩
    | .ok (s, true) => run m fuel s
    | .ok (s, false) => ⟨.ok s.finish, s.hashComments.reverse⟩

end State

end Scan

/-- Reads a text as tokens. Every step but the last one takes a character, so
there are enough steps for the whole text. -/
def scan (m : ScanMode) (text : List Char) : Scanned :=
  (Scan.State.start text).run m (text.length + 1)

end StoryLang
