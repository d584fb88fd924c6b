/-
Tokens: what was read from a story, as it was written, and where.
-/
import StoryLang.Position
import StoryLang.Token.Kind
import StoryLang.Text.Quoted

namespace StoryLang

/-- A token of a story. The literal of a string is what stands between its quotes. -/
structure Token where
  kind : TokenKind
  literal : String
  position : Position
  deriving DecidableEq, Repr

namespace Token

def line (t : Token) : Nat := t.position.line

def column (t : Token) : Nat := t.position.column

/-- The column after the token. -/
def endColumn (t : Token) : Nat := t.column + t.literal.length

/-- How a report names the token. -/
def describe (t : Token) : String :=
  match t.kind with
  | .newline => "end of line"
  | .eof => "end of story"
  | .indent => "indentation"
  | .dedent => "dedentation"
  | _ => t.literal

/-- Kind, quoted literal and place. -/
def text (t : Token) : String :=
  "Token(" ++ t.kind.label ++ ", " ++ Text.quoted t.literal ++ ", " ++ t.position.text ++ ")"

end Token

end StoryLang
