/-
What makes a text impossible to read as tokens. Reading stops at the first such fault.
-/
import StoryLang.Diagnostic.Basic

namespace StoryLang

/-- Why a text has no tokens. -/
inductive LexFault.Cause where
  | invalidCharacter (c : Char)
  | integerTooLarge (literal : String)
  | noOpeningQuote
  | noClosingQuote
  | interpolationNotClosed
  | commentNotClosed
  | unindentMismatch
  deriving DecidableEq, Repr

/-- A fault and where it is. -/
structure LexFault where
  cause : LexFault.Cause
  position : Position
  deriving DecidableEq, Repr

namespace LexFault

def code (f : LexFault) : Code :=
  match f.cause with
  | .invalidCharacter _ => .invalidCharacter
  | .integerTooLarge _ => .integerTooLarge
  | .noOpeningQuote => .noOpeningQuote
  | .noClosingQuote => .noClosingQuote
  | .interpolationNotClosed => .interpolationNotClosed
  | .commentNotClosed => .commentNotClosed
  | .unindentMismatch => .unindentMismatch

/-- What the report of the fault is about. -/
def args (f : LexFault) : List String :=
  match f.cause with
  | .invalidCharacter c => [c.toString]
  | .integerTooLarge literal => [literal]
  | _ => []

def diagnostic (f : LexFault) : Diagnostic :=
  (Diagnostic.ofCode f.code f.args).placed f.position

/-- The fault on one line. -/
def message (f : LexFault) : String :=
  f.diagnostic.shortMessage ++ " at " ++ f.position.text

end LexFault

/-- The report of a comment that starts with `#`. -/
def hashCommentReport (p : Position) : Diagnostic :=
  (Diagnostic.ofCode .hashComment []).placed p

end StoryLang
