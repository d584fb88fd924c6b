/-
Faults: what stops the compilation of a story.

A fault is in the text of the story or of a grammar, in the order of its
tokens, or a file that cannot be read. A defect is none of these: it says that
a tree does not have the shape that the compiler itself gives to trees, and is
reported as an internal error without its details.
-/
import StoryLang.Coord
import StoryLang.Grammar.Basic
import StoryLang.Token.Basic
import StoryLang.Token.Fault
import StoryLang.Tree.Rule

namespace StoryLang

/-- A fault in the order of tokens. -/
structure SyntaxFault where
  code : Code
  /-- What the report is about. -/
  args : List String
  position : Position
  /-- The token at which reading stopped. -/
  token : Token
  /-- The kinds of tokens that could have come instead. -/
  expected : List TokenKind
  deriving DecidableEq, Repr

namespace SyntaxFault

def diagnostic (f : SyntaxFault) : Diagnostic :=
  (Diagnostic.ofCode f.code f.args).placed f.position

/-- The fault on one line. -/
def message (f : SyntaxFault) : String :=
  f.diagnostic.shortMessage ++ " at " ++ f.position.text

end SyntaxFault

/-- How a tree can fail to have the shape of a story. -/
inductive Defect where
  | noKeyword (construct : String)
  | noSubject
  | noFragment
  | noStringToken
  | noNumberToken
  | noBooleanToken
  | badInt (literal : String)
  | badFloat (literal : String)
  | badMapItem
  | noOperator
  | noOperand
  | badCast
  | emptyExpression
  | emptyIndex
  | badArgument
  | namelessMutation
  | notAnOperator (kind : TokenKind)
  | notAValue (rule : Rule)
  | noLine (rule : Rule)
  | badAssignment
  | namelessFunction
  | badParameter
  | noTarget
  | badImport
  | notAStatement (rule : Rule)
  | branchWithoutLine
  | handlerWithoutLine
  | noService
  | namelessCall
  | noOperandOf (rule : Rule)
  | sameLine (line : Coord)
  /-- The registry failed when it was asked. -/
  | registryFailed
  /-- A bound on the number of steps was reached. -/
  | tooManySteps
  | custom (detail : String)
  deriving DecidableEq, Repr

/-- What is wrong, in words. -/
def Defect.detail : Defect → String
  | noKeyword construct => construct ++ " without a keyword"
  | noSubject => "mutation without a subject"
  | noFragment => "mutation without a fragment"
  | noStringToken => "string without a token"
  | noNumberToken => "number without a token"
  | noBooleanToken => "boolean without a token"
  | badInt literal => "bad int literal " ++ literal
  | badFloat literal => "bad float literal " ++ literal
  | badMapItem => "map item without a key and value"
  | noOperator => "operator missing"
  | noOperand => "operand missing"
  | badCast => "cast without a value and type"
  | emptyExpression => "empty expression"
  | emptyIndex => "empty index"
  | badArgument => "argument without a name and value"
  | namelessMutation => "mutation without a name"
  | notAnOperator kind => kind.tag ++ " is not a binary operator"
  | notAValue rule => "`" ++ rule.name ++ "` is not a value"
  | noLine rule => "`" ++ rule.name ++ "` has no line"
  | badAssignment => "assignment without target and value"
  | namelessFunction => "function without a name"
  | badParameter => "parameter without a name and type"
  | noTarget => "when without a target"
  | badImport => "import without a path and name"
  | notAStatement rule => "`" ++ rule.name ++ "` is not a statement"
  | branchWithoutLine => "branch without a line"
  | handlerWithoutLine => "handler without a line"
  | noService => "service call without a service"
  | namelessCall => "call without a function"
  | noOperandOf rule => "`" ++ rule.name ++ "` has no operand"
  | sameLine line => "two statements on line " ++ line.text
  | registryFailed => "registry failed"
  | tooManySteps => "too many steps"
  | custom detail => detail

/-- What stops a compilation. -/
inductive Fault where
  | inText (f : LexFault)
  | inTokens (f : SyntaxFault)
  | inGrammar (f : GrammarFault)
  /-- A file that cannot be read, by its path as given and from the root. -/
  | inFile (path absolute : String)
  | internal (d : Defect)
  deriving DecidableEq, Repr

namespace Fault

/-- The report of a fault. -/
def diagnostic : Fault → Diagnostic
  | inText f => f.diagnostic
  | inTokens f => f.diagnostic
  | inFile path absolute => .ofCode .fileNotFound [path, absolute]
  | inGrammar _ | internal _ => .internal

/-- The fault on one line. -/
def message : Fault → String
  | inText f => f.message
  | inTokens f => f.message
  | inGrammar f => f.message
  | inFile path absolute => "file `" ++ path ++ "` not found at `" ++ absolute ++ "`"
  | internal d => "internal error: " ++ d.detail

def isInternal : Fault → Bool
  | internal _ => true
  | _ => false

end Fault

end StoryLang
