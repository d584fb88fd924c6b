/-
Diagnostics: one report about a story, and the text it is shown as.

The full text names severity, stage, story and place. With a place and the
line of the story there, the line is shown with a caret under the column. The
caret's line repeats the tabs of the line above it, so that the two stay
aligned whatever the width of a tab is. An internal error shows none of this.
-/
import StoryLang.Diagnostic.Code
import StoryLang.Position
import StoryLang.Text.Blank

namespace StoryLang

/-- One report about a story. -/
structure Diagnostic where
  code : Code
  /-- The message template of the code, filled. -/
  text : String
  story : String
  position : Option Position
  /-- The line of the story at the position. -/
  sourceLine : Option String
  deriving DecidableEq, Repr

namespace Diagnostic

/-- The name of a story that was given none. -/
def unnamedStory : String := "story"

/-- A report of a cause, with what it is about. -/
def ofCode (code : Code) (args : List String) : Diagnostic :=
  { code, text := Text.fill code.definition.template args, story := unnamedStory,
    position := none, sourceLine := none }

/-- The report of an internal error, which tells no details. -/
def internal : Diagnostic := ofCode .internal []

/-- The same report about a place. -/
def placed (d : Diagnostic) (p : Position) : Diagnostic := { d with position := some p }

/-- The same report about a story. -/
def inStory (d : Diagnostic) (name : String) : Diagnostic := { d with story := name }

/-- The line of a text with that number, counted from one, without the
carriage return that may end it. -/
def lineOf? (source : String) (line : Nat) : Option String :=
  match line with
  | 0 => none
  | n + 1 =>
    ((Text.splitOn '\n' source.toList)[n]?).map fun l => String.ofList (Text.dropReturn l)

/-- The same report with the line of the story at its position, if there is one. -/
def withSource (d : Diagnostic) (source : String) : Diagnostic :=
  match d.position.bind fun p => lineOf? source p.line with
  | some line => { d with sourceLine := some line }
  | none => d

def severity (d : Diagnostic) : Severity := d.code.definition.severity

def category (d : Diagnostic) : Category := d.code.definition.category

/-- Only an error keeps a story from being compiled. -/
def isError (d : Diagnostic) : Bool := d.severity = .error

/-- Code and text on one line. -/
def shortMessage (d : Diagnostic) : String := d.code.name ++ ": " ++ d.text

/-- What is written before a part of a message to set its colour, and after it. -/
structure Colors where
  red : String
  yellow : String
  cyan : String
  bold : String
  reset : String

/-- No colours. -/
def Colors.plain : Colors := ⟨"", "", "", "", ""⟩

/-- The escape sequences of a terminal. -/
def Colors.terminal : Colors :=
  ⟨"\x1b[31m", "\x1b[33m", "\x1b[36m", "\x1b[1m", "\x1b[0m"⟩

/-- `n` blanks, a tab wherever the line has one at the same place. -/
def padding : Nat → List Char → List Char
  | 0, _ => []
  | n + 1, [] => ' ' :: padding n []
  | n + 1, c :: cs => (if c = '\t' then '\t' else ' ') :: padding n cs

/-- The line with its number in front. -/
def shownLine (p : Position) (line : String) : String :=
  toString p.line ++ "|    " ++ line

/-- What stands before the caret under a shown line. -/
def caretPadding (p : Position) (line : String) : String :=
  String.ofList (List.replicate ((toString p.line).length + 5) ' ' ++
    padding (p.column - 1) line.toList)

/-- The heading: severity, what kind of report it is, story and place. -/
def heading (c : Colors) (d : Diagnostic) : String :=
  let color := match d.severity with
    | .error => c.red
    | .warning => c.yellow
    | .deprecation => c.cyan
  let description := match d.severity with
    | .error => d.category.description
    | _ => d.code.definition.title
  let place := match d.position with
    | some p => s!" at line {p.line}, column {p.column}"
    | none => ""
  color ++ d.severity.label ++ c.reset ++ ": " ++ description ++ " in " ++ d.story ++ place

/-- The shown line and its caret, for a report with a place and its line. -/
def excerpt (c : Colors) (d : Diagnostic) : String :=
  match d.position, d.sourceLine with
  | some p, some line =>
    "\n\n" ++ shownLine p line ++ "\n" ++ caretPadding p line ++ c.red ++ "^" ++ c.reset
  | _, _ => ""

/-- Where an internal error asks to be reported. -/
def reportAddress : String := "https://github.com/storyscript/storyscript/issues"

/-- The full text of a report. -/
def render (c : Colors) (d : Diagnostic) : String :=
  let short := c.bold ++ d.shortMessage ++ c.reset
  if d.category = .internal then short ++ "\nPlease report at " ++ reportAddress
  else heading c d ++ excerpt c d ++ "\n\n" ++ short

/-- The full text without colours. -/
def message (d : Diagnostic) : String := d.render .plain

end Diagnostic

end StoryLang
