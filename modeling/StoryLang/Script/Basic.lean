/-
Scripts: the records of a story in the order of their coordinates.

A record is what a script says of one statement. A script has one record for a
coordinate. Every record but the last leads to the one after it.
-/
import StoryLang.Coord
import StoryLang.Fault
import StoryLang.Script.Value
import StoryLang.Text.Names

namespace StoryLang

/-- What a record does. -/
inductive Method where
  | execute | mutation | call | expression | set
  | ifMethod | elifMethod | elseMethod | forMethod | whileMethod
  | tryMethod | catchMethod | finallyMethod
  | function | whenMethod | returnMethod | throwMethod | breakMethod | continueMethod
  | importMethod
  deriving DecidableEq, Repr

def Method.name : Method → String
  | .execute => "execute"
  | .mutation => "mutation"
  | .call => "call"
  | .expression => "expression"
  | .set => "set"
  | .ifMethod => "if"
  | .elifMethod => "elif"
  | .elseMethod => "else"
  | .forMethod => "for"
  | .whileMethod => "while"
  | .tryMethod => "try"
  | .catchMethod => "catch"
  | .finallyMethod => "finally"
  | .function => "function"
  | .whenMethod => "when"
  | .returnMethod => "return"
  | .throwMethod => "throw"
  | .breakMethod => "break"
  | .continueMethod => "continue"
  | .importMethod => "import"

/-- One statement of a script. -/
structure Record where
  method : Method
  line : Coord
  /-- The service that is called or listened to. -/
  container : Option String
  command : Option String
  /-- What is assigned to. -/
  target : Option (List Value)
  function : Option String
  args : List Value
  output : List String
  /-- The first statement of the record's block. -/
  enter : Option Coord
  /-- Where to go on if the block is skipped or done. -/
  exit : Option Coord
  /-- The record whose block this one is in. -/
  parent : Option Coord
  /-- The record after this one. -/
  next : Option Coord
  /-- The line of the story. -/
  source : Option String
  deriving Repr

namespace Record

/-- A record that says nothing more than what it does and where. -/
def bare (method : Method) (line : Coord) : Record :=
  { method, line, container := none, command := none, target := none, function := none, args := [],
    output := [], enter := none, exit := none, parent := none, next := none, source := none }

/-- How a coordinate is written, or null. -/
def coordJson (c : Option Coord) : Json := .ofText? (c.map Coord.text)

/-- How a record is written. -/
def toJson (r : Record) : Json :=
  .obj
    [("method", .str r.method.name),
     ("ln", .str r.line.text),
     ("container", .ofText? r.container),
     ("command", .ofText? r.command),
     ("name", match r.target with
       | some parts => .arr (Value.allToJson parts)
       | none => .null),
     ("function", .ofText? r.function),
     ("args", .arr (Value.allToJson r.args)),
     ("output", .arr (r.output.map .str)),
     ("enter", coordJson r.enter),
     ("exit", coordJson r.exit),
     ("parent", coordJson r.parent),
     ("next", coordJson r.next),
     ("src", .ofText? r.source)]

end Record

/-- The records of a story, in the order of their coordinates, and where its
functions are. -/
structure Script where
  records : List Record
  functions : NameMap Coord
  deriving Repr

namespace Script

/-- No records. -/
def empty : Script := ⟨[], .empty⟩

/-- Puts a record in its place among records, unless its coordinate is taken. -/
def insertRecord (r : Record) : List Record → Option (List Record)
  | [] => some [r]
  | other :: rest =>
    if r.line < other.line then some (r :: other :: rest)
    else if r.line = other.line then none
    else (insertRecord r rest).map (other :: ·)

/-- The script with one more record. -/
def insert (s : Script) (r : Record) : Except Fault Script :=
  match insertRecord r s.records with
  | some records => .ok { s with records }
  | none => .error (.internal (.sameLine r.line))

/-- The script with one more function. The last one of a name counts. -/
def declare (s : Script) (name : String) (line : Coord) : Script :=
  { s with functions := s.functions.insert name line }

/-- Each record with the coordinate of the one after it. -/
def linked : List Record → List Record
  | [] => []
  | [r] => [r]
  | r :: r' :: rest => { r with next := some r'.line } :: linked (r' :: rest)

/-- The record at a coordinate. -/
def get? (s : Script) (line : Coord) : Option Record := s.records.find? (·.line = line)

theorem linked_map_line (rs : List Record) : (linked rs).map (·.line) = rs.map (·.line) := by
  fun_induction linked rs <;> simp_all

end Script

end StoryLang
