/-
The script of a tree, and the compiled story.

Each statement becomes a record, and so does each branch of an `if` and each
handler of a `try`. A record that owns a block enters it at the block's first
statement. A loop exits to what comes after it, and a branch to the next
branch or to what comes after the last one. What comes after the last
statement of a block is what comes after the block's owner, save that nothing
comes after the last statement of a function.

A compiled story is a script with where it starts, the services it uses, and
the document that all this is written as.
-/
import StoryLang.Diagnostic.Basic
import StoryLang.Script.Basic
import StoryLang.Script.OfValue
import StoryLang.Tree.Printer

namespace StoryLang.Script

/-- Where a statement is. -/
structure Place where
  /-- The record whose block it is in. -/
  parent : Option Coord
  /-- The statement to go on with after it. -/
  after : Option Coord
  deriving DecidableEq, Repr

/-- The names that what is done is given. -/
def outputNames (ps : List Tree) : List String :=
  match ps.find? (·.isA .output) with
  | some output => (output.tokens.filter (·.kind = .name)).map (·.literal)
  | none => []

/-- The first name among the parts of a node. -/
def nameIn? (ps : List Tree) : Option String :=
  ((ps.filterMap Tree.asToken?).find? (·.kind = .name)).map (·.literal)

/-- The coordinate of the first node in a row. -/
def firstLine? (ts : List Tree) : Option Coord := (ts.find? Tree.isNode).bind Tree.line?

/-- The coordinate of the first statement of the first block in a row. -/
def enterOf (ps : List Tree) : Option Coord :=
  (ps.find? (·.isA .block)).bind fun block => firstLine? block.parts

/-- The line of the story that a record is for, without the blanks around it. -/
def sourceOf (source : String) (line : Coord) : Option String :=
  if line.isSynthetic then none
  else (Diagnostic.lineOf? source line.base).map fun l => String.ofList (Text.trim l.toList)

/-- Adds a record with its line of the story. -/
def add (source : String) (s : Script) (r : Record) : Except Fault Script :=
  s.insert { r with source := sourceOf source r.line }

/-- Fills a record from the value that its statement evaluates. -/
def fill (r : Record) (v : Tree) : Except Fault Record := do
  match v.rule? with
  | some .serviceCall =>
    let service ← Value.orDefect .noService ((v.find? .path).bind Tree.firstToken?)
    return { r with method := .execute, container := some service.literal
                    command := nameIn? v.parts, args := ← Value.ofArguments v.parts
                    output := outputNames v.parts }
  | some .mutation =>
    let subject ← Value.ofNode (.noOperandOf .mutation) v.parts
    let links ← (v.findAll .mutationFragment).mapM Value.ofMutation
    return { r with method := .mutation, args := subject :: links, output := outputNames v.parts }
  | some .functionCall =>
    let name ← Value.orDefect .namelessCall (nameIn? v.parts)
    return { r with method := .call, function := some name, args := ← Value.ofArguments v.parts }
  | some .binaryExpression | some .unaryExpression | some .cast =>
    return { r with method := .expression, args := [← Value.ofTree v] }
  | _ => return { r with method := .set, args := [← Value.ofTree v] }

/-- A parameter of a function with its type. -/
def parameter (t : Tree) : Except Fault Value :=
  match t.firstToken?, t.find? .types with
  | some name, some types => return .argument name.literal (.ofTypes types)
  | _, _ => throw (.internal .badParameter)

/-- The text of the type that a function returns, if it says one. -/
def returnsText (ps : List Tree) : List String :=
  match (ps.find? (·.isA .returns)).bind (·.find? .types) with
  | some types => [Value.typesText types]
  | none => []

/-- The record of a statement, without what depends on where it is. -/
def recordOf (line : Coord) (t : Tree) : Except Fault Record := do
  let ps := t.parts
  match t.rule? with
  | some .assignment =>
    match t.node? 0, t.node? 1 with
    | some target, some value =>
      let parts ← Value.ofPathParts target.parts
      fill { Record.bare .expression line with target := some parts } value
    | _, _ => throw (.internal .badAssignment)
  | some .serviceCall | some .mutation | some .functionCall =>
    fill (.bare .expression line) t
  | some .expressionStatement =>
    return { Record.bare .expression line with args := [← Value.ofTree t] }
  | some .ifBlock =>
    return { Record.bare .ifMethod line with args := [← Value.ofNode (.noOperandOf .ifBlock) ps] }
  | some .elifBlock =>
    return { Record.bare .elifMethod line with
             args := [← Value.ofNode (.noOperandOf .elifBlock) ps] }
  | some .elseBlock => return .bare .elseMethod line
  | some .foreachBlock =>
    return { Record.bare .forMethod line with
             args := [← Value.ofNode (.noOperandOf .foreachBlock) ps], output := outputNames ps }
  | some .whileBlock =>
    return { Record.bare .whileMethod line with
             args := [← Value.ofNode (.noOperandOf .whileBlock) ps] }
  | some .tryBlock => return .bare .tryMethod line
  | some .catchBlock => return { Record.bare .catchMethod line with output := outputNames ps }
  | some .finallyBlock => return { Record.bare .finallyMethod line with output := outputNames ps }
  | some .functionBlock =>
    let name ← Value.orDefect .namelessFunction (nameIn? ps)
    return { Record.bare .function line with
             function := some name, args := ← (t.findAll .parameter).mapM parameter
             output := returnsText ps }
  | some .whenBlock =>
    let target ← Value.orDefect .noTarget (t.find? .path)
    return { Record.bare .whenMethod line with
             container := target.firstToken?.map (·.literal), command := nameIn? ps
             args := ← Value.ofArguments ps, output := outputNames ps }
  | some .returnStatement =>
    return { Record.bare .returnMethod line with args := ← Value.ofFirst 1 ps }
  | some .throwStatement =>
    return { Record.bare .throwMethod line with args := ← Value.ofFirst 1 ps }
  | some .breakStatement => return .bare .breakMethod line
  | some .continueStatement => return .bare .continueMethod line
  | some .importStatement =>
    match t.node? 0, nameIn? ps with
    | some path, some name =>
      return { Record.bare .importMethod line with args := [← Value.ofTree path], output := [name] }
    | _, _ => throw (.internal .badImport)
  | some rule => throw (.internal (.notAStatement rule))
  | none => throw (.internal .emptyExpression)

/-- The rules of the nodes that go on with a statement: the branches of an
`if` and the handlers of a `try`. -/
def continuations (rule : Rule) : List Rule :=
  match rule with
  | .ifBlock => [.elifBlock, .elseBlock]
  | .tryBlock => [.catchBlock, .finallyBlock]
  | _ => []

/-- Whether a tree is a node of one of those rules. -/
def isOneOf (rules : List Rule) (t : Tree) : Bool := rules.any (t.isA ·)

/-- The coordinate of the next node of one of those rules in a row, or what comes after. -/
def nextOf (rules : List Rule) (after : Option Coord) (ts : List Tree) : Option Coord :=
  ((ts.find? (isOneOf rules)).bind Tree.line?).or after

/-- Whether statements of a rule may own a block. -/
def ownsBlock (rule : Rule) : Bool :=
  match rule with
  | .serviceCall | .mutation | .functionCall | .ifBlock | .foreachBlock | .whileBlock | .tryBlock
  | .functionBlock | .whenBlock => true
  | _ => false

/-- Where a record of a rule exits to. Only loops and what has branches exit. -/
def exitOf (rule : Rule) (after : Option Coord) (ps : List Tree) : Option Coord :=
  match rule with
  | .ifBlock | .tryBlock => nextOf (continuations rule) after ps
  | .foreachBlock | .whileBlock => after
  | _ => none

/-- What comes after the block of a statement. -/
def afterBlock (rule : Rule) (after : Option Coord) : Option Coord :=
  match rule with
  | .functionBlock => none
  | _ => after

/-- The defect of a branch or a handler without a coordinate. -/
def lineless (rule : Rule) : Defect :=
  match rule with
  | .catchBlock | .finallyBlock => .handlerWithoutLine
  | _ => .branchWithoutLine

mutual

/-- Adds the records of a statement. -/
def ofStatement (source : String) (place : Place) (s : Script) : Tree → Except Fault Script
  | .token _ => return s
  | .node rule own ps => do
    let t := Tree.node rule own ps
    let line ← Value.orDefect (.noLine rule) t.line?
    if (rule = .elifBlock || rule = .elseBlock || rule = .catchBlock || rule = .finallyBlock) then
      throw (.internal (.notAStatement rule))
    let r ← recordOf line t
    let s := match rule, r.function with
      | .functionBlock, some name => s.declare name line
      | _, _ => s
    let r := { r with parent := place.parent, exit := exitOf rule place.after ps }
    if ownsBlock rule then
      let s ← add source s { r with enter := enterOf ps }
      let s ← ofBody source ⟨some line, afterBlock rule place.after⟩ s ps
      ofContinuations source (continuations rule) place s ps
    else add source s r

/-- Adds the records of statements one after the other. -/
def ofStatements (source : String) (place : Place) (s : Script) :
    List Tree → Except Fault Script
  | [] => return s
  | .token _ :: ts => ofStatements source place s ts
  | .node rule own ps :: ts => do
    let after := (firstLine? ts).or place.after
    let s ← ofStatement source { place with after } s (.node rule own ps)
    ofStatements source place s ts

/-- Adds the records of the first block in a row. -/
def ofBody (source : String) (place : Place) (s : Script) : List Tree → Except Fault Script
  | [] => return s
  | .node .block _ ps :: _ => ofStatements source place s ps
  | _ :: ts => ofBody source place s ts

/-- Adds the records of the nodes of some rules in a row, each with its block. -/
def ofContinuations (source : String) (rules : List Rule) (place : Place) (s : Script) :
    List Tree → Except Fault Script
  | [] => return s
  | .token _ :: ts => ofContinuations source rules place s ts
  | .node rule own ps :: ts => do
    let t := Tree.node rule own ps
    if isOneOf rules t then
      let line ← Value.orDefect (lineless rule) t.line?
      let r ← recordOf line t
      let r := { r with parent := place.parent, exit := nextOf rules place.after ts }
      let s ← add source s { r with enter := enterOf ps }
      let s ← ofBody source ⟨some line, place.after⟩ s ps
      ofContinuations source rules place s ts
    else ofContinuations source rules place s ts

end

/-- The script of a tree over the text of its story. -/
def ofTree (source : String) (t : Tree) : Except Fault Script := do
  let s ← ofStatements source ⟨none, none⟩ .empty t.parts
  return { s with records := linked s.records }

end StoryLang.Script

namespace StoryLang

/-- What a story is compiled to. -/
structure CompiledStory where
  script : Script
  /-- The first statement that is not a function. -/
  entrypoint : Option Coord
  services : List String
  /-- The tree the script was made from, if it is to be shown. -/
  tree : Option Tree
  deriving Repr

namespace CompiledStory

/-- The version of the document's format. -/
def version : String := "0.1.0"

/-- The coordinate of the first statement that is not a function. -/
def entrypointOf (t : Tree) : Option Coord :=
  (t.nodes.filter (!·.isA .functionBlock)).findSome? Tree.line?

/-- Compiles a tree over the text of its story. -/
def ofTree (source : String) (t : Tree) (services : List String) : Except Fault CompiledStory := do
  let script ← Script.ofTree source t
  return { script, entrypoint := entrypointOf t, services, tree := none }

/-- The document with everything in it. -/
def toJson (c : CompiledStory) : Json :=
  .obj
    ([("script", Json.obj (c.script.records.map fun r => (r.line.text, r.toJson))),
      ("entrypoint", Record.coordJson c.entrypoint),
      ("functions", .obj (c.script.functions.entries.map fun (name, line) =>
        (name, .str line.text))),
      ("services", .arr (c.services.map .str)),
      ("version", .str version)] ++
      match c.tree with
      | some t => [("tree", t.toJson)]
      | none => [])

/-- The document. A concise one leaves out what says nothing. -/
def document (c : CompiledStory) (concise : Bool) : Json :=
  if concise then c.toJson.clean else c.toJson

/-- The record at the coordinate that a text names. -/
def record? (c : CompiledStory) (line : String) : Option Record :=
  (Coord.ofText? line).bind c.script.get?

end CompiledStory

end StoryLang
